import DeepOS.Directory

/-!
# Archives in depth-first order

The archive is made from a directory tree: the entry of a directory ends in a
slash and is followed at once by everything below it. Children are recovered from
the entries alone by their names.
-/
namespace FileTree

open CString Strings Tarfs Directory

structure IsName (n : List Byte) : Prop where
  pos : n ≠ []
  noSlash : (47 : Byte) ∉ n
  notDot : n ≠ [46]

/-- The entries list, depth first, what is below the directory with path `p`; the
names are those of its children, in order. -/
inductive Lists : List Byte → List Entry → List (List Byte) → Prop
  | nil (p : List Byte) : Lists p [] []
  | file {p n : List Byte} {e : Entry} {es : List Entry} {names : List (List Byte)} (hn : IsName n)
      (he : e.name = p ++ n) (hnew : n ∉ names) (hes : Lists p es names) :
      Lists p (e :: es) (n :: names)
  | dir {p n : List Byte} {e : Entry} {kids es : List Entry} {below names : List (List Byte)}
      (hn : IsName n) (he : e.name = p ++ n ++ [47]) (hempty : e.contents = []) (hnew : n ∉ names)
      (hkids : Lists (p ++ n ++ [47]) kids below) (hes : Lists p es names) :
      Lists p (e :: (kids ++ es)) (n :: names)

/-- An archive of a tree, with names that fit in the kernel's buffers. -/
structure IsTree (A : Archive) : Prop where
  tree : ∃ names, Lists [] A.entries names
  short : ∀ e ∈ A.entries, e.name.length ≤ 98

def IsDir (A : Archive) (d : List Byte) : Prop :=
  d = [] ∨ d.getLast? = some 47 ∧ ∃ e ∈ A.entries, e.name = d

def childName (d : List Byte) (e : Entry) : Option (List Byte) :=
  let below := e.name.drop d.length
  let n := below.takeWhile (· ≠ 47)
  if d.isPrefixOf e.name ∧ n ≠ [] ∧ (below = n ∨ below = n ++ [47]) then some n else none

def Archive.children (A : Archive) (d : List Byte) : List (List Byte) :=
  A.entries.filterMap (childName d)

/-! ## Names and paths -/

def Under (p n x : List Byte) : Prop := x = p ++ n ∨ p ++ n ++ [47] <+: x

theorem takeWhile_name {n : List Byte} (h : (47 : Byte) ∉ n) : n.takeWhile (· ≠ 47) = n := by
  rw [List.takeWhile_eq_self_iff]
  intro c hc
  simpa using fun he : c = 47 => h (he ▸ hc)

/-- `fetchName` finds the component behind the directory. -/
theorem Under.fetchName {p n x : List Byte} (h : Under p n x) (hn : (47 : Byte) ∉ n) :
    Directory.fetchName x p.length = n := by
  rcases h with rfl | ⟨rest, rfl⟩
  · rw [Directory.fetchName, List.drop_left, takeWhile_name hn]
  · have hsplit : p ++ n ++ [47] ++ rest = p ++ (n ++ 47 :: rest) := by simp
    rw [Directory.fetchName, hsplit, List.drop_left, takeWhile_ne hn]

theorem Under.path_le {p n x : List Byte} (h : Under p n x) : p <+: x := by
  rcases h with rfl | ⟨rest, rfl⟩
  · exact List.prefix_append p n
  · exact ⟨n ++ ([47] ++ rest), by simp⟩

theorem Under.unique {p n m x : List Byte} (h : Under p n x) (h' : Under p m x)
    (hn : (47 : Byte) ∉ n) (hm : (47 : Byte) ∉ m) : n = m :=
  (h.fetchName hn).symm.trans (h'.fetchName hm)

/-- Every entry is, or is below, one of the children. -/
theorem Lists.under {p : List Byte} {es : List Entry} {names : List (List Byte)}
    (h : Lists p es names) : ∀ e ∈ es, ∃ n ∈ names, IsName n ∧ Under p n e.name := by
  induction h with
  | nil p => simp
  | @file p n e es names hn he hnew hes ih =>
    intro q hq
    rcases List.mem_cons.mp hq with rfl | hq
    · exact ⟨n, by simp, hn, Or.inl he⟩
    · obtain ⟨m, hm, hname, hu⟩ := ih q hq
      exact ⟨m, by simp [hm], hname, hu⟩
  | @dir p n e kids es below names hn he hempty hnew hkids hes ihk ih =>
    intro q hq
    rcases List.mem_cons.mp hq with rfl | hq
    · exact ⟨n, by simp, hn, Or.inr (by rw [he])⟩
    · rcases List.mem_append.mp hq with hq | hq
      · obtain ⟨m, -, -, hu⟩ := ihk q hq
        exact ⟨n, by simp, hn, Or.inr hu.path_le⟩
      · obtain ⟨m, hm, hname, hu⟩ := ih q hq
        exact ⟨m, by simp [hm], hname, hu⟩

theorem Lists.names_nodup {p : List Byte} {es : List Entry} {names : List (List Byte)}
    (h : Lists p es names) : names.Nodup := by
  induction h with
  | nil p => exact List.nodup_nil
  | file _ _ hnew _ ih => exact List.nodup_cons.mpr ⟨hnew, ih⟩
  | dir _ _ _ hnew _ _ _ ih => exact List.nodup_cons.mpr ⟨hnew, ih⟩

theorem Lists.isName {p : List Byte} {es : List Entry} {names : List (List Byte)}
    (h : Lists p es names) : ∀ n ∈ names, IsName n := by
  induction h with
  | nil p => simp
  | file hn _ _ _ ih => simpa using ⟨hn, ih⟩
  | dir hn _ _ _ _ _ _ ih => simpa using ⟨hn, ih⟩

/-! ## The block of a directory -/

/-- The entries from `e` on that belong to the directory `d`, with what stands
before and behind them. -/
structure Block (d : List Byte) (es pre : List Entry) (e : Entry) (kids post : List Entry)
    (names : List (List Byte)) : Prop where
  split : es = pre ++ e :: (kids ++ post)
  name : e.name = d
  empty : e.contents = []
  lists : Lists d kids names
  before : ∀ q ∈ pre, ¬ d <+: q.name
  behind : ∀ q ∈ post, ¬ d <+: q.name

/-- A path that ends in a slash is not that of a file. -/
theorem name_ne_of_last {p n d : List Byte} (hn : IsName n) (hd : d.getLast? = some 47) :
    d ≠ p ++ n := by
  rintro rfl
  rw [List.getLast?_append_of_ne_nil _ hn.pos] at hd
  exact hn.noSlash (List.mem_of_getLast? hd)

/-- A directory inside `p` lies below the path of one of the children. -/
theorem Lists.dir_under {p : List Byte} {es : List Entry} {names : List (List Byte)}
    (h : Lists p es names) {d : List Byte} (hd : d.getLast? = some 47) (hmem : ∃ e ∈ es, e.name = d) :
    ∃ n ∈ names, IsName n ∧ p ++ n ++ [47] <+: d := by
  obtain ⟨e, he, rfl⟩ := hmem
  obtain ⟨n, hn, hname, hu⟩ := h.under e he
  rcases hu with heq | hpre
  · exact absurd heq (name_ne_of_last hname hd)
  · exact ⟨n, hn, hname, hpre⟩

theorem Lists.block {p : List Byte} {es : List Entry} {names : List (List Byte)}
    (h : Lists p es names) {d : List Byte} (hd : d.getLast? = some 47) (hmem : ∃ e ∈ es, e.name = d) :
    ∃ pre e kids post below, Block d es pre e kids post below := by
  induction h with
  | nil p =>
    obtain ⟨e, he, -⟩ := hmem
    exact absurd he List.not_mem_nil
  | @file p n e es names hn he hnew hes ih =>
    have hrest : ∃ q ∈ es, q.name = d := by
      obtain ⟨q, hq, hqd⟩ := hmem
      rcases List.mem_cons.mp hq with rfl | hq
      · exact absurd (hqd.symm.trans he) (name_ne_of_last hn hd)
      · exact ⟨q, hq, hqd⟩
    obtain ⟨m, hm, hmname, hmd⟩ := hes.dir_under hd hrest
    obtain ⟨pre, e', kids, post, below, hb⟩ := ih hrest
    refine ⟨e :: pre, e', kids, post, below, ?_, hb.name, hb.empty, hb.lists, ?_, hb.behind⟩
    · rw [hb.split, List.cons_append]
    · intro q hq
      rcases List.mem_cons.mp hq with rfl | hq
      · intro hpre
        have hnm := Under.unique (Or.inl he) (Or.inr (hmd.trans hpre)) hn.noSlash hmname.noSlash
        exact hnew (hnm ▸ hm)
      · exact hb.before q hq
  | @dir p n e kids es below names hn he hempty hnew hkids hes ihk ih =>
    -- nothing outside this directory lies below its path
    have hout : ∀ q ∈ es, ¬ p ++ n ++ [47] <+: q.name := by
      intro q hq hpre
      obtain ⟨m, hm, hmname, hu⟩ := hes.under q hq
      exact hnew (Under.unique (Or.inr hpre) hu hn.noSlash hmname.noSlash ▸ hm)
    by_cases hde : e.name = d
    · subst hde
      refine ⟨[], e, kids, es, below, rfl, rfl, hempty, he ▸ hkids, by simp, ?_⟩
      rw [he]
      exact hout
    by_cases hk : ∃ q ∈ kids, q.name = d
    · obtain ⟨m, hm, hmname, hmd⟩ := hkids.dir_under hd hk
      have hdeep : p ++ n ++ [47] <+: d :=
        (List.prefix_append _ (m ++ [47])).trans (by simpa using hmd)
      obtain ⟨pre, e', kids', post, below', hb⟩ := ihk hk
      refine ⟨e :: pre, e', kids', post ++ es, below', ?_, hb.name, hb.empty, hb.lists, ?_, ?_⟩
      · rw [hb.split]
        simp
      · intro q hq
        rcases List.mem_cons.mp hq with rfl | hq
        · intro hpre
          rw [he] at hpre
          have hlen := (hmd.trans hpre).length_le
          simp at hlen
        · exact hb.before q hq
      · intro q hq
        rcases List.mem_append.mp hq with hq | hq
        · exact hb.behind q hq
        · exact fun hpre => hout q hq (hdeep.trans hpre)
    · have hrest : ∃ q ∈ es, q.name = d := by
        obtain ⟨q, hq, hqd⟩ := hmem
        rcases List.mem_cons.mp hq with rfl | hq
        · exact absurd hqd hde
        · rcases List.mem_append.mp hq with hq | hq
          · exact absurd ⟨q, hq, hqd⟩ hk
          · exact ⟨q, hq, hqd⟩
      obtain ⟨m, hm, hmname, hmd⟩ := hes.dir_under hd hrest
      have hother : ∀ q : Entry, p ++ n ++ [47] <+: q.name → ¬ d <+: q.name := by
        intro q hq hpre
        have hnm := Under.unique (Or.inr hq) (Or.inr (hmd.trans hpre)) hn.noSlash hmname.noSlash
        exact hnew (hnm ▸ hm)
      obtain ⟨pre, e', kids', post, below', hb⟩ := ih hrest
      refine ⟨e :: (kids ++ pre), e', kids', post, below', ?_, hb.name, hb.empty, hb.lists, ?_,
        hb.behind⟩
      · rw [hb.split]
        simp
      · intro q hq
        rcases List.mem_cons.mp hq with rfl | hq
        · exact hother q (by rw [he])
        · rcases List.mem_append.mp hq with hq | hq
          · obtain ⟨_, -, -, hu⟩ := hkids.under q hq
            exact hother q hu.path_le
          · exact hb.before q hq

/-! ## Children -/

theorem childName_none {d : List Byte} {e : Entry} (h : ¬ d <+: e.name) : childName d e = none := by
  simp [childName, h]

theorem childName_own {d : List Byte} {e : Entry} (h : e.name = d) : childName d e = none := by
  simp [childName, h]

/-- A file, or the header of a directory, is the child of that name. -/
theorem childName_child {d n : List Byte} {e : Entry} (hn : IsName n)
    (h : e.name = d ++ n ∨ e.name = d ++ n ++ [47]) : childName d e = some n := by
  have hwhole := takeWhile_name hn.noSlash
  have hcut : (n ++ [47]).takeWhile (· ≠ 47) = n := takeWhile_ne hn.noSlash []
  rcases h with h | h
  · simp only [childName, h, List.drop_left, hwhole]
    simp [hn.pos]
  · simp only [childName, h, List.append_assoc, List.drop_left, hcut]
    simp [hn.pos]

/-- What lies below a child is not a child. -/
theorem childName_below {d n m : List Byte} {e : Entry} (hn : IsName n) (hm : IsName m)
    (h : Under (d ++ n ++ [47]) m e.name) : childName d e = none := by
  obtain ⟨x, hx⟩ : ∃ x, e.name = d ++ (n ++ 47 :: (m ++ x)) := by
    rcases h with h | ⟨rest, h⟩
    · exact ⟨[], by simp [h]⟩
    · exact ⟨47 :: rest, by simp [← h]⟩
  have hcut : (n ++ 47 :: (m ++ x)).takeWhile (· ≠ 47) = n := takeWhile_ne hn.noSlash _
  simp only [childName, hx, List.drop_left, hcut]
  simp [hm.pos]

theorem Lists.children {p : List Byte} {es : List Entry} {names : List (List Byte)}
    (h : Lists p es names) : es.filterMap (childName p) = names := by
  induction h with
  | nil p => rfl
  | @file p n e es names hn he hnew hes ih =>
    rw [List.filterMap_cons, childName_child hn (Or.inl he)]
    simp [ih]
  | @dir p n e kids es below names hn he hempty hnew hkids hes ihk ih =>
    have hbelow : kids.filterMap (childName p) = [] := by
      rw [List.filterMap_eq_nil_iff]
      intro q hq
      obtain ⟨m, -, hm, hu⟩ := hkids.under q hq
      exact childName_below hn hm hu
    rw [List.filterMap_cons, childName_child hn (Or.inr he)]
    simp [hbelow, ih]

/-- The children of a directory are those its block lists. -/
theorem Block.children {A : Archive} {d : List Byte} {pre kids post : List Entry} {e : Entry}
    {names : List (List Byte)} (h : Block d A.entries pre e kids post names) :
    Archive.children A d = names := by
  have hpre : pre.filterMap (childName d) = [] :=
    List.filterMap_eq_nil_iff.mpr fun q hq => childName_none (h.before q hq)
  have hpost : post.filterMap (childName d) = [] :=
    List.filterMap_eq_nil_iff.mpr fun q hq => childName_none (h.behind q hq)
  rw [Archive.children, h.split, List.filterMap_append, List.filterMap_cons, childName_own h.name]
  simp [hpre, hpost, h.lists.children]

/-- The children of the root and of every directory, as some entries list them. -/
theorem children_lists {A : Archive} (hA : IsTree A) {d : List Byte} (hd : IsDir A d) :
    ∃ es, Lists d es (Archive.children A d) := by
  obtain ⟨names, hl⟩ := hA.tree
  rcases hd with rfl | ⟨hlast, hmem⟩
  · exact ⟨A.entries, by rw [Archive.children, hl.children]; exact hl⟩
  · obtain ⟨pre, e, kids, post, below, hb⟩ := hl.block hlast hmem
    exact ⟨kids, by rw [hb.children]; exact hb.lists⟩

end FileTree
