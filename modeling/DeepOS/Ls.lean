import DeepOS.Listing

/-!
# `ls`

`sys_ls` goes through the whole archive and prints a name whenever it differs from
the last one it printed.
-/
namespace Ls

open TaskTable CString Strings Tarfs Directory FileTree Listing

def lsLoop (a : List Byte) (stop : Nat) (wanted : List Byte → Bool) (lenAdd : Nat) :
    Nat → Nat → List Byte → Option (List (List Byte))
  | 0, _, _ => none
  | fuel + 1, start, prevFile =>
    if start < stop then
      let name := headerName a start
      let next := nextHeader a start
      if wanted name then
        let buff := fetchName name lenAdd
        if strcmp buff prevFile ≠ 0 then
          (lsLoop a stop wanted lenAdd fuel next buff).map fun printed => buff :: printed
        else lsLoop a stop wanted lenAdd fuel next prevFile
      else lsLoop a stop wanted lenAdd fuel next prevFile
    else some []

/-- The last block is left out. -/
def handleRootLS (a : List Byte) : Option (List (List Byte)) :=
  lsLoop a (a.length - 512) (fun _ => true) 0 (a.length + 1) 0 []

def sysLs (a dirname : List Byte) : Option (List (List Byte)) :=
  if strcmp dirname [47] = 0 then handleRootLS a
  else lsLoop a a.length (fun name => contains name dirname.tail) dirname.tail.length (a.length + 1) 0 [46]

/-! ## The loop on entries -/

section

variable {A : Archive} {d behind : List Byte} {stop p : Nat} {e : Entry} {prev : List Byte}

/-- There is something behind every entry, so the shorter bound does not matter. -/
theorem entry_lt (hstop : A.bytes.length ≤ stop + 512) (h : A.bytes.drop p = e.bytes ++ behind)
    (hb : 0 < behind.length) : p < stop := by
  have hlen := congrArg List.length h
  have hbytes := bytes_length e
  rw [List.length_drop, List.length_append] at hlen
  omega

variable (hstop : A.bytes.length ≤ stop + 512)

include hstop

/-- An entry outside the directory, or one that repeats the last name, prints nothing. -/
theorem lsLoop_pass (fuel : Nat) (h : A.bytes.drop p = e.bytes ++ behind) (hb : 0 < behind.length)
    (he : ¬ d <+: e.name ∨ fetchName e.name d.length = prev) :
    lsLoop A.bytes stop (fun name => contains name d) d.length (fuel + 1) p prev =
      lsLoop A.bytes stop (fun name => contains name d) d.length fuel (p + e.bytes.length) prev := by
  have hsame : ¬ strcmp prev prev ≠ 0 := by
    rw [not_not, strcmp_eq_zero]
  simp only [lsLoop, entry_lt hstop h hb, if_true, headerName_entry h,
    nextHeader_entry h (contents_lt h)]
  by_cases hd : d <+: e.name
  · rw [if_pos ((contains_iff _ _).mpr hd), he.resolve_left (not_not.mpr hd), if_neg hsame]
  · rw [if_neg (fun hc => hd ((contains_iff _ _).mp hc))]

theorem lsLoop_print (fuel : Nat) (h : A.bytes.drop p = e.bytes ++ behind) (hb : 0 < behind.length)
    (hd : d <+: e.name) (hne : fetchName e.name d.length ≠ prev) :
    lsLoop A.bytes stop (fun name => contains name d) d.length (fuel + 1) p prev =
      (lsLoop A.bytes stop (fun name => contains name d) d.length fuel (p + e.bytes.length)
        (fetchName e.name d.length)).map fun printed => fetchName e.name d.length :: printed := by
  have hdiff : strcmp (fetchName e.name d.length) prev ≠ 0 := by
    rwa [ne_eq, strcmp_eq_zero]
  simp only [lsLoop, entry_lt hstop h hb, if_true, headerName_entry h,
    nextHeader_entry h (contents_lt h)]
  rw [if_pos ((contains_iff _ _).mpr hd), if_pos hdiff]

theorem lsLoop_passes (fuel : Nat) (es : List Entry) (hb : 0 < behind.length) : ∀ {p : Nat},
    A.bytes.drop p = es.flatMap Entry.bytes ++ behind →
    (∀ q ∈ es, ¬ d <+: q.name ∨ fetchName q.name d.length = prev) →
    lsLoop A.bytes stop (fun name => contains name d) d.length (fuel + es.length) p prev =
      lsLoop A.bytes stop (fun name => contains name d) d.length fuel
        (p + (es.flatMap Entry.bytes).length) prev := by
  induction es with
  | nil => exact fun _ _ => rfl
  | cons e es ih =>
    intro p h hpass
    rw [List.flatMap_cons, List.append_assoc] at h
    have hrest := ih (drop_next h) (fun q hq => hpass q (List.mem_cons_of_mem e hq))
    rw [List.length_cons, ← Nat.add_assoc,
      lsLoop_pass hstop _ h (by rw [List.length_append]; omega) (hpass e List.mem_cons_self), hrest,
      List.flatMap_cons, List.length_append, Nat.add_assoc]

/-- The entries below a directory print its names. -/
theorem lsLoop_lists {es : List Entry} {names : List (List Byte)} (hl : Lists d es names) (fuel : Nat)
    (hb : 0 < behind.length) : ∀ {p : Nat} {prev : List Byte},
    A.bytes.drop p = es.flatMap Entry.bytes ++ behind → prev ∉ names → ∃ prev',
      lsLoop A.bytes stop (fun name => contains name d) d.length (fuel + es.length) p prev =
        (lsLoop A.bytes stop (fun name => contains name d) d.length fuel
          (p + (es.flatMap Entry.bytes).length) prev').map fun printed => names ++ printed := by
  induction hl generalizing fuel behind with
  | nil d =>
    intro p prev h hprev
    exact ⟨prev, by simp⟩
  | @file d n e es names hn he hnew hes ih =>
    intro p prev h hprev
    rw [List.flatMap_cons, List.append_assoc] at h
    have hname : fetchName e.name d.length = n := Under.fetchName (Or.inl he) hn.noSlash
    obtain ⟨prev', hrest⟩ := ih fuel hb (drop_next h) hnew
    refine ⟨prev', ?_⟩
    rw [List.length_cons, ← Nat.add_assoc, lsLoop_print hstop _ h (by rw [List.length_append]; omega)
      (by rw [he]; exact List.prefix_append d n) (by rw [hname]; exact (List.ne_of_not_mem_cons hprev).symm),
      hname, hrest, Option.map_map, List.flatMap_cons, List.length_append, Nat.add_assoc]
    rfl
  | @dir d n e kids es below names hn he hempty hnew hkids hes ihk ih =>
    intro p prev h hprev
    rw [List.flatMap_cons, List.flatMap_append, List.append_assoc, List.append_assoc] at h
    have hname : fetchName e.name d.length = n := Under.fetchName (Or.inr (by rw [he])) hn.noSlash
    have hpass : ∀ q ∈ kids, ¬ d <+: q.name ∨ fetchName q.name d.length = n := by
      intro q hq
      obtain ⟨m, -, -, hu⟩ := hkids.under q hq
      exact Or.inr (Under.fetchName (Or.inr hu.path_le) hn.noSlash)
    have hkid := drop_next h
    have hdrop : A.bytes.drop (p + e.bytes.length + (kids.flatMap Entry.bytes).length) =
        es.flatMap Entry.bytes ++ behind := by
      rw [← List.drop_drop, hkid, List.drop_left]
    obtain ⟨prev', hrest⟩ := ih fuel hb hdrop hnew
    refine ⟨prev', ?_⟩
    have hpos : 0 < (es.flatMap Entry.bytes ++ behind).length := by
      rw [List.length_append]
      omega
    have hskip := lsLoop_passes hstop (fuel + es.length) kids hpos hkid hpass
    have hcount : fuel + (e :: (kids ++ es)).length = fuel + es.length + kids.length + 1 := by
      rw [List.length_cons, List.length_append]
      omega
    have hwhere : p + e.bytes.length + (kids.flatMap Entry.bytes).length +
        (es.flatMap Entry.bytes).length = p + ((e :: (kids ++ es)).flatMap Entry.bytes).length := by
      rw [List.flatMap_cons, List.flatMap_append, List.length_append, List.length_append]
      omega
    rw [hcount, lsLoop_print hstop _ h (by rw [List.length_append]; omega)
      (by rw [he, List.append_assoc]; exact List.prefix_append d _)
      (by rw [hname]; exact (List.ne_of_not_mem_cons hprev).symm),
      hname, hskip, hrest, Option.map_map, hwhere]
    rfl

end

/-- The zero blocks print at most empty names. -/
theorem lsLoop_zeros {A : Archive} {stop lenAdd : Nat} (hstop : stop ≤ A.bytes.length)
    (wanted : List Byte → Bool) (z : Nat) : ∀ {p fuel : Nat} (prev : List Byte),
    A.bytes.drop p = List.replicate (512 * z) 0 → z < fuel → ∃ printed,
      lsLoop A.bytes stop wanted lenAdd fuel p prev = some printed ∧ ∀ n ∈ printed, n = [] := by
  induction z with
  | zero =>
    intro p fuel prev h hfuel
    have hend := List.drop_eq_nil_iff.mp (by simpa using h : A.bytes.drop p = [])
    cases fuel with
    | zero => omega
    | succ fuel => exact ⟨[], by simp [lsLoop, show ¬ p < stop by omega], by simp⟩
  | succ z ih =>
    intro p fuel prev h hfuel
    have hnext : A.bytes.drop (p + 512) = List.replicate (512 * z) 0 := by
      rw [drop_zero h, show 512 * (z + 1) - 512 = 512 * z by omega]
    cases fuel with
    | zero => omega
    | succ fuel =>
      simp only [lsLoop, headerName_zero h, nextHeader_zero h]
      have hbuff : fetchName [] lenAdd = [] := by simp [fetchName]
      rw [hbuff]
      split_ifs
      · obtain ⟨printed, hrest, hall⟩ := ih [] hnext (by omega : z < fuel)
        refine ⟨[] :: printed, by rw [hrest]; rfl, ?_⟩
        simpa using hall
      · exact ih prev hnext (by omega)
      · exact ih prev hnext (by omega)
      · exact ⟨[], rfl, by simp⟩

/-! ## What is printed -/

theorem filter_printed {names printed : List (List Byte)} (hn : [] ∉ names)
    (hp : ∀ n ∈ printed, n = []) : (names ++ printed).filter (· ≠ []) = names := by
  rw [List.filter_append, List.filter_eq_self.mpr, List.filter_eq_nil_iff.mpr]
  · simp
  · simpa using hp
  · intro n hm
    simpa using fun hnil : n = [] => hn (hnil ▸ hm)

theorem handleRootLS_children {A : Archive} (hA : IsTree A) : ∃ printed,
    handleRootLS A.bytes = some printed ∧ printed.filter (· ≠ []) = Archive.children A [] := by
  obtain ⟨names, hl⟩ := hA.tree
  have htwo := A.two_le
  have hlen := A.length_bytes
  have hcount := length_le_flatMap A.entries
  have hnil : [] ∉ names := fun hm => (hl.isName [] hm).pos rfl
  have hwanted : (fun _ => true) = fun name => contains name [] := by
    funext name
    exact ((contains_iff name []).mpr List.nil_prefix).symm
  obtain ⟨prev, hloop⟩ := @lsLoop_lists A _ (List.replicate (512 * A.zeroBlocks) 0)
    (A.bytes.length - 512) (by omega) _ _ hl (A.bytes.length + 1 - A.entries.length)
    (by rw [List.length_replicate]; omega) 0 _ rfl hnil
  obtain ⟨printed, hzeros, hempty⟩ := @lsLoop_zeros A (A.bytes.length - 512) 0 (by omega)
    (fun name => contains name []) A.zeroBlocks (0 + (A.entries.flatMap Entry.bytes).length) _ prev
    (by rw [Nat.zero_add, Archive.bytes, List.drop_left]) (by omega : A.zeroBlocks < A.bytes.length + 1 - A.entries.length)
  rw [List.length_nil, hzeros, show A.bytes.length + 1 - A.entries.length + A.entries.length =
    A.bytes.length + 1 by omega] at hloop
  refine ⟨names ++ printed, ?_, ?_⟩
  · rw [handleRootLS, hwanted, hloop]
    rfl
  · rw [filter_printed hnil hempty, Archive.children, hl.children]

/-- The header of the directory itself prints an empty name, everything outside it nothing. -/
theorem sysLs_children {A : Archive} (hA : IsTree A) {d : List Byte} (hd : d.getLast? = some 47)
    (hmem : ∃ e ∈ A.entries, e.name = d) : ∃ printed,
    sysLs A.bytes (47 :: d) = some printed ∧ printed.filter (· ≠ []) = Archive.children A d := by
  obtain ⟨names, hl⟩ := hA.tree
  obtain ⟨pre, e, kids, post, below, hb⟩ := hl.block hd hmem
  have htwo := A.two_le
  have hlen := A.length_bytes
  have hcount := length_le_flatMap A.entries
  have hnil : [] ∉ below := fun hm => (hb.lists.isName [] hm).pos rfl
  have hzpos : 0 < (List.replicate (512 * A.zeroBlocks) (0 : Byte)).length := by
    rw [List.length_replicate]
    omega
  have hbytes : A.bytes = pre.flatMap Entry.bytes ++ (e.bytes ++ (kids.flatMap Entry.bytes ++
      (post.flatMap Entry.bytes ++ List.replicate (512 * A.zeroBlocks) 0))) := by
    rw [Archive.bytes, hb.split]
    simp only [List.flatMap_append, List.flatMap_cons, List.append_assoc]
  -- the positions behind each part
  have hown : A.bytes.drop (0 + (pre.flatMap Entry.bytes).length) = e.bytes ++ (kids.flatMap Entry.bytes ++
      (post.flatMap Entry.bytes ++ List.replicate (512 * A.zeroBlocks) 0)) := by
    rw [Nat.zero_add, hbytes, List.drop_left]
  have hkids := drop_next hown
  have hpost := (List.drop_drop ..).symm.trans ((congrArg _ hkids).trans List.drop_left)
  have hzeros := (List.drop_drop ..).symm.trans ((congrArg _ hpost).trans List.drop_left)
  have hempty : fetchName e.name d.length = [] := by
    rw [hb.name, fetchName, List.drop_length]
    rfl
  obtain ⟨fuel, hfuel⟩ : ∃ fuel, A.bytes.length + 1 =
      fuel + post.length + kids.length + 1 + pre.length ∧ A.zeroBlocks < fuel := by
    rw [hb.split] at hcount
    simp only [List.length_append, List.length_cons] at hcount
    refine ⟨A.bytes.length - post.length - kids.length - pre.length, ?_⟩
    rw [hb.split] at hlen
    omega
  have hstop : A.bytes.length ≤ A.bytes.length + 512 := by omega
  have hpre := @lsLoop_passes A d _ _ [46] hstop (fuel + post.length + kids.length + 1) pre
    (by rw [List.length_append, bytes_length]; omega) 0 hbytes (fun q hq => Or.inl (hb.before q hq))
  have hprint := lsLoop_print (d := d) hstop (fuel + post.length + kids.length) hown
    (by simp only [List.length_append]; omega) (by rw [hb.name])
    (by rw [hempty]; decide : fetchName e.name d.length ≠ [46])
  obtain ⟨prev, hbelow⟩ := lsLoop_lists hstop hb.lists (fuel + post.length)
    (by rw [List.length_append]; omega) hkids hnil
  have hrest := @lsLoop_passes A d _ _ prev hstop fuel post hzpos _ hpost
    (fun q hq => Or.inl (hb.behind q hq))
  obtain ⟨printed, hend, hall⟩ := @lsLoop_zeros A _ d.length le_rfl
    (fun name => contains name d) A.zeroBlocks _ _ prev hzeros hfuel.2
  have hroot : ¬ strcmp (47 :: d) [47] = 0 := by
    rw [strcmp_eq_zero]
    rintro heq
    rw [(List.cons.inj heq).2] at hd
    cases hd
  refine ⟨[] :: (below ++ printed), ?_, ?_⟩
  · rw [sysLs, if_neg hroot, List.tail_cons, hfuel.1, hpre, hprint, hempty, hbelow, hrest, hend]
    rfl
  · rw [hb.children, List.filter_cons_of_neg (by simp), filter_printed hnil hall]

/-! ## The same names as `readdir` -/

def readNames (a : List Byte) (t : Slot) : Nat → Dir → Dirs → Option (List (List Byte))
  | 0, _, _ => none
  | fuel + 1, dir, s =>
    match sysReaddir a s t dir with
    | none => none
    | some (buff, dir', s') =>
      if buff = [] then some [] else (readNames a t fuel dir' s').map fun names => buff :: names

theorem readNames_answers {A : Archive} {d : List Byte} {t : Slot} (rest : List (List Byte)) :
    ∀ {dir : Dir} {s : Dirs} {fuel : Nat}, s.openDirectories t dir.fd = true →
    Answers A d dir (s.dirIntArr dir.fd) rest → [] ∉ rest → rest.length < fuel →
    readNames A.bytes t fuel dir s = some rest := by
  induction rest with
  | nil =>
    intro dir s fuel hflag h hnil hfuel
    obtain ⟨dir', s', hread, -⟩ := readdir_answers hflag h
    cases fuel with
    | zero => omega
    | succ fuel => simp [readNames, hread]
  | cons n rest ih =>
    intro dir s fuel hflag h hnil hfuel
    obtain ⟨dir', s', hread, -, hflag', hans⟩ := readdir_answers hflag h
    have hne : n ≠ [] := (List.ne_of_not_mem_cons hnil).symm
    cases fuel with
    | zero => omega
    | succ fuel =>
      have hrest := ih hflag' hans (List.not_mem_of_not_mem_cons hnil)
        (by rw [List.length_cons] at hfuel; omega : rest.length < fuel)
      simp [readNames, hread, hne, hrest]

/-- The names that `ls` prints for a directory, empty ones apart, are those that
`readdir` answers, `.` apart. -/
theorem ls_agrees_readdir (A : Archive) (hA : IsTree A) (d : List Byte) (hd : IsDir A d) (s : Dirs)
    (hfree : (freeDesc s).isSome) (t : Slot) :
    ∃ dir s' printed names n, sysOpendir A.bytes s t (47 :: d) = some (some dir, s') ∧
      sysLs A.bytes (47 :: d) = some printed ∧
      (∀ fuel, n ≤ fuel → readNames A.bytes t fuel dir s' = some names) ∧
      printed.filter (· ≠ []) = names.filter (· ≠ [46]) := by
  obtain ⟨es, hl⟩ := children_lists hA hd
  obtain ⟨dir, s', hopen, hflag, hans⟩ := opendir_answers hA hd hfree t
  have hnil : [] ∉ Archive.children A d := fun hm => (hl.isName [] hm).pos rfl
  have hdot : (Archive.children A d).filter (· ≠ [46]) = Archive.children A d := by
    rw [List.filter_eq_self]
    intro n hn
    simpa using (hl.isName n hn).notDot
  have hlist : [] ∉ listing A d ∧ (listing A d).filter (· ≠ [46]) = Archive.children A d := by
    rw [listing]
    split_ifs
    · exact ⟨hnil, hdot⟩
    · refine ⟨by simpa using hnil, ?_⟩
      rw [List.filter_cons_of_neg (by simp), hdot]
  obtain ⟨printed, hls, hprinted⟩ : ∃ printed, sysLs A.bytes (47 :: d) = some printed ∧
      printed.filter (· ≠ []) = Archive.children A d := by
    rcases hd with rfl | ⟨hlast, hmem⟩
    · obtain ⟨printed, hroot, hp⟩ := handleRootLS_children hA
      exact ⟨printed, by rw [sysLs, if_pos ((strcmp_eq_zero _ _).mpr rfl), hroot], hp⟩
    · exact sysLs_children hA hlast hmem
  refine ⟨dir, s', printed, listing A d, (listing A d).length + 1, hopen, hls, ?_, ?_⟩
  · intro fuel hfuel
    exact readNames_answers (listing A d) hflag hans hlist.1 (by omega)
  · rw [hprinted, hlist.2]

/-- In `smallTree` both show `x` for the directory `b`. -/
theorem ls_agrees_readdir_smallTree : ∃ dir s' printed names n,
    sysOpendir smallTree.bytes Dirs.start 0 [47, 98, 47] = some (some dir, s') ∧
      sysLs smallTree.bytes [47, 98, 47] = some printed ∧
      (∀ fuel, n ≤ fuel → readNames smallTree.bytes 0 fuel dir s' = some names) ∧
      printed.filter (· ≠ []) = names.filter (· ≠ [46]) :=
  ls_agrees_readdir smallTree smallTree_isTree [98, 47] smallTree_isDir Dirs.start (by decide) 0

end Ls
