import DeepOS.Strings
import DeepOS.Transition

/-!
# The shell's environment

`setenv` looks for a string that begins with the name, and overwrites it in its buffer
or puts a new one into the first pointer that is `NULL`. There are 64 pointers, and
those behind the `NULL` keep what they held. `malloc` is taken to return a block.
-/
namespace Setenv

open CString Strings

/-- A string in a buffer of `cap` bytes. -/
structure Buf where
  cap : Nat
  str : List Byte
deriving DecidableEq

abbrev Envp := Nat → Option Buf

/-- `strcpy` into the buffer behind `envp[i]`, which the string has to fit into. -/
def store (envp : Envp) (i cap : Nat) (s : List Byte) : Option Envp :=
  if s.length < cap then some (Function.update envp i (some ⟨cap, s⟩)) else none

/-- The loop of `setenv`, with the turns that are left; behind the last one the store to
`envp[64]` leaves the array. -/
def setenvLoop (var val : List Byte) : Nat → Nat → Envp → Option Envp
  | 0, _, _ => none
  | n + 1, i, envp =>
    match envp i with
    | some b =>
      if startsWith b.str var then store envp i b.cap (strcat (strcat var [61]) val)
      else setenvLoop var val n (i + 1) envp
    | none => store envp i 128 (strcat (strcat var [61]) val)

def setenv (envp : Envp) (var val : List Byte) : Option Envp := setenvLoop var val 64 0 envp

def stringsFrom (envp : Envp) : Nat → Nat → List Buf
  | 0, _ => []
  | n + 1, i =>
    match envp i with
    | some b => b :: stringsFrom envp n (i + 1)
    | none => []

def strings (envp : Envp) : List Buf := stringsFrom envp 64 0

/-! ## Variables -/

def Buf.name (b : Buf) : List Byte := b.str.takeWhile (· ≠ 61)

def Buf.value (b : Buf) : List Byte := b.str.drop (b.name.length + 1)

/-- Strings of the form `NAME=VALUE` with distinct names. -/
structure Distinct (bs : List Buf) : Prop where
  vars : ∀ b ∈ bs, (61 : Byte) ∈ b.str
  names : (bs.map Buf.name).Nodup

def lookup (bs : List Buf) (name : List Byte) : Option (List Byte) :=
  (bs.find? fun b => decide ((61 : Byte) ∈ b.str ∧ b.name = name)).map Buf.value

/-- The call makes the environment a map with one value changed. -/
def MapUpdate (envp : Envp) (var val : List Byte) : Prop :=
  ∃ envp', setenv envp var val = some envp' ∧ Distinct (strings envp') ∧
    lookup (strings envp') = Function.update (lookup (strings envp)) var (some val)

/-- The first string that begins with the name is that variable, and its buffer is large
enough. If there is none, there is a pointer and room for a new one, and the pointer
behind it is `NULL`. -/
structure Fits (envp : Envp) (var val : List Byte) : Prop where
  own : ∀ b, (strings envp).find? (fun b => startsWith b.str var) = some b →
    b.name = var ∧ (var ++ 61 :: val).length < b.cap
  room : (∀ b ∈ strings envp, ¬ startsWith b.str var = true) → (strings envp).length < 64 ∧
    (var ++ 61 :: val).length < 128 ∧ ((strings envp).length = 63 ∨ envp ((strings envp).length + 1) = none)

/-! ## Lookups -/

variable {bs : List Buf} {b : Buf} {var val name : List Byte}

theorem strcat_eq (var val : List Byte) : strcat (strcat var [61]) val = var ++ 61 :: val := by
  rw [strcat, strcat, List.append_assoc]
  rfl

theorem name_new (cap : Nat) (h : (61 : Byte) ∉ var) : (Buf.mk cap (var ++ 61 :: val)).name = var := takeWhile_ne h val

theorem value_new (cap : Nat) (h : (61 : Byte) ∉ var) : (Buf.mk cap (var ++ 61 :: val)).value = val := by
  rw [Buf.value, name_new cap h, ← List.drop_drop, List.drop_left]
  rfl

/-- What a map of distinct variables says. -/
theorem mem_lookup (h : Distinct bs) (name v : List Byte) :
    lookup bs name = some v ↔ ∃ b ∈ bs, b.name = name ∧ b.value = v := by
  induction bs with
  | nil =>
    constructor
    · intro hv
      cases hv
    · rintro ⟨b, hb, -⟩
      exact absurd hb List.not_mem_nil
  | cons c bs ih =>
    obtain ⟨hvars, hnames⟩ := h
    rw [List.map_cons, List.nodup_cons] at hnames
    have hrest : Distinct bs := ⟨fun b hb => hvars b (List.mem_cons_of_mem c hb), hnames.2⟩
    by_cases hc : c.name = name
    · have hfirst : lookup (c :: bs) name = some c.value := by
        have hp : decide ((61 : Byte) ∈ c.str ∧ c.name = name) = true :=
          decide_eq_true ⟨hvars c (List.mem_cons_self ..), hc⟩
        simp only [lookup, List.find?_cons, hp, Option.map_some]
      rw [hfirst]
      constructor
      · intro hv
        exact ⟨c, List.mem_cons_self .., hc, Option.some.inj hv⟩
      · rintro ⟨b, hb, hname, rfl⟩
        rcases List.mem_cons.mp hb with rfl | hb
        · rfl
        · refine absurd ?_ hnames.1
          rw [hc, ← hname]
          exact List.mem_map_of_mem hb
    · have hnext : lookup (c :: bs) name = lookup bs name := by
        have hp : decide ((61 : Byte) ∈ c.str ∧ c.name = name) = false := decide_eq_false fun h => hc h.2
        simp only [lookup, List.find?_cons, hp]
      rw [hnext, ih hrest]
      constructor
      · rintro ⟨b, hb, hbv⟩
        exact ⟨b, List.mem_cons_of_mem c hb, hbv⟩
      · rintro ⟨b, hb, hname, hv⟩
        rcases List.mem_cons.mp hb with rfl | hb
        · exact absurd hname hc
        · exact ⟨b, hb, hname, hv⟩

/-- One of several distinct variables: the others are distinct, and have other names. -/
theorem distinct_middle {before after : List Buf} : Distinct (before ++ b :: after) ↔
    (61 : Byte) ∈ b.str ∧ b.name ∉ (before ++ after).map Buf.name ∧ Distinct (before ++ after) := by
  have hvars : (∀ x ∈ before ++ b :: after, (61 : Byte) ∈ x.str) ↔
      (61 : Byte) ∈ b.str ∧ ∀ x ∈ before ++ after, (61 : Byte) ∈ x.str := by
    simp only [List.mem_append, List.mem_cons]
    constructor
    · exact fun h => ⟨h b (Or.inr (Or.inl rfl)), fun x hx => h x (hx.imp_right Or.inr)⟩
    · rintro ⟨hb, hrest⟩ x (hx | rfl | hx)
      · exact hrest x (Or.inl hx)
      · exact hb
      · exact hrest x (Or.inr hx)
  have hnames : ((before ++ b :: after).map Buf.name).Nodup ↔
      b.name ∉ (before ++ after).map Buf.name ∧ ((before ++ after).map Buf.name).Nodup := by
    rw [List.map_append, List.map_cons, List.nodup_middle, List.nodup_cons, List.map_append]
  constructor
  · rintro ⟨hv, hn⟩
    obtain ⟨hb, hv⟩ := hvars.mp hv
    obtain ⟨hname, hn⟩ := hnames.mp hn
    exact ⟨hb, hname, hv, hn⟩
  · rintro ⟨hb, hname, hv, hn⟩
    exact ⟨hvars.mpr ⟨hb, hv⟩, hnames.mpr ⟨hname, hn⟩⟩

/-- What one variable adds to the map of the others. -/
theorem lookup_middle {before after : List Buf} (h : Distinct (before ++ b :: after)) :
    lookup (before ++ b :: after) = Function.update (lookup (before ++ after)) b.name (some b.value) := by
  obtain ⟨-, hname, hrest⟩ := distinct_middle.mp h
  funext name
  apply Option.ext
  intro v
  by_cases hb : name = b.name
  · subst hb
    rw [Function.update_self, mem_lookup h]
    constructor
    · rintro ⟨x, hx, hxname, rfl⟩
      simp only [List.mem_append, List.mem_cons] at hx
      by_cases hxb : x = b
      · rw [hxb]
      · refine absurd ?_ hname
        rw [← hxname]
        apply List.mem_map_of_mem
        rw [List.mem_append]
        exact hx.imp_right fun hx => hx.resolve_left hxb
    · intro hv
      exact ⟨b, List.mem_append_right _ (List.mem_cons_self ..), rfl, Option.some.inj hv⟩
  · rw [Function.update_of_ne hb, mem_lookup h, mem_lookup hrest]
    simp only [List.mem_append, List.mem_cons]
    constructor
    · rintro ⟨x, hx | rfl | hx, hxname, hxv⟩
      · exact ⟨x, Or.inl hx, hxname, hxv⟩
      · exact absurd hxname.symm hb
      · exact ⟨x, Or.inr hx, hxname, hxv⟩
    · rintro ⟨x, hx, hxname, hxv⟩
      exact ⟨x, hx.imp_right Or.inr, hxname, hxv⟩

/-! ## A string that is overwritten, and a new one -/

theorem mem_new (cap : Nat) : (61 : Byte) ∈ (Buf.mk cap (var ++ 61 :: val)).str :=
  List.mem_append_right _ (List.mem_cons_self ..)

/-- The variable itself is overwritten. -/
theorem overwrite_update {before after : List Buf} {cap : Nat} (h : Distinct (before ++ b :: after))
    (hname : b.name = var) (hvar : (61 : Byte) ∉ var) : Distinct (before ++ ⟨cap, var ++ 61 :: val⟩ :: after) ∧
      lookup (before ++ ⟨cap, var ++ 61 :: val⟩ :: after) =
        Function.update (lookup (before ++ b :: after)) var (some val) := by
  obtain ⟨-, hfresh, hrest⟩ := distinct_middle.mp h
  have hdistinct : Distinct (before ++ ⟨cap, var ++ 61 :: val⟩ :: after) := by
    refine distinct_middle.mpr ⟨mem_new cap, ?_, hrest⟩
    rw [name_new cap hvar, ← hname]
    exact hfresh
  refine ⟨hdistinct, ?_⟩
  rw [lookup_middle hdistinct, lookup_middle h, name_new cap hvar, value_new cap hvar, hname, Function.update_idem]

/-- Another variable that is overwritten has lost its value. -/
theorem name_of_overwrite {before after : List Buf} {cap : Nat} (h : Distinct (before ++ b :: after))
    (hvar : (61 : Byte) ∉ var) (hdistinct : Distinct (before ++ ⟨cap, var ++ 61 :: val⟩ :: after))
    (hlookup : lookup (before ++ ⟨cap, var ++ 61 :: val⟩ :: after) =
      Function.update (lookup (before ++ b :: after)) var (some val)) : b.name = var := by
  by_contra hname
  have hlost := congrFun hlookup b.name
  rw [lookup_middle h, lookup_middle hdistinct, name_new cap hvar, Function.update_of_ne hname,
    Function.update_of_ne hname, Function.update_self] at hlost
  obtain ⟨x, hx, hxname, -⟩ := (mem_lookup (distinct_middle.mp h).2.2 _ _).mp hlost
  refine absurd ?_ (distinct_middle.mp h).2.1
  rw [← hxname]
  exact List.mem_map_of_mem hx

/-- A variable that was not there is put behind the others. -/
theorem append_update {cap : Nat} (h : Distinct bs) (hfresh : var ∉ bs.map Buf.name) (hvar : (61 : Byte) ∉ var) :
    Distinct (bs ++ [⟨cap, var ++ 61 :: val⟩]) ∧
      lookup (bs ++ [⟨cap, var ++ 61 :: val⟩]) = Function.update (lookup bs) var (some val) := by
  have hdistinct : Distinct (bs ++ [⟨cap, var ++ 61 :: val⟩]) := by
    refine distinct_middle.mpr ⟨mem_new cap, ?_, ?_⟩
    · rw [List.append_nil, name_new cap hvar]
      exact hfresh
    · rw [List.append_nil]
      exact h
  refine ⟨hdistinct, ?_⟩
  rw [lookup_middle hdistinct, List.append_nil, name_new cap hvar, value_new cap hvar]

/-- A string that was left behind the new one would be one more variable. -/
theorem stale_eq_nil {cap : Nat} {stale : List Buf} (h : Distinct bs) (hvar : (61 : Byte) ∉ var)
    (hdistinct : Distinct (bs ++ ⟨cap, var ++ 61 :: val⟩ :: stale))
    (hlookup : lookup (bs ++ ⟨cap, var ++ 61 :: val⟩ :: stale) = Function.update (lookup bs) var (some val)) :
    stale = [] := by
  cases stale with
  | nil => rfl
  | cons st stale =>
    have hsplit : bs ++ ⟨cap, var ++ 61 :: val⟩ :: st :: stale =
        (bs ++ [⟨cap, var ++ 61 :: val⟩]) ++ st :: stale := by simp
    rw [hsplit] at hdistinct hlookup
    obtain ⟨-, hother, -⟩ := distinct_middle.mp hdistinct
    simp only [List.map_append, List.mem_append, List.map_cons, List.map_nil, List.mem_singleton,
      name_new cap hvar, not_or] at hother
    have hnew := congrFun hlookup st.name
    rw [lookup_middle hdistinct, Function.update_self, Function.update_of_ne hother.1.2] at hnew
    obtain ⟨x, hx, hxname, -⟩ := (mem_lookup h _ _).mp hnew.symm
    refine absurd ?_ hother.1.1
    rw [← hxname]
    exact List.mem_map_of_mem hx

/-! ## One call -/

/-- A pointer before the first one that is read does not matter. -/
theorem stringsFrom_update (envp : Envp) (x : Option Buf) {k : Nat} (n : Nat) : ∀ {i : Nat}, k < i →
    stringsFrom (Function.update envp k x) n i = stringsFrom envp n i := by
  induction n with
  | zero => exact fun _ => rfl
  | succ n ih =>
    intro i hi
    rw [stringsFrom, stringsFrom, Function.update_of_ne (by omega), ih (by omega)]

/-- A string that begins with the name was found: it is overwritten, if the buffer is
large enough. -/
def Overwrites (var val : List Byte) (n i : Nat) (envp : Envp) : Prop :=
  ∃ before b after, stringsFrom envp n i = before ++ b :: after ∧
    (∀ x ∈ before, ¬ startsWith x.str var = true) ∧ startsWith b.str var = true ∧
    (b.cap ≤ (var ++ 61 :: val).length ∧ setenvLoop var val n i envp = none ∨
      (var ++ 61 :: val).length < b.cap ∧ ∃ envp', setenvLoop var val n i envp = some envp' ∧
        stringsFrom envp' n i = before ++ ⟨b.cap, var ++ 61 :: val⟩ :: after)

/-- None was found: a new one is stored, if there is a pointer and room for it, and the
strings behind it become visible. -/
def Appends (var val : List Byte) (n i : Nat) (envp : Envp) : Prop :=
  (∀ x ∈ stringsFrom envp n i, ¬ startsWith x.str var = true) ∧
    ((n ≤ (stringsFrom envp n i).length ∨ 128 ≤ (var ++ 61 :: val).length) ∧ setenvLoop var val n i envp = none ∨
      (stringsFrom envp n i).length < n ∧ (var ++ 61 :: val).length < 128 ∧
        ∃ envp', setenvLoop var val n i envp = some envp' ∧
          stringsFrom envp' n i = stringsFrom envp n i ++ ⟨128, var ++ 61 :: val⟩ ::
            stringsFrom envp (n - (stringsFrom envp n i).length - 1) (i + (stringsFrom envp n i).length + 1))

/-- The pointers that the loop has passed stay. -/
theorem setenvLoop_frame {envp' : Envp} (n : Nat) : ∀ {i : Nat} {envp : Envp},
    setenvLoop var val n i envp = some envp' → ∀ k < i, envp' k = envp k := by
  induction n with
  | zero =>
    intro i envp h
    cases h
  | succ n ih =>
    intro i envp h k hk
    have hstore : ∀ cap s, store envp i cap s = some envp' → envp' k = envp k := by
      intro cap s hs
      rw [store] at hs
      split at hs
      · obtain rfl := Option.some.inj hs
        exact Function.update_of_ne hk.ne ..
      · cases hs
    rw [setenvLoop] at h
    split at h
    · split at h
      · exact hstore _ _ h
      · exact ih h k (by omega)
    · exact hstore _ _ h

theorem setenvLoop_cases (var val : List Byte) (envp : Envp) (n : Nat) :
    ∀ i, Overwrites var val n i envp ∨ Appends var val n i envp := by
  induction n with
  | zero => exact fun i => Or.inr ⟨fun x hx => absurd hx List.not_mem_nil, Or.inl ⟨Or.inl le_rfl, rfl⟩⟩
  | succ n ih =>
    intro i
    cases hb : envp i with
    | none =>
      right
      have hstrings : stringsFrom envp (n + 1) i = [] := by rw [stringsFrom, hb]
      rw [Appends, hstrings, setenvLoop, hb]
      dsimp only
      rw [strcat_eq, store]
      refine ⟨fun x hx => absurd hx List.not_mem_nil, ?_⟩
      by_cases hfit : (var ++ 61 :: val).length < 128
      · rw [if_pos hfit]
        refine Or.inr ⟨Nat.succ_pos n, hfit, _, rfl, ?_⟩
        rw [stringsFrom, Function.update_self]
        dsimp only
        rw [stringsFrom_update _ _ _ (Nat.lt_succ_self i)]
        rfl
      · rw [if_neg hfit]
        exact Or.inl ⟨Or.inr (not_lt.mp hfit), rfl⟩
    | some b =>
      have hstrings : stringsFrom envp (n + 1) i = b :: stringsFrom envp n (i + 1) := by rw [stringsFrom, hb]
      by_cases hstarts : startsWith b.str var = true
      · left
        have hloop : setenvLoop var val (n + 1) i envp = store envp i b.cap (var ++ 61 :: val) := by
          rw [setenvLoop, hb]
          dsimp only
          rw [if_pos hstarts, strcat_eq]
        refine ⟨[], b, stringsFrom envp n (i + 1), hstrings, fun x hx => absurd hx List.not_mem_nil, hstarts, ?_⟩
        rw [hloop, store]
        by_cases hfit : (var ++ 61 :: val).length < b.cap
        · rw [if_pos hfit]
          refine Or.inr ⟨hfit, _, rfl, ?_⟩
          rw [stringsFrom, Function.update_self]
          dsimp only
          rw [stringsFrom_update _ _ _ (Nat.lt_succ_self i)]
          rfl
        · rw [if_neg hfit]
          exact Or.inl ⟨not_lt.mp hfit, rfl⟩
      · have hloop : setenvLoop var val (n + 1) i envp = setenvLoop var val n (i + 1) envp := by
          rw [setenvLoop, hb]
          dsimp only
          rw [if_neg hstarts]
        have hnext : ∀ envp', setenvLoop var val n (i + 1) envp = some envp' →
            stringsFrom envp' (n + 1) i = b :: stringsFrom envp' n (i + 1) := by
          intro envp' hrun
          rw [stringsFrom, setenvLoop_frame n hrun i (Nat.lt_succ_self i), hb]
        rcases ih (i + 1) with ⟨before, c, after, hsplit, hbefore, hc, hresult⟩ | ⟨hnone, hresult⟩
        · left
          refine ⟨b :: before, c, after, by rw [hstrings, hsplit, List.cons_append], ?_, hc, ?_⟩
          · exact List.forall_mem_cons.mpr ⟨hstarts, hbefore⟩
          · rw [hloop]
            rcases hresult with hfull | ⟨hfit, envp', hrun, hstored⟩
            · exact Or.inl hfull
            · refine Or.inr ⟨hfit, envp', hrun, ?_⟩
              rw [hnext envp' hrun, hstored, List.cons_append]
        · right
          rw [Appends, hstrings, hloop, List.length_cons]
          refine ⟨List.forall_mem_cons.mpr ⟨hstarts, hnone⟩, ?_⟩
          rcases hresult with ⟨hfull, hrun⟩ | ⟨hlt, hfit, envp', hrun, hstored⟩
          · exact Or.inl ⟨hfull.imp_left Nat.succ_le_succ, hrun⟩
          · refine Or.inr ⟨Nat.succ_lt_succ hlt, hfit, envp', hrun, ?_⟩
            rw [hnext envp' hrun, hstored, List.cons_append, Nat.succ_sub_succ]
            congr 4
            omega

theorem find_overwrites {before after : List Buf} (hbefore : ∀ x ∈ before, ¬ startsWith x.str var = true)
    (hb : startsWith b.str var = true) :
    (before ++ b :: after).find? (fun b => startsWith b.str var) = some b := by
  rw [List.find?_append, List.find?_eq_none.mpr hbefore, List.find?_cons, hb]
  rfl

theorem stringsFrom_eq_nil {envp : Envp} {n i : Nat} : stringsFrom envp n i = [] ↔ n = 0 ∨ envp i = none := by
  cases n with
  | zero => exact ⟨fun _ => Or.inl rfl, fun _ => rfl⟩
  | succ n =>
    rw [stringsFrom]
    cases envp i with
    | none => exact ⟨fun _ => Or.inr rfl, fun _ => rfl⟩
    | some b =>
      constructor
      · intro h
        cases h
      · rintro (h | h)
        · cases h
        · cases h

/-- Where a string begins with the name, the call is a map update if this is the variable
and the new string fits into its buffer. -/
theorem mapUpdate_of_overwrites {envp : Envp} (h : Distinct (strings envp)) (hvar : (61 : Byte) ∉ var)
    (hloop : Overwrites var val 64 0 envp) : MapUpdate envp var val ↔ Fits envp var val := by
  obtain ⟨before, b, after, hsplit, hbefore, hb, hresult⟩ := hloop
  have hfind := @find_overwrites b var before after hbefore hb
  change strings envp = _ at hsplit
  rw [← hsplit] at hfind
  have hin : b ∈ strings envp := by
    rw [hsplit]
    exact List.mem_append_right _ (List.mem_cons_self ..)
  rw [hsplit] at h
  constructor
  · rintro ⟨envp', hrun, hdistinct, hlookup⟩
    rcases hresult with ⟨-, hnever⟩ | ⟨hfit, envp'', hrun', hstored⟩
    · rw [setenv, hnever] at hrun
      cases hrun
    obtain rfl := Option.some.inj (hrun.symm.trans hrun')
    refine ⟨fun b' hb' => ?_, fun hno => absurd hb (hno b hin)⟩
    obtain rfl := Option.some.inj (hfind.symm.trans hb')
    change strings envp' = _ at hstored
    rw [hstored] at hdistinct hlookup
    rw [hsplit] at hlookup
    exact ⟨name_of_overwrite h hvar hdistinct hlookup, hfit⟩
  · rintro ⟨hown, -⟩
    obtain ⟨hname, hfit⟩ := hown b hfind
    rcases hresult with ⟨hfull, -⟩ | ⟨-, envp', hrun, hstored⟩
    · omega
    change strings envp' = _ at hstored
    obtain ⟨hdistinct, hlookup⟩ : Distinct (before ++ ⟨b.cap, var ++ 61 :: val⟩ :: after) ∧ _ :=
      overwrite_update h hname hvar
    rw [← hsplit] at hlookup
    refine ⟨envp', hrun, ?_, ?_⟩
    · rw [hstored]
      exact hdistinct
    · rw [hstored]
      exact hlookup

/-- Where none does, the call is a map update if the new string is the last one. -/
theorem mapUpdate_of_appends {envp : Envp} (h : Distinct (strings envp)) (hvar : (61 : Byte) ∉ var)
    (hloop : Appends var val 64 0 envp) : MapUpdate envp var val ↔ Fits envp var val := by
  obtain ⟨hnone, hresult⟩ := hloop
  change ∀ x ∈ strings envp, _ at hnone
  have hfind : (strings envp).find? (fun b => startsWith b.str var) = none := List.find?_eq_none.mpr hnone
  have hfresh : var ∉ (strings envp).map Buf.name := by
    intro hvar'
    obtain ⟨x, hx, hxname⟩ := List.mem_map.mp hvar'
    apply hnone x hx
    rw [startsWith_iff, ← hxname]
    exact List.takeWhile_prefix _
  constructor
  · rintro ⟨envp', hrun, hdistinct, hlookup⟩
    rcases hresult with ⟨-, hnever⟩ | ⟨hlt, hfit, envp'', hrun', hstored⟩
    · rw [setenv, hnever] at hrun
      cases hrun
    obtain rfl := Option.some.inj (hrun.symm.trans hrun')
    change (strings envp).length < 64 at hlt
    change strings envp' = strings envp ++ ⟨128, var ++ 61 :: val⟩ ::
      stringsFrom envp (64 - (strings envp).length - 1) (0 + (strings envp).length + 1) at hstored
    refine ⟨fun b hb => (Option.some_ne_none b (hb.symm.trans hfind)).elim, fun _ => ⟨hlt, hfit, ?_⟩⟩
    rw [hstored] at hdistinct hlookup
    rcases stringsFrom_eq_nil.mp (stale_eq_nil h hvar hdistinct hlookup) with hfull | hnull
    · exact Or.inl (by omega)
    · rw [Nat.zero_add] at hnull
      exact Or.inr hnull
  · rintro ⟨-, hroom⟩
    obtain ⟨hlt, hfit, hlast⟩ := hroom hnone
    rcases hresult with ⟨hfull, -⟩ | ⟨-, -, envp', hrun, hstored⟩
    · change 64 ≤ (strings envp).length ∨ _ at hfull
      omega
    change strings envp' = strings envp ++ ⟨128, var ++ 61 :: val⟩ ::
      stringsFrom envp (64 - (strings envp).length - 1) (0 + (strings envp).length + 1) at hstored
    have hnil : stringsFrom envp (64 - (strings envp).length - 1) (0 + (strings envp).length + 1) = [] := by
      apply stringsFrom_eq_nil.mpr
      rw [Nat.zero_add]
      exact hlast.imp_left fun h => by omega
    rw [hnil] at hstored
    obtain ⟨hdistinct, hlookup⟩ : Distinct (strings envp ++ [⟨128, var ++ 61 :: val⟩]) ∧ _ :=
      append_update h hfresh hvar
    refine ⟨envp', hrun, ?_, ?_⟩
    · rw [hstored]
      exact hdistinct
    · rw [hstored]
      exact hlookup

/-- One call is a map update exactly when the string fits. -/
theorem setenv_iff {envp : Envp} (h : Distinct (strings envp)) (hvar : (61 : Byte) ∉ var) (val : List Byte) :
    MapUpdate envp var val ↔ Fits envp var val := by
  rcases setenvLoop_cases var val envp 64 0 with hloop | hloop
  · exact mapUpdate_of_overwrites h hvar hloop
  · exact mapUpdate_of_appends h hvar hloop

/-! ## All calls -/

def step (envp : Envp) (call : List Byte × List Byte) : Option Envp := setenv envp call.1 call.2

def lastValues (m : List Byte → Option (List Byte)) (calls : List (List Byte × List Byte)) :
    List Byte → Option (List Byte) :=
  calls.foldl (fun m call => Function.update m call.1 (some call.2)) m

/-- After each of the calls the environment is the map of last values. -/
def IsMap (envp : Envp) (calls : List (List Byte × List Byte)) : Prop :=
  ∀ done, done <+: calls → ∃ envp', Transition.run step envp done = some envp' ∧ Distinct (strings envp') ∧
    lookup (strings envp') = lastValues (lookup (strings envp)) done

/-- For every environment of distinct variables and all calls with names without `=`:
the environment stays the map of last values exactly when each string fits when it is
set. -/
theorem setenv_map_iff (calls : List (List Byte × List Byte)) (hnames : ∀ call ∈ calls, (61 : Byte) ∉ call.1) :
    ∀ envp : Envp, Distinct (strings envp) →
      (IsMap envp calls ↔ Transition.Along step (fun envp call => Fits envp call.1 call.2) envp calls) := by
  induction calls with
  | nil =>
    intro envp h
    refine ⟨fun _ => trivial, fun _ done hdone => ?_⟩
    rw [List.prefix_nil.mp hdone]
    exact ⟨envp, rfl, h, rfl⟩
  | cons call calls ih =>
    intro envp h
    have hone := setenv_iff h (hnames call (List.mem_cons_self ..)) call.2
    have hrest := ih fun c hc => hnames c (List.mem_cons_of_mem call hc)
    rw [Transition.Along, ← hone]
    constructor
    · intro hmap
      obtain ⟨envp', hrun, hdistinct, hlookup⟩ := hmap [call] (by simp)
      obtain ⟨_, hcall, hend⟩ := (Transition.run_cons_eq_some step).mp hrun
      obtain rfl := Option.some.inj hend
      refine ⟨⟨_, hcall, hdistinct, hlookup⟩, fun t ht => ?_⟩
      obtain rfl := Option.some.inj (hcall.symm.trans ht)
      refine (hrest _ hdistinct).mp fun done hdone => ?_
      obtain ⟨envp'', hrun', hdistinct', hlookup'⟩ := hmap (call :: done) (List.cons_prefix_cons.mpr ⟨rfl, hdone⟩)
      obtain ⟨_, hcall', hend'⟩ := (Transition.run_cons_eq_some step).mp hrun'
      obtain rfl := Option.some.inj (hcall.symm.trans hcall')
      refine ⟨envp'', hend', hdistinct', ?_⟩
      rw [hlookup', hlookup]
      rfl
    · rintro ⟨⟨envp', hcall, hdistinct, hlookup⟩, halong⟩ done hdone
      rcases List.prefix_cons_iff.mp hdone with rfl | ⟨done, rfl, hbegin⟩
      · exact ⟨envp, rfl, h, rfl⟩
      · obtain ⟨envp'', hrun, hdistinct', hlookup'⟩ := (hrest envp' hdistinct).mpr (halong envp' hcall) done hbegin
        refine ⟨envp'', (Transition.run_cons_eq_some step).mpr ⟨envp', hcall, hrun⟩, hdistinct', ?_⟩
        rw [hlookup', hlookup]
        rfl

def pathBin : List Byte := [80, 65, 84, 72, 61, 47, 98, 105, 110]

/-- What `dsh` makes of the pointers it gets, where the first one has a buffer of `cap`
bytes. -/
def start (cap : Nat) (envp : Envp) : Envp := Function.update (Function.update envp 0 (some ⟨cap, pathBin⟩)) 1 none

/-- The shell starts with the variable `PATH` alone. -/
theorem start_distinct (cap : Nat) (envp : Envp) : Distinct (strings (start cap envp)) ∧
    lookup (strings (start cap envp)) = Function.update (fun _ => none) [80, 65, 84, 72] (some [47, 98, 105, 110]) := by
  have hstrings : strings (start cap envp) = [] ++ [⟨cap, pathBin⟩] := rfl
  have hdistinct : Distinct ([] ++ [⟨cap, pathBin⟩]) :=
    distinct_middle.mpr ⟨(by decide : (61 : Byte) ∈ pathBin), List.not_mem_nil, fun _ h => absurd h List.not_mem_nil, List.nodup_nil⟩
  rw [hstrings]
  refine ⟨hdistinct, ?_⟩
  rw [lookup_middle hdistinct]
  rfl

/-- `setenv("A", "b")` right after the start. -/
theorem start_letter : IsMap (start 10 fun _ => none) [([65], [98])] := by
  refine (setenv_map_iff [([65], [98])] (by decide) (start 10 fun _ => none) (start_distinct 10 _).1).mpr
    ⟨⟨fun b hb => ?_, fun _ => ?_⟩, fun _ _ => trivial⟩
  · have hnone : (strings (start 10 fun _ => none)).find? (fun b => startsWith b.str [65]) = none := by decide
    rw [hnone] at hb
    cases hb
  · exact ⟨by decide, by decide, Or.inr rfl⟩

/-- `setenv("P", "x")` overwrites `PATH=/bin`. -/
theorem name_begins_path : (∃ envp', setenv (start 10 fun _ => none) [80] [120] = some envp' ∧
      lookup (strings envp') [80, 65, 84, 72] = none) ∧
    ¬ ∀ cap envp calls, (∀ call ∈ calls, (61 : Byte) ∉ call.1 ∧ call.1.length + call.2.length ≤ 127) →
      IsMap (start cap envp) calls := by
  have hrun : (setenv (start 10 fun _ => none) [80] [120]).map (fun envp' => lookup (strings envp') [80, 65, 84, 72]) =
      some none := by decide
  obtain ⟨envp', hset, hlost⟩ := Option.map_eq_some_iff.mp hrun
  refine ⟨⟨envp', hset, hlost⟩, fun h => ?_⟩
  obtain ⟨_, hcall, -, hlookup⟩ := h 10 (fun _ => none) [([80], [120])] (by decide) [([80], [120])] List.prefix_rfl
  obtain ⟨_, hstep, hend⟩ := (Transition.run_cons_eq_some step).mp hcall
  obtain rfl := Option.some.inj hend
  obtain rfl := Option.some.inj (hset.symm.trans hstep)
  rw [(start_distinct 10 _).2] at hlookup
  have hpath := congrFun hlookup [80, 65, 84, 72]
  rw [hlost] at hpath
  exact absurd hpath (by decide)

end Setenv
