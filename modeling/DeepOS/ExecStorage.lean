import DeepOS.CommandLine
import DeepOS.Setenv

/-!
# The argument storage of a task

`kexecvpe` copies what the shell passes into arrays of fixed size in the `task_t`. The
shell takes 64 words and 64 variables; the task has room for 31 of each, and the path
list for 63 directories. A store behind an array, and a read through a null pointer,
have no result. `kmalloc` is taken to return a block.
-/
namespace ExecStorage

open CString Strings PathSearch Tokens CommandLine

/-- `argv`, `envp`, `temp_buffer` and `program_name` of a `task_t`. -/
structure ExecArgs where
  argv : Nat → Option (List Byte)
  envp : Nat → Option (List Byte)
  tempBuffer : List Byte
  programName : List Byte

/-- The loop that copies strings up to a `NULL`, which is stored too, into an array with
`room` places from `i` on. -/
def copyPointers (src : Nat → Option (List Byte)) : Nat → Nat → (Nat → Option (List Byte)) →
    Option (Nat → Option (List Byte))
  | 0, _, _ => none
  | room + 1, i, dst =>
    match src i with
    | some s => copyPointers src room (i + 1) (Function.update dst i (some s))
    | none => some (Function.update dst i none)

def copyInto (size : Nat) (s : List Byte) : Option (List Byte) := if s.length < size then some s else none

theorem copyInto_of_lt {size : Nat} {s : List Byte} (h : s.length < size) : copyInto size s = some s := if_pos h

def pointed (src : Nat → Option (List Byte)) : Nat → Nat → List (List Byte)
  | 0, _ => []
  | n + 1, i =>
    match src i with
    | some s => s :: pointed src n (i + 1)
    | none => []

def searchDirs (found : List Byte → Bool) (filename1 : List Byte) : List (List Byte) → Bool → Bool
  | [], tar => tar
  | p :: path, _ => searchDirs found filename1 path (found (strcat p filename1))

/-- The search for the program, with `found` for what `get_elf_file` says about a name. -/
def search (found : List Byte → Bool) (filename : List Byte) (envp : List (List Byte)) : Option Bool :=
  if found filename then some true else (getPath envp).map fun r => searchDirs found filename r.1 false

/-- `kexecvpe` up to `program_name`: whether a program is run, and the task's arrays. -/
def kexecvpe (found : List Byte → Bool) (t : ExecArgs) (filename : List Byte) (argv envp : Nat → Option (List Byte)) :
    Option (Bool × ExecArgs) := do
  let targv ← copyPointers argv 32 0 t.argv
  let tenvp ← copyPointers envp 32 0 t.envp
  let tempBuffer ← copyInto 64 filename
  let tar ← search found filename (pointed envp 32 0)
  if tar then
    let programName ← copyInto 64 tempBuffer
    some (true, ⟨targv, tenvp, tempBuffer, programName⟩)
  else some (false, ⟨targv, tenvp, tempBuffer, t.programName⟩)

/-! ## Copies -/

def Copied (src dst : Nat → Option (List Byte)) : Prop :=
  ∃ n < 32, (∀ i < n, src i ≠ none ∧ dst i = src i) ∧ src n = none ∧ dst n = none

/-- All stores go into the arrays, the path list stays in its block, and the vectors are
copied. -/
def InBounds (found : List Byte → Bool) (t : ExecArgs) (filename : List Byte) (argv envp : Nat → Option (List Byte)) :
    Prop :=
  ∃ r t', kexecvpe found t filename argv envp = some (r, t') ∧ Copied argv t'.argv ∧ Copied envp t'.envp

variable {src : Nat → Option (List Byte)}

/-- Where the `NULL` is. -/
theorem pointed_spec (src : Nat → Option (List Byte)) (room : Nat) : ∀ i, (pointed src room i).length ≤ room ∧
    (∀ j, i ≤ j → j < i + (pointed src room i).length → src j ≠ none) ∧
    ((pointed src room i).length < room → src (i + (pointed src room i).length) = none) := by
  induction room with
  | zero => exact fun i => ⟨le_rfl, fun j hj hlt => absurd hlt (not_lt.mpr hj), fun h => absurd h (lt_irrefl 0)⟩
  | succ room ih =>
    intro i
    rw [pointed]
    cases hs : src i with
    | none => exact ⟨Nat.zero_le _, fun j hj hlt => absurd hlt (not_lt.mpr hj), fun _ => hs⟩
    | some s =>
      obtain ⟨hle, hbefore, hend⟩ := ih (i + 1)
      dsimp only
      rw [List.length_cons]
      refine ⟨Nat.succ_le_succ hle, fun j hj hlt => ?_, fun h => ?_⟩
      · by_cases hij : j = i
        · rw [hij, hs]
          exact Option.some_ne_none s
        · exact hbefore j (by omega) (by omega)
      · rw [← hend (Nat.lt_of_succ_lt_succ h)]
        congr 1
        omega

theorem copyPointers_eq (src : Nat → Option (List Byte)) (room : Nat) : ∀ i dst, copyPointers src room i dst =
    if (pointed src room i).length < room then
      some fun j => if i ≤ j ∧ j ≤ i + (pointed src room i).length then src j else dst j
    else none := by
  induction room with
  | zero => exact fun i dst => rfl
  | succ room ih =>
    intro i dst
    rw [copyPointers, pointed]
    cases hs : src i with
    | none =>
      dsimp only
      rw [List.length_nil, if_pos (Nat.succ_pos room)]
      apply congrArg some
      funext j
      by_cases hj : j = i
      · rw [hj, Function.update_self, if_pos ⟨le_rfl, le_rfl⟩, hs]
      · rw [Function.update_of_ne hj, if_neg (by omega)]
    | some s =>
      dsimp only
      rw [ih, List.length_cons]
      apply if_congr Nat.succ_lt_succ_iff.symm ?_ rfl
      apply congrArg some
      funext j
      by_cases hj : j = i
      · rw [hj, Function.update_self, if_neg (by omega), if_pos (by omega), hs]
      · rw [Function.update_of_ne hj]
        exact if_congr (by omega) rfl rfl

/-- With a `NULL` among the first 32 pointers, the strings are copied. -/
theorem copyPointers_copied (h : (pointed src 32 0).length < 32) (dst : Nat → Option (List Byte)) :
    ∃ dst', copyPointers src 32 0 dst = some dst' ∧ Copied src dst' := by
  obtain ⟨-, hbefore, hend⟩ := pointed_spec src 32 0
  rw [Nat.zero_add] at hbefore hend
  refine ⟨_, by rw [copyPointers_eq, if_pos h], (pointed src 32 0).length, h, fun i hi => ⟨?_, ?_⟩, hend h, ?_⟩
  · exact hbefore i (Nat.zero_le i) hi
  · exact if_pos ⟨Nat.zero_le i, by omega⟩
  · exact (if_pos ⟨Nat.zero_le _, by omega⟩).trans (hend h)

/-! ## The path list -/

/-- Each `PATH` value has a first directory, which a carriage return at its start
prevents, and there are no more than 63. -/
structure PathFits (envp : List (List Byte)) : Prop where
  first : ∀ v ∈ pathValues envp, v.getD 0 0 ≠ 13 ∧ components v ≠ []
  few : ((pathValues envp).map fun v => (components v).length).sum ≤ 63

theorem fillPath_length (n : Nat) : ∀ {k : Tok} {front rest : List Byte}, At k front rest → IsStr rest →
    (fillPath n k).1.length = min n (components rest).length := by
  induction n with
  | zero => exact fun _ _ => (Nat.zero_min _).symm
  | succ n ih =>
    intro k front rest h hrest
    obtain ⟨front', rest', hat, hstr, htok, htail, -, -⟩ := strtok_next h hrest
    rw [fillPath]
    cases hs : strtok none [59] k with
    | mk tok k' =>
      rw [hs] at hat htok
      cases hc : components rest with
      | nil =>
        obtain rfl : tok = none := htok.trans (by rw [hc]; rfl)
        rfl
      | cons d ds =>
        obtain rfl : tok = some d := htok.trans (by rw [hc]; rfl)
        have hmore := ih hat hstr
        rw [htail, hc, List.tail_cons] at hmore
        dsimp only
        rw [List.length_cons, List.length_cons, hmore, Nat.succ_min_succ]

/-- Without a first directory there is no path list. -/
theorem getPathLoop_none (envp : List (List Byte)) (hstr : ∀ e ∈ envp, IsStr e)
    (h : ∃ v ∈ pathValues envp, ¬ (v.getD 0 0 ≠ 13 ∧ components v ≠ [])) (ct : Nat) : getPathLoop envp ct = none := by
  induction envp generalizing ct with
  | nil =>
    obtain ⟨v, hv, -⟩ := h
    exact absurd hv List.not_mem_nil
  | cons e envp ih =>
    have hrest : ∀ e ∈ envp, IsStr e := fun x hx => hstr x (List.mem_cons_of_mem e hx)
    rw [pathValues_cons] at h
    rw [getPathLoop]
    by_cases he : startsWith e pathVar
    · rw [if_pos he] at h ⊢
      have hv := isStr_drop (hstr e (List.mem_cons_self ..)) 5
      by_cases hfirst : (e.drop 5).getD 0 0 ≠ 13 ∧ components (e.drop 5) ≠ []
      · obtain ⟨v, hmem, hbad⟩ := h
        have hlater : v ∈ pathValues envp := by
          refine (List.mem_cons.mp hmem).resolve_left ?_
          rintro rfl
          exact hbad hfirst
        split
        · rfl
        · simp only [ih hrest ⟨v, hlater, hbad⟩, Option.map_none]
      · have hnull : (strtok (some (e.drop 5)) [59] ⟨[], 0⟩).1 = none := by
          by_cases hcr : (e.drop 5).getD 0 0 = 13
          · rw [strtok, if_pos hcr]
          · obtain ⟨-, -, -, -, htok, -⟩ := strtok_first hcr hv ⟨[], 0⟩
            have hempty : components (e.drop 5) = [] := by
              by_contra hne
              exact hfirst ⟨hcr, hne⟩
            rw [htok, hempty]
            rfl
        cases hs : strtok (some (e.drop 5)) [59] ⟨[], 0⟩ with
        | mk tok k =>
          rw [hs] at hnull
          dsimp only at hnull
          rw [hnull]
    · rw [if_neg he] at h ⊢
      rw [ih hrest h]
      rfl

/-- The list with its counter stays below 64 exactly when all directories do. -/
theorem getPathLoop_some (envp : List (List Byte)) (hstr : ∀ e ∈ envp, IsStr e)
    (h : ∀ v ∈ pathValues envp, v.getD 0 0 ≠ 13 ∧ components v ≠ []) (ct : Nat) : ∃ r, getPathLoop envp ct = some r ∧
      (ct + r.1.length ≤ 63 ↔ ct + ((pathValues envp).map fun v => (components v).length).sum ≤ 63) := by
  induction envp generalizing ct with
  | nil => exact ⟨([], []), rfl, Iff.rfl⟩
  | cons e envp ih =>
    have hrest : ∀ e ∈ envp, IsStr e := fun x hx => hstr x (List.mem_cons_of_mem e hx)
    rw [pathValues_cons] at h ⊢
    rw [getPathLoop]
    by_cases he : startsWith e pathVar
    · rw [if_pos he] at h ⊢
      rw [if_pos he]
      have hv := isStr_drop (hstr e (List.mem_cons_self ..)) 5
      obtain ⟨hcr, hne⟩ := h _ (List.mem_cons_self ..)
      obtain ⟨front, rest, hat, hrestStr, htok, htail, -, -⟩ := strtok_first hcr hv ⟨[], 0⟩
      obtain ⟨d, ds, hc⟩ := List.exists_cons_of_ne_nil hne
      cases hs : strtok (some (e.drop 5)) [59] ⟨[], 0⟩ with
      | mk tok k =>
        rw [hs] at hat htok
        obtain rfl : tok = some d := htok.trans (by rw [hc]; rfl)
        have hmore := fillPath_length (63 - ct) hat hrestStr
        rw [htail, hc, List.tail_cons] at hmore
        obtain ⟨r, hr, hiff⟩ := ih hrest (fun v hv => h v (List.mem_cons_of_mem _ hv))
          (ct + 1 + (fillPath (63 - ct) k).1.length)
        dsimp only
        rw [hr]
        refine ⟨_, rfl, ?_⟩
        dsimp only
        rw [List.length_cons, List.length_append, List.map_cons, List.sum_cons, hc, List.length_cons]
        rw [hmore] at hiff ⊢
        omega
    · rw [if_neg he] at h ⊢
      rw [if_neg he]
      obtain ⟨r, hr, hiff⟩ := ih hrest h ct
      rw [hr]
      exact ⟨_, rfl, hiff⟩

theorem getPath_isSome (envp : List (List Byte)) (hstr : ∀ e ∈ envp, IsStr e) :
    (getPath envp).isSome = true ↔ PathFits envp := by
  rw [getPath, Option.isSome_map, pathTokens]
  by_cases hfirst : ∀ v ∈ pathValues envp, v.getD 0 0 ≠ 13 ∧ components v ≠ []
  · obtain ⟨r, hr, hiff⟩ := getPathLoop_some envp hstr hfirst 0
    rw [Nat.zero_add, Nat.zero_add] at hiff
    rw [hr]
    by_cases hlt : r.1.length < 64
    · rw [Option.filter_some, if_pos (decide_eq_true hlt)]
      exact ⟨fun _ => ⟨hfirst, hiff.mp (Nat.le_of_lt_succ hlt)⟩, fun _ => rfl⟩
    · rw [Option.filter_some, if_neg (by rw [decide_eq_true_eq]; exact hlt)]
      constructor
      · intro h
        cases h
      · intro h
        exact absurd (Nat.lt_succ_of_le (hiff.mpr h.few)) hlt
  · have hbad : ∃ v ∈ pathValues envp, ¬ (v.getD 0 0 ≠ 13 ∧ components v ≠ []) := by
      simpa only [not_forall, exists_prop] using hfirst
    rw [getPathLoop_none envp hstr hbad 0]
    constructor
    · intro h
      cases h
    · exact fun h => absurd h.first hfirst

/-! ## What the shell passes -/

def passedArgv (c : Command) : Nat → Option (List Byte) := fun i => (c.argv i).map (strAt c.command)

def passedEnvp (envp : Setenv.Envp) : Nat → Option (List Byte) := fun i => (envp i).map Setenv.Buf.str

def environ (envp : Setenv.Envp) : List (List Byte) := (Setenv.strings envp).map Setenv.Buf.str

/-- At most 31 words, of which the first, the name of the program, has at most 63
characters, and at most 31 variables. When the program is not found under its name, the
path list is within its bounds. -/
structure Storable (found : List Byte → Bool) (ws vars : List (List Byte)) : Prop where
  argv : ws.length ≤ 31
  envp : vars.length ≤ 31
  name : (ws.headD []).length ≤ 63
  path : found (ws.headD []) = true ∨ PathFits vars

theorem stringsFrom_take (envp : Setenv.Envp) (n m : Nat) : ∀ i,
    pointed (passedEnvp envp) n i = ((Setenv.stringsFrom envp (n + m) i).map Setenv.Buf.str).take n := by
  induction n with
  | zero => exact fun i => rfl
  | succ n ih =>
    intro i
    rw [pointed, Nat.succ_add, Setenv.stringsFrom, passedEnvp]
    cases envp i with
    | none => rfl
    | some b =>
      simp only [Option.map_some, List.map_cons, List.take_succ_cons]
      rw [← ih]

/-- The variables that are copied. -/
theorem pointed_environ (envp : Setenv.Envp) : pointed (passedEnvp envp) 32 0 = (environ envp).take 32 :=
  stringsFrom_take envp 32 32 0

/-- The bounds of `kexecvpe`, for all inputs. -/
theorem inBounds_iff {found : List Byte → Bool} {t : ExecArgs} {filename : List Byte}
    {argv envp : Nat → Option (List Byte)} (hstr : ∀ e ∈ pointed envp 32 0, IsStr e) :
    InBounds found t filename argv envp ↔ (pointed argv 32 0).length < 32 ∧ (pointed envp 32 0).length < 32 ∧
      filename.length < 64 ∧ (found filename = true ∨ PathFits (pointed envp 32 0)) := by
  have hpath := getPath_isSome _ hstr
  constructor
  · rintro ⟨r, t', hrun, -, -⟩
    simp only [kexecvpe, Option.bind_eq_bind, Option.bind_eq_some_iff] at hrun
    obtain ⟨targv, hargv, tenvp, henvp, _, htemp, tar, htar, -⟩ := hrun
    rw [copyPointers_eq] at hargv henvp
    refine ⟨?_, ?_, ?_, ?_⟩
    · by_contra h
      rw [if_neg h] at hargv
      cases hargv
    · by_contra h
      rw [if_neg h] at henvp
      cases henvp
    · by_contra h
      rw [copyInto, if_neg h] at htemp
      cases htemp
    · by_cases hfound : found filename = true
      · exact Or.inl hfound
      · rw [search, if_neg hfound] at htar
        obtain ⟨r', hr', -⟩ := Option.map_eq_some_iff.mp htar
        exact Or.inr (hpath.mp (by rw [hr']; rfl))
  · rintro ⟨hargv, henvp, hname, hsearch⟩
    obtain ⟨targv, hcopyArgv, hcopiedArgv⟩ := copyPointers_copied hargv t.argv
    obtain ⟨tenvp, hcopyEnvp, hcopiedEnvp⟩ := copyPointers_copied henvp t.envp
    have htar : ∃ tar, search found filename (pointed envp 32 0) = some tar := by
      rw [search]
      rcases hsearch with hfound | hfits
      · exact ⟨true, if_pos hfound⟩
      · obtain ⟨r, hr⟩ := Option.isSome_iff_exists.mp (hpath.mpr hfits)
        rw [hr]
        split
        · exact ⟨true, rfl⟩
        · exact ⟨_, rfl⟩
    obtain ⟨tar, htar⟩ := htar
    have htemp : copyInto 64 filename = some filename := copyInto_of_lt hname
    cases tar with
    | true =>
      refine ⟨true, ⟨targv, tenvp, filename, filename⟩, ?_, hcopiedArgv, hcopiedEnvp⟩
      simp only [kexecvpe, hcopyArgv, hcopyEnvp, htemp, htar, Option.bind_eq_bind, Option.bind_some, if_true]
    | false =>
      refine ⟨false, ⟨targv, tenvp, filename, t.programName⟩, ?_, hcopiedArgv, hcopiedEnvp⟩
      simp only [kexecvpe, hcopyArgv, hcopyEnvp, htemp, htar, Option.bind_eq_bind, Option.bind_some,
        Bool.false_eq_true, if_false]

def lineWords (line : List Byte) : List (List Byte) := words (withoutAmp (trimmed line))

/-- What the shell passes for a line: the first word as the name, and as many strings as
there are words, when they are fewer than 32. -/
theorem passedArgv_spec {line : List Byte} {argv : Nat → Option Nat} {k : Tok} {filename : List Byte}
    (hline : IsStr line) (hname : passedArgv (dsh line argv k) 0 = some filename) :
    (lineWords line).headD [] = filename ∧
      ((pointed (passedArgv (dsh line argv k)) 32 0).length < 32 ↔ (lineWords line).length ≤ 31) := by
  have hs := trimmed_isStr hline
  rw [dsh_eq] at hname ⊢
  have h13 : (withoutAmp (trimmed line)).getD 0 0 ≠ 13 := by
    intro h13
    have hnull : libcStrtok (some (withoutAmp (trimmed line))) blanks k = (none, ⟨withoutAmp (trimmed line), 0⟩) :=
      if_pos h13
    simp only [passedArgv, hnull, argLoop_zero, Function.update_self, Option.map_none] at hname
    cases hname
  obtain ⟨argv', k', hloop, hargv, hread⟩ := argLoop_all hs h13 argv k
  simp only [hloop] at hname ⊢
  have hlength : (starts blanks (withoutAmp (trimmed line))).length = (lineWords line).length := by
    rw [lineWords, ← starts_words, List.length_map]
  have hpassed : ∀ i ≤ lastArgc (starts blanks (withoutAmp (trimmed line))).length, i ≤ 64 →
      passedArgv ⟨decide ((trimmed line).getLast? = some 38), lastArgc (starts blanks (withoutAmp (trimmed line))).length,
        argv', k'.s⟩ i = (starts blanks (withoutAmp (trimmed line)))[i]?.map (strAt k'.s) := by
    intro i hi hle
    dsimp only [passedArgv]
    rw [hargv, if_pos ⟨hi, hle⟩]
  generalize hc : (⟨decide ((trimmed line).getLast? = some 38),
    lastArgc (starts blanks (withoutAmp (trimmed line))).length, argv', k'.s⟩ : Command) = c at hname hpassed ⊢
  rw [hpassed 0 (Nat.zero_le _) (Nat.zero_le _)] at hname
  obtain ⟨p, hp, hpname⟩ := Option.map_eq_some_iff.mp hname
  have hpos : 0 < (starts blanks (withoutAmp (trimmed line))).length := (List.getElem?_eq_some_iff.mp hp).1
  refine ⟨?_, ?_⟩
  · have hfirst : (lineWords line)[0]? = some (run blanks (withoutAmp (trimmed line)) p) := by
      rw [lineWords, ← starts_words, List.getElem?_map, hp]
      rfl
    rw [List.headD_eq_head?_getD, List.head?_eq_getElem?, hfirst, Option.getD_some, ← hpname,
      hread 0 p (Nat.zero_le _) (Nat.zero_le _) hp]
  · obtain ⟨-, hbefore, hend⟩ := pointed_spec (passedArgv c) 32 0
    rw [Nat.zero_add] at hbefore hend
    rw [← hlength]
    have hlast : lastArgc (starts blanks (withoutAmp (trimmed line))).length =
        if (starts blanks (withoutAmp (trimmed line))).length ≤ 64 then
          (starts blanks (withoutAmp (trimmed line))).length else 65 := by
      rw [lastArgc, max_eq_left hpos]
    constructor
    · intro hlt
      by_contra hmany
      have hnull := hend hlt
      rw [hpassed _ (by rw [hlast]; split <;> omega) (by omega), Option.map_eq_none_iff, List.getElem?_eq_none_iff] at hnull
      omega
    · intro hfew
      by_contra hall
      refine hbefore (starts blanks (withoutAmp (trimmed line))).length (Nat.zero_le _) (by omega) ?_
      rw [hpassed _ (by rw [hlast, if_pos (by omega)]) (by omega), List.getElem?_eq_none le_rfl]
      rfl

/-- For every line whose command has a first word, and all environments: `kexecvpe` stays
within its arrays and copies what it is given exactly when that is storable. -/
theorem exec_storage_iff (found : List Byte → Bool) (t : ExecArgs) (line : List Byte) (argv : Nat → Option Nat) (k : Tok)
    (envp : Setenv.Envp) (filename : List Byte) (hline : IsStr line) (henvp : ∀ e ∈ environ envp, IsStr e)
    (hname : passedArgv (dsh line argv k) 0 = some filename) :
    InBounds found t filename (passedArgv (dsh line argv k)) (passedEnvp envp) ↔
      Storable found (lineWords line) (environ envp) := by
  obtain ⟨hfirst, hargv⟩ := passedArgv_spec hline hname
  have hpointed := pointed_environ envp
  have hstr : ∀ e ∈ pointed (passedEnvp envp) 32 0, IsStr e := by
    intro e he
    rw [hpointed] at he
    exact henvp e (List.mem_of_mem_take he)
  have hlength : (pointed (passedEnvp envp) 32 0).length < 32 ↔ (environ envp).length ≤ 31 := by
    rw [hpointed, List.length_take]
    omega
  have hsame : (environ envp).length ≤ 31 → pointed (passedEnvp envp) 32 0 = environ envp := by
    intro hle
    rw [hpointed, List.take_of_length_le (by omega)]
  rw [inBounds_iff hstr, hargv, hlength]
  constructor
  · rintro ⟨h1, h2, h3, h4⟩
    rw [hsame h2] at h4
    exact ⟨h1, h2, by rw [hfirst]; omega, by rw [hfirst]; exact h4⟩
  · rintro ⟨h1, h2, h3, h4⟩
    rw [hfirst] at h3 h4
    rw [hsame h2]
    exact ⟨h1, h2, by omega, h4⟩

/-- The line `ls` right after the start, where the program is found. -/
theorem ls_storable : InBounds (fun _ => true) ⟨fun _ => none, fun _ => none, [], []⟩ [108, 115]
    (passedArgv (dsh [108, 115] (fun _ => none) ⟨[], 0⟩)) (passedEnvp (Setenv.start 10 fun _ => none)) :=
  (exec_storage_iff (fun _ => true) ⟨fun _ => none, fun _ => none, [], []⟩ [108, 115] (fun _ => none) ⟨[], 0⟩
    (Setenv.start 10 fun _ => none) [108, 115] (by decide) (by decide) (by decide)).mpr
    ⟨by decide, by decide, by decide, Or.inl rfl⟩

def manyWords : List Byte := (List.replicate 31 [97, 32]).flatten ++ [97]

/-- The `NULL` behind 32 words is stored to `argv[32]`. -/
theorem many_words_leave_argv : ∃ filename, passedArgv (dsh manyWords (fun _ => none) ⟨[], 0⟩) 0 = some filename ∧
    manyWords.length = 63 ∧ ∀ found t, ¬ InBounds found t filename (passedArgv (dsh manyWords (fun _ => none) ⟨[], 0⟩))
      (passedEnvp (Setenv.start 10 fun _ => none)) := by
  have hline : IsStr manyWords := by decide
  have hwords : (lineWords manyWords).length = 32 := by decide +kernel
  have hname : passedArgv (dsh manyWords (fun _ => none) ⟨[], 0⟩) 0 = some [97] := by decide +kernel
  refine ⟨[97], hname, by decide, fun found t h => ?_⟩
  have hargv := ((inBounds_iff (by decide)).mp h).1
  rw [(passedArgv_spec hline hname).2, hwords] at hargv
  omega

end ExecStorage
