import DeepOS.ExecStorage
import DeepOS.Formatters
import DeepOS.Listing

/-!
# The working directory

`cd` makes a path that ends in a slash, opens the directory to see whether it is there,
and has `sys_cd` copy the path into the task. The task starts in the root. Of a directory
that is not there it prints the path, which has to fit into the buffer of `printf`.
-/
namespace WorkingDir

open TaskTable CString Strings Tarfs Directory FileTree
open ExecStorage (copyInto copyInto_of_lt)
open PhyMem (Word)
open Printf (libcString pieces uses Piece)
open Formatters (libcString_isSome_iff width)

/-- `pwd` of the running task, and the kernel's directories. -/
structure Session where
  pwd : List Byte
  dirs : Dirs

/-! ## The library -/

def getAbsoluteFilePath (dir fname : List Byte) : List Byte :=
  if startsWith fname [47] then
    if endsWith fname [47] then fname else strcat fname [47]
  else
    let dir := if !endsWith dir [47] then strcat dir [47] else dir
    strcat dir fname

def dirnameWithEndSlash (dirname : List Byte) : List Byte :=
  if !endsWith dirname [47] then strcat dirname [47] else dirname

/-- `sys_pwd` copies into a block of 128 characters. -/
def pwd (s : Session) : Option (List Byte) := copyInto 128 s.pwd

def sanitizeDir (s : Session) (dirname : List Byte) : Option (List Byte) :=
  (pwd s).map fun cwd => dirnameWithEndSlash (getAbsoluteFilePath cwd dirname)

/-- `sys_opendir` copies the path into the `dirPath` of its record and of the caller's. -/
def opendir (a : List Byte) (s : Dirs) (t : Slot) (dirname : List Byte) : Option (Option Dir × Dirs) := do
  let dirname := if dirname.getLast? ≠ some 47 then strcat dirname [47] else dirname
  let r ← sysOpendir a s t dirname
  match r.1 with
  | some dir => (copyInto 100 dir.dirPath).map fun _ => r
  | none => some r

def closedir (s : Dirs) (dir : Dir) : Dirs := sysClosedir s dir.fd

def sysCd (s : Session) (dir : List Byte) : Option Session := (copyInto 128 dir).map fun pwd => { s with pwd }

def noDirectory : List Byte := chars "cd: %s No such file or directory\n"

/-- No result when a copy does not fit into its array, or the message into that of `printf`. -/
def cd (a : List Byte) (t : Slot) (s : Session) (dir : List Byte) : Option (Int × Session) := do
  let dir ← sanitizeDir s dir
  let (df, dirs) ← opendir a s.dirs t dir
  match df with
  | none => (libcString (fun _ => dir) (fun _ => 0) noDirectory).map fun _ => (-1, { s with dirs })
  | some df => (sysCd { s with dirs := closedir dirs df } dir).map fun s' => (0, s')

/-- The calls of one task; `others` stands for what the rest of the system does to the
directories before the next call. -/
inductive Op where
  | cd (dir : List Byte)
  | others (dirs : Dirs)

def step (a : List Byte) (t : Slot) (s : Session) : Op → Option Session
  | .cd dir => (cd a t s dir).map Prod.snd
  | .others dirs => some { s with dirs }

/-! ## Paths -/

/-- The path of the root, or of an entry of the archive that is a directory. -/
def IsDirPath (A : Archive) (path : List Byte) : Prop := ∃ d, path = 47 :: d ∧ IsDir A d

def slashed (path : List Byte) : List Byte := if path.getLast? = some 47 then path else path ++ [47]

/-- What `dir` means to a task in `cwd`. -/
def sanitized (cwd dir : List Byte) : List Byte := slashed (if dir.head? = some 47 then dir else cwd ++ dir)

theorem endsWith_slash (path : List Byte) : endsWith path [47] = true ↔ path.getLast? = some 47 := by
  rw [endsWith_iff, List.singleton_suffix_iff_getLast?_eq_some]

theorem startsWith_slash (path : List Byte) : startsWith path [47] = true ↔ path.head? = some 47 := by
  rw [startsWith_iff, List.singleton_prefix_iff_head?_eq_some]

theorem slashed_last (path : List Byte) : (slashed path).getLast? = some 47 := by
  rw [slashed]
  split
  · assumption
  · rw [List.getLast?_append, List.getLast?_singleton]
    rfl

theorem slashed_head {path : List Byte} (h : path.head? = some 47) : (slashed path).head? = some 47 := by
  rw [slashed]
  split
  · exact h
  · rw [List.head?_append, h]
    rfl

theorem slashed_isStr {path : List Byte} (h : IsStr path) : IsStr (slashed path) := by
  rw [slashed]
  split
  · exact h
  · exact List.forall_mem_append.mpr ⟨h, by decide⟩

theorem length_le_slashed (path : List Byte) : path.length ≤ (slashed path).length := by
  rw [slashed]
  split
  · exact le_rfl
  · rw [List.length_append]
    exact Nat.le_add_right _ _

theorem sanitized_isStr {cwd dir : List Byte} (hcwd : IsStr cwd) (hdir : IsStr dir) : IsStr (sanitized cwd dir) := by
  apply slashed_isStr
  split
  · exact hdir
  · exact List.forall_mem_append.mpr ⟨hcwd, hdir⟩

theorem length_le_sanitized (cwd dir : List Byte) : dir.length ≤ (sanitized cwd dir).length := by
  refine le_trans ?_ (length_le_slashed _)
  split
  · exact le_rfl
  · rw [List.length_append]
    exact Nat.le_add_left _ _

theorem slashed_of_last {path : List Byte} (h : path.getLast? = some 47) : slashed path = path := if_pos h

theorem dirnameWithEndSlash_eq (path : List Byte) : dirnameWithEndSlash path = slashed path := by
  rw [dirnameWithEndSlash, slashed]
  by_cases h : path.getLast? = some 47
  · rw [(endsWith_slash path).mpr h, if_pos h]
    rfl
  · have hnot : endsWith path [47] = false := by
      rw [← Bool.not_eq_true, endsWith_slash]
      exact h
    rw [hnot, if_neg h]
    rfl

/-- In a directory whose path ends in a slash the two helpers put the last one. -/
theorem getAbsoluteFilePath_slashed {cwd : List Byte} (hcwd : cwd.getLast? = some 47) (dir : List Byte) :
    dirnameWithEndSlash (getAbsoluteFilePath cwd dir) = sanitized cwd dir := by
  rw [dirnameWithEndSlash_eq, getAbsoluteFilePath, sanitized]
  by_cases hhead : dir.head? = some 47
  · have hsame : (if endsWith dir [47] then dir else strcat dir [47]) = dirnameWithEndSlash dir := by
      rw [dirnameWithEndSlash]
      cases endsWith dir [47] <;> rfl
    rw [if_pos ((startsWith_slash dir).mpr hhead), if_pos hhead, hsame, dirnameWithEndSlash_eq,
      slashed_of_last (slashed_last dir)]
  · have hsame : (if !endsWith cwd [47] then strcat cwd [47] else cwd) = cwd :=
      (dirnameWithEndSlash_eq cwd).trans (slashed_of_last hcwd)
    rw [if_neg (by rwa [startsWith_slash]), if_neg hhead, hsame]
    rfl

section

variable {A : Archive} {path : List Byte}

theorem IsDirPath.head (h : IsDirPath A path) : path.head? = some 47 := by
  obtain ⟨d, rfl, -⟩ := h
  rfl

theorem IsDirPath.last (h : IsDirPath A path) : path.getLast? = some 47 := by
  obtain ⟨d, rfl, rfl | ⟨hlast, -⟩⟩ := h
  · rfl
  · rw [List.getLast?_cons, hlast]
    rfl

/-- The paths fit into the kernel's arrays. -/
theorem IsDirPath.length_lt (hA : ∀ e ∈ A.entries, e.name.length ≤ 98) (h : IsDirPath A path) : path.length < 100 := by
  obtain ⟨d, rfl, rfl | ⟨-, e, he, rfl⟩⟩ := h
  · decide
  · have := hA e he
    rw [List.length_cons]
    omega

theorem IsDirPath.isStr (h : IsDirPath A path) : IsStr path := by
  obtain ⟨d, rfl, rfl | ⟨-, e, -, rfl⟩⟩ := h
  · decide
  · rw [IsStr, List.forall_mem_cons]
    exact ⟨by decide, e.isStr⟩

theorem sanitized_head (h : IsDirPath A path) (dir : List Byte) : (sanitized path dir).head? = some 47 := by
  rw [sanitized]
  apply slashed_head
  split
  · assumption
  · rw [List.head?_append, h.head]
    rfl

end

theorem sanitizeDir_eq {A : Archive} (hA : ∀ e ∈ A.entries, e.name.length ≤ 98) {s : Session} (h : IsDirPath A s.pwd)
    (dir : List Byte) : sanitizeDir s dir = some (sanitized s.pwd dir) := by
  have hlength := h.length_lt hA
  rw [sanitizeDir, pwd, copyInto_of_lt (by omega), Option.map_some, getAbsoluteFilePath_slashed h.last]

/-! ## Opening -/

/-- The search for an empty name stops at the first zero block. -/
theorem headerWalk_nil {a : List Byte} {z : Nat} (hz : 0 < z) (es : List Entry) : ∀ {p fuel : Nat},
    a.drop p = es.flatMap Entry.bytes ++ List.replicate (512 * z) 0 →
    p + (es.flatMap Entry.bytes).length + 512 * z = a.length → a.length < 2 ^ 28 →
    es.length < fuel → ∃ w, headerWalk a [] fuel p = some w := by
  induction es with
  | nil =>
    intro p fuel h hlen _ hfuel
    rw [List.flatMap_nil, List.nil_append, show z = z - 1 + 1 by omega] at h
    rw [List.flatMap_nil, List.length_nil] at hlen
    cases fuel with
    | zero => omega
    | succ fuel =>
      rw [headerWalk, if_pos (by omega), headerName_zero h]
      exact ⟨_, if_pos rfl⟩
  | cons e es ih =>
    intro p fuel h hlen hsmall hfuel
    have hsplit : a.drop p = e.bytes ++ (es.flatMap Entry.bytes ++ List.replicate (512 * z) 0) := by
      rw [h, List.flatMap_cons, List.append_assoc]
    have hbytes := bytes_length e
    rw [List.flatMap_cons, List.length_append] at hlen
    rw [List.length_cons] at hfuel
    cases fuel with
    | zero => omega
    | succ fuel =>
      have hne : strcmp e.name [] ≠ 0 := by
        have hpos := e.name_pos
        rw [ne_eq, strcmp_eq_zero, ← List.length_eq_zero_iff]
        omega
      obtain ⟨w, hw⟩ := ih (drop_next hsplit) (by omega) hsmall (by omega : es.length < fuel)
      refine ⟨{ visited := p :: w.visited, data := w.data }, ?_⟩
      rw [headerWalk, if_pos (by omega), headerName_entry hsplit, if_neg hne, nextHeader_entry hsplit (by omega), hw,
        Option.map_some]

theorem sysOpendirWalk_some (A : Archive) (d : List Byte) : ∃ w, sysOpendirWalk A.bytes (47 :: d) = some w ∧
    (d ≠ [] → w.data = A.locate d) := by
  by_cases hd : d = []
  · subst hd
    have hsmall := A.small
    have hlen := A.length_bytes
    have htwo := A.two_le
    have hcount := length_le_flatMap A.entries
    obtain ⟨w, hw⟩ := headerWalk_nil (by omega) A.entries (a := A.bytes) (p := 0) rfl (by omega) (by omega)
      (by omega : A.entries.length < A.bytes.length + 1)
    exact ⟨w, hw, fun h => absurd rfl h⟩
  · exact ⟨_, A.headerWalk_bytes hd, fun _ => rfl⟩

theorem isDirPath_iff {A : Archive} {d : List Byte} (hd : d ≠ []) (hlast : (47 :: d).getLast? = some 47) :
    IsDirPath A (47 :: d) ↔ A.locate d ≠ none := by
  have hlast' : d.getLast? = some 47 := by
    obtain ⟨c, rest, rfl⟩ := List.exists_cons_of_ne_nil hd
    rwa [List.getLast?_cons_cons] at hlast
  rw [ne_eq, A.locate_eq_none]
  constructor
  · rintro ⟨d', hd', rfl | ⟨-, e, he, rfl⟩⟩ hnone
    · exact hd (List.cons.inj hd').2
    · exact hnone e he (List.cons.inj hd').2.symm
  · intro hsome
    push Not at hsome
    exact ⟨d, rfl, Or.inr ⟨hlast', hsome⟩⟩

/-- `sys_opendir` opens the directories, as long as there is a descriptor left. -/
theorem sysOpendir_spec {A : Archive} {path : List Byte} (hhead : path.head? = some 47) (hlast : path.getLast? = some 47)
    (s : Dirs) (t : Slot) : ∃ df dirs, sysOpendir A.bytes s t path = some (df, dirs) ∧
      (IsDirPath A path ∧ (freeDesc s).isSome → ∃ dir, df = some dir ∧ dir.dirPath = path) ∧
      (¬ (IsDirPath A path ∧ (freeDesc s).isSome) → df = none) := by
  obtain ⟨d, rfl⟩ := List.head?_eq_some_iff.mp hhead
  obtain ⟨w, hw, hdata⟩ := sysOpendirWalk_some A d
  by_cases hd : d = []
  · subst hd
    have hroot : IsDirPath A [47] := ⟨[], rfl, Or.inl rfl⟩
    cases hfree : freeDesc s with
    | none =>
      refine ⟨none, s, ?_, by simp, fun _ => rfl⟩
      rw [sysOpendir, if_pos ((strcmp_eq_zero _ _).mpr rfl), hfree, hw]
      obtain ⟨visited, data⟩ := w
      cases data <;> rfl
    | some i => exact ⟨_, _, Listing.freeDesc_open hfree t, fun _ => ⟨_, rfl, rfl⟩, fun h => absurd ⟨hroot, rfl⟩ h⟩
  · have hne : ¬ strcmp (47 :: d) [47] = 0 := by
      rw [strcmp_eq_zero]
      exact fun h => hd (List.cons.inj h).2
    have hopen := isDirPath_iff (A := A) hd hlast
    rw [sysOpendir, if_neg hne, hw, Option.map_some, hdata hd, hopen]
    cases A.locate d with
    | none => exact ⟨none, s, rfl, fun h => absurd rfl h.1, fun _ => rfl⟩
    | some start =>
      cases freeDesc s with
      | none => exact ⟨none, s, rfl, by simp, fun _ => rfl⟩
      | some i => exact ⟨_, _, rfl, fun _ => ⟨_, rfl, rfl⟩, fun h => absurd ⟨Option.some_ne_none start, rfl⟩ h⟩

/-! ## The message -/

theorem message_width (dir : List Byte) (ps : List Piece) (hps : pieces noDirectory = some ps) :
    ((uses (fun _ => (0 : Word)) ps 0).map (width fun _ => dir)).sum = (strAt dir 0).length + 31 := by
  have hmessage : pieces noDirectory = some ((chars "cd: ").map .lit ++ .str :: (chars " No such file or directory\n").map .lit) := by
    decide
  rw [hmessage] at hps
  obtain rfl := Option.some.inj hps
  have hlits : ∀ (text : List Byte) (rest : List Piece) (ap : Nat),
      ((uses (fun _ => (0 : Word)) (text.map .lit ++ rest) ap).map (width fun _ => dir)).sum =
        text.length + ((uses (fun _ => (0 : Word)) rest ap).map (width fun _ => dir)).sum := by
    intro text rest ap
    induction text with
    | nil => exact (Nat.zero_add _).symm
    | cons c text ih =>
      have hstep : ((uses (fun _ => (0 : Word)) ((c :: text).map .lit ++ rest) ap).map (width fun _ => dir)).sum =
          1 + ((uses (fun _ => (0 : Word)) (text.map .lit ++ rest) ap).map (width fun _ => dir)).sum := rfl
      rw [hstep, ih, List.length_cons]
      omega
  have hpath : ∀ ap, ((uses (fun _ => (0 : Word)) (.str :: (chars " No such file or directory\n").map .lit) ap).map
      (width fun _ => dir)).sum = (strAt dir 0).length + 27 := by
    intro ap
    have htail := hlits (chars " No such file or directory\n") [] (ap + 1)
    rw [List.append_nil] at htail
    have hstep : ((uses (fun _ => (0 : Word)) (.str :: (chars " No such file or directory\n").map .lit) ap).map
        (width fun _ => dir)).sum = (strAt dir 0).length +
          ((uses (fun _ => (0 : Word)) ((chars " No such file or directory\n").map .lit) (ap + 1)).map (width fun _ => dir)).sum := rfl
    rw [hstep, htail]
    rfl
  rw [hlits, hpath]
  exact Nat.add_comm _ _

/-- The message has 31 characters besides the path, and the terminator. -/
theorem message_fits_iff (dir : List Byte) :
    (∃ out, libcString (fun _ => dir) (fun _ => 0) noDirectory = some out) ↔ (strAt dir 0).length < 969 := by
  rw [libcString_isSome_iff _ _ _ (by decide)]
  constructor
  · rintro ⟨ps, hps, hlt⟩
    rw [message_width dir ps hps] at hlt
    omega
  · intro hlt
    have hsome : (pieces noDirectory).isSome := by decide
    obtain ⟨ps, hps⟩ := Option.isSome_iff_exists.mp hsome
    refine ⟨ps, hps, ?_⟩
    rw [message_width dir ps hps]
    omega

/-! ## Calls and runs -/

section

variable {A : Archive} (hA : ∀ e ∈ A.entries, e.name.length ≤ 98) (t : Slot) {s : Session} (h : IsDirPath A s.pwd)
  (dir : List Byte)

include hA h

theorem cd_found (hdir : IsDirPath A (sanitized s.pwd dir) ∧ (freeDesc s.dirs).isSome) :
    ∃ s', cd A.bytes t s dir = some (0, s') ∧ s'.pwd = sanitized s.pwd dir := by
  have hlast : (sanitized s.pwd dir).getLast? = some 47 := slashed_last _
  obtain ⟨df, dirs, hopen, hfound, -⟩ := sysOpendir_spec (A := A) (sanitized_head h dir) hlast s.dirs t
  obtain ⟨found, rfl, hpath⟩ := hfound hdir
  have hlength := hdir.1.length_lt hA
  have hcopy : copyInto 100 found.dirPath = some (sanitized s.pwd dir) := by
    rw [hpath]
    exact copyInto_of_lt hlength
  have hopendir : opendir A.bytes s.dirs t (sanitized s.pwd dir) = some (some found, dirs) := by
    simp only [opendir, hlast, ne_eq, not_true_eq_false, if_false, hopen, Option.bind_eq_bind, Option.bind_some, hcopy,
      Option.map_some]
  have hstore : copyInto 128 (sanitized s.pwd dir) = some (sanitized s.pwd dir) := copyInto_of_lt (by omega)
  refine ⟨{ pwd := sanitized s.pwd dir, dirs := closedir dirs found }, ?_, rfl⟩
  simp only [cd, sanitizeDir_eq hA h, hopendir, sysCd, hstore, Option.bind_eq_bind, Option.bind_some, Option.map_some]

theorem cd_missing (hdir : ¬ (IsDirPath A (sanitized s.pwd dir) ∧ (freeDesc s.dirs).isSome)) :
    ∃ dirs, cd A.bytes t s dir = (libcString (fun _ => sanitized s.pwd dir) (fun _ => 0) noDirectory).map
      fun _ => (-1, { s with dirs }) := by
  have hlast : (sanitized s.pwd dir).getLast? = some 47 := slashed_last _
  obtain ⟨df, dirs, hopen, -, hmissing⟩ := sysOpendir_spec (A := A) (sanitized_head h dir) hlast s.dirs t
  obtain rfl := hmissing hdir
  have hopendir : opendir A.bytes s.dirs t (sanitized s.pwd dir) = some (none, dirs) := by
    simp only [opendir, hlast, ne_eq, not_true_eq_false, if_false, hopen, Option.bind_eq_bind, Option.bind_some]
  refine ⟨dirs, ?_⟩
  simp only [cd, sanitizeDir_eq hA h, hopendir, Option.bind_eq_bind, Option.bind_some]

end

/-- The call takes the task to the path that its argument means if that is a directory and
there is a descriptor left, and else it returns -1 and the task stays. -/
def Obeys (A : Archive) (t : Slot) (s : Session) (dir : List Byte) : Prop :=
  ∃ r s', cd A.bytes t s dir = some (r, s') ∧
    (IsDirPath A (sanitized s.pwd dir) ∧ (freeDesc s.dirs).isSome → r = 0 ∧ s'.pwd = sanitized s.pwd dir) ∧
    (¬ (IsDirPath A (sanitized s.pwd dir) ∧ (freeDesc s.dirs).isSome) → r = -1 ∧ s'.pwd = s.pwd)

/-- The path leaves room in `strToStore` for the rest of the message. -/
def Meets (s : Session) : Op → Prop
  | .cd dir => (sanitized s.pwd dir).length < 969
  | .others _ => True

section

variable {A : Archive} (hA : ∀ e ∈ A.entries, e.name.length ≤ 98) (t : Slot) {s : Session} (h : IsDirPath A s.pwd)

include hA h

theorem obeys_of_room {dir : List Byte} (hroom : (sanitized s.pwd dir).length < 969) : Obeys A t s dir := by
  by_cases hdir : IsDirPath A (sanitized s.pwd dir) ∧ (freeDesc s.dirs).isSome
  · obtain ⟨s', hcd, hpwd⟩ := cd_found hA t h dir hdir
    exact ⟨0, s', hcd, fun _ => ⟨rfl, hpwd⟩, fun hnot => absurd hdir hnot⟩
  · obtain ⟨dirs, hcd⟩ := cd_missing hA t h dir hdir
    have hshort : (strAt (sanitized s.pwd dir) 0).length < 969 := by
      have hle := (List.takeWhile_sublist (· ≠ 0) (l := (sanitized s.pwd dir).drop 0)).length_le
      rw [List.drop_zero] at hle
      exact lt_of_le_of_lt hle hroom
    obtain ⟨out, hout⟩ := (message_fits_iff _).mpr hshort
    exact ⟨-1, { s with dirs }, by rw [hcd, hout]; rfl, fun hyes => absurd hyes hdir, fun _ => ⟨rfl, rfl⟩⟩

/-- A path without room is no directory, and the message about it has no room either. -/
theorem obeys_iff {dir : List Byte} (hdir : IsStr dir) : Obeys A t s dir ↔ (sanitized s.pwd dir).length < 969 := by
  refine ⟨fun hobeys => ?_, obeys_of_room hA t h⟩
  by_contra hlong
  have hnot : ¬ (IsDirPath A (sanitized s.pwd dir) ∧ (freeDesc s.dirs).isSome) := by
    intro hyes
    have hlength := hyes.1.length_lt hA
    omega
  obtain ⟨dirs, hcd⟩ := cd_missing hA t h dir hnot
  obtain ⟨r, s', hcall, -⟩ := hobeys
  rw [hcd, Option.map_eq_some_iff] at hcall
  obtain ⟨out, hout, -⟩ := hcall
  have hshort := (message_fits_iff _).mp ⟨out, hout⟩
  rw [Printf.strAt_of_isStr (sanitized_isStr h.isStr hdir)] at hshort
  exact hlong hshort

theorem step_some {op : Op} (hm : Meets s op) : ∃ s', step A.bytes t s op = some s' ∧ IsDirPath A s'.pwd := by
  cases op with
  | cd dir =>
    obtain ⟨r, s', hcd, hyes, hno⟩ := obeys_of_room hA t h (show (sanitized s.pwd dir).length < 969 from hm)
    refine ⟨s', by rw [step, hcd, Option.map_some], ?_⟩
    by_cases hdir : IsDirPath A (sanitized s.pwd dir) ∧ (freeDesc s.dirs).isSome
    · rw [(hyes hdir).2]
      exact hdir.1
    · rw [(hno hdir).2]
      exact h
  | others dirs => exact ⟨_, rfl, h⟩

end

/-- The calls return, and the task is in the root or in a directory of the archive. -/
theorem run_some {A : Archive} (hA : ∀ e ∈ A.entries, e.name.length ≤ 98) (t : Slot) (ops : List Op) :
    ∀ {s : Session}, IsDirPath A s.pwd → Transition.Along (step A.bytes t) Meets s ops →
      ∃ s', Transition.run (step A.bytes t) s ops = some s' ∧ IsDirPath A s'.pwd := by
  induction ops with
  | nil => exact fun h _ => ⟨_, rfl, h⟩
  | cons op ops ih =>
    intro s h hops
    obtain ⟨s₁, hstep, h₁⟩ := step_some hA t h hops.1
    obtain ⟨s', hrun, h'⟩ := ih h₁ (hops.2 s₁ hstep)
    exact ⟨s', (Transition.run_cons_eq_some _).mpr ⟨s₁, hstep, hrun⟩, h'⟩

/-- Whatever a task has called `cd` with from the root on, with paths of less than 969
characters, and whatever the others did to the directories meanwhile: it is in the root or
in a directory of the archive, and the next call does what it should exactly when its path
has less than 969 characters. -/
theorem cd_working_directory (A : Archive) (hA : ∀ e ∈ A.entries, e.name.length ≤ 98) (t : Slot) (dirs : Dirs)
    (ops : List Op) (hops : Transition.Along (step A.bytes t) Meets ⟨[47], dirs⟩ ops) :
    ∃ s, Transition.run (step A.bytes t) ⟨[47], dirs⟩ ops = some s ∧ IsDirPath A s.pwd ∧
      ∀ dir, IsStr dir → (Obeys A t s dir ↔ (sanitized s.pwd dir).length < 969) := by
  obtain ⟨s, hs, hpwd⟩ := run_some hA t ops (s := ⟨[47], dirs⟩) ⟨[], rfl, Or.inl rfl⟩ hops
  exact ⟨s, hs, hpwd, fun dir hdir => obeys_iff hA t hpwd hdir⟩

/-- The first call of a task, for the directory `b` of the small tree. -/
theorem cd_working_directory_smallTree : ∃ s', cd Listing.smallTree.bytes 0 ⟨[47], Dirs.start⟩ [98] = some (0, s') ∧
    s'.pwd = [47, 98, 47] := by
  obtain ⟨s, hs, -, hcd⟩ := cd_working_directory Listing.smallTree (by decide) 0 Dirs.start [] trivial
  obtain rfl := Option.some.inj hs
  obtain ⟨r, s', hcall, hyes, -⟩ := (hcd [98] (by decide)).mpr (by decide)
  obtain ⟨rfl, hpwd⟩ := hyes ⟨⟨[98, 47], rfl, Listing.smallTree_isDir⟩, by decide⟩
  exact ⟨s', hcall, hpwd⟩

/-- A path of 1500 letters, which the message does not survive. -/
theorem long_path_lost : (∀ e ∈ Listing.smallTree.entries, e.name.length ≤ 98) ∧ IsStr (List.replicate 1500 98) ∧
    ¬ Obeys Listing.smallTree 0 ⟨[47], Dirs.start⟩ (List.replicate 1500 98) := by
  have hroot : IsDirPath Listing.smallTree [47] := ⟨[], rfl, Or.inl rfl⟩
  have hstr : IsStr (List.replicate 1500 98) := by
    intro c hc
    rw [List.eq_of_mem_replicate hc]
    decide
  refine ⟨by decide, hstr, fun hobeys => ?_⟩
  have hshort := (obeys_iff (by decide) 0 hroot hstr).mp hobeys
  have hlong := length_le_sanitized [47] (List.replicate 1500 98)
  rw [List.length_replicate] at hlong
  exact absurd (hlong.trans_lt hshort) (by decide)

end WorkingDir
