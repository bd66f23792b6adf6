import DeepOS.FileRead

/-!
# Opening a file

`sys_open` puts -1 into its result when the size field is zero, but goes on, and a free
descriptor then replaces the -1.
-/
namespace OpenFile

open TaskTable CString Strings Tarfs FileTable

def firstEntry (A : Archive) (name : List Byte) : Option Nat := A.entries.findIdx? fun e => e.name = name

def contentsAt (A : Archive) (i : Nat) : List Byte := (A.entries[i]?.map Entry.contents).getD []

/-- The descriptor `fd` was free and is now the task's, for the data of entry `i`. -/
structure Opened (A : Archive) (base : Nat) (s : Files) (t : Slot) (i : Nat) (fd : Fin 100) (s' : Files) :
    Prop where
  three_le : 3 ≤ fd.val
  free : s.fdAllocArray fd = false
  alloc : s'.fdAllocArray = Function.update s.fdAllocArray fd true
  record : s'.fdArr = Function.update s.fdArr fd
    ⟨fd, base + (A.offset i + 512), base + (A.offset i + 512), (contentsAt A i).length, false⟩
  flag : s'.openFiles = setFlag s.openFiles t fd true

def AllTaken (s : Files) : Prop := ∀ fd : Fin 100, 3 ≤ fd.val → s.fdAllocArray fd = true

def CanOpen (A : Archive) (s : Files) (name : List Byte) : Prop :=
  (∃ i, firstEntry A name = some i ∧ contentsAt A i ≠ []) ∧ ¬ AllTaken s

/-- What `sys_open` promises: a descriptor for the file, or -1 and no change. -/
structure OpensFile (A : Archive) (base : Nat) (s : Files) (t : Slot) (name : List Byte)
    (r : Option (Fin 100)) (s' : Files) : Prop where
  success : CanOpen A s name → ∃ i fd, firstEntry A name = some i ∧ r = some fd ∧ Opened A base s t i fd s'
  failure : ¬ CanOpen A s name → r = none ∧ s' = s

def NotEmpty (A : Archive) (s : Files) (name : List Byte) : Prop :=
  ∀ i, firstEntry A name = some i → contentsAt A i ≠ [] ∨ AllTaken s

variable {A : Archive} {base : Nat} {s : Files} {t : Slot} {name : List Byte}

/-- A free descriptor is found whenever there is one. -/
theorem freeFd_eq_none : freeFd s = none ↔ AllTaken s := by
  rw [freeFd, List.find?_eq_none, AllTaken]
  constructor
  · intro h fd hfd
    have hno := h fd (List.mem_finRange fd)
    rw [decide_eq_true_eq, not_and, Bool.not_eq_false] at hno
    exact hno hfd
  · intro h fd _
    rw [decide_eq_true_eq, not_and, Bool.not_eq_false]
    exact h fd

theorem sysOpen_eq (c : Byte) (hname : name ≠ []) : sysOpen A.bytes base s t (c :: name) =
    some (match firstEntry A name, freeFd s with
      | some i, some fd => (some fd, openFd A.bytes base s t (A.offset i + 512) fd)
      | _, _ => (none, s)) := by
  rw [sysOpen, (archive_lookups_agree A c name hname).1, Option.map_some, Archive.locate, firstEntry]
  cases A.entries.findIdx? fun e => e.name = name with
  | none => rfl
  | some i =>
    cases freeFd s with
    | none => rfl
    | some fd => rfl

theorem openFd_opened {i : Nat} {fd : Fin 100} (hi : firstEntry A name = some i) (hfd : freeFd s = some fd) :
    Opened A base s t i fd (openFd A.bytes base s t (A.offset i + 512) fd) := by
  obtain ⟨hlt, -, -⟩ := List.findIdx?_eq_some_iff_getElem.mp hi
  obtain ⟨hpos, hfree⟩ := freeFd_spec hfd
  have hsize : headerSize A.bytes (A.offset i + 512 - 512) = (contentsAt A i).length := by
    rw [Nat.add_sub_cancel, FileRead.headerSize_offset hlt, contentsAt, List.getElem?_eq_getElem hlt]
    rfl
  refine ⟨hpos, hfree, rfl, ?_, rfl⟩
  rw [openFd, hsize]

/-- For every archive, descriptor table and path, `sys_open` keeps its promise exactly
when the first entry of that name is not empty or all descriptors are taken. -/
theorem sys_open_result_iff (A : Archive) (base : Nat) (s : Files) (t : Slot) (c : Byte) (name : List Byte)
    (hname : name ≠ []) :
    (∃ r s', sysOpen A.bytes base s t (c :: name) = some (r, s') ∧ OpensFile A base s t name r s') ↔
      NotEmpty A s name := by
  rw [sysOpen_eq c hname]
  cases hentry : firstEntry A name with
  | none =>
    have hcannot : ¬ CanOpen A s name := by
      rintro ⟨⟨i, hi, -⟩, -⟩
      rw [hentry] at hi
      cases hi
    refine ⟨fun _ i hi => ?_, fun _ => ⟨none, s, rfl, fun h => absurd h hcannot, fun _ => ⟨rfl, rfl⟩⟩⟩
    rw [hentry] at hi
    cases hi
  | some i =>
    cases hfd : freeFd s with
    | none =>
      have hcannot : ¬ CanOpen A s name := fun h => h.2 (freeFd_eq_none.mp hfd)
      exact ⟨fun _ _ _ => Or.inr (freeFd_eq_none.mp hfd),
        fun _ => ⟨none, s, rfl, fun h => absurd h hcannot, fun _ => ⟨rfl, rfl⟩⟩⟩
    | some fd =>
      constructor
      · rintro ⟨r, s', hopen, hpromise⟩ j hj
        rw [hentry, Option.some.injEq] at hj
        subst hj
        refine Or.inl fun hempty => ?_
        -- an empty file gets a descriptor
        have hcannot : ¬ CanOpen A s name := by
          rintro ⟨⟨j, hj, hcontents⟩, -⟩
          rw [hentry, Option.some.injEq] at hj
          subst hj
          exact hcontents hempty
        have hr := (hpromise.failure hcannot).1
        obtain ⟨rfl, -⟩ := Prod.mk.inj (Option.some.inj hopen)
        cases hr
      · intro hcond
        have hcontents : contentsAt A i ≠ [] := by
          rcases hcond i hentry with h | h
          · exact h
          · rw [← freeFd_eq_none, hfd] at h
            cases h
        refine ⟨some fd, _, rfl, fun _ => ⟨i, fd, hentry, rfl, openFd_opened hentry hfd⟩, fun hcannot => ?_⟩
        refine absurd ⟨⟨i, hentry, hcontents⟩, fun htaken => ?_⟩ hcannot
        rw [← freeFd_eq_none, hfd] at htaken
        cases htaken

theorem letters_open : ∃ r s', sysOpen FileRead.letters.bytes 0 Files.start 0 [47, 97] = some (r, s') ∧
    OpensFile FileRead.letters 0 Files.start 0 [97] r s' := by
  refine (sys_open_result_iff FileRead.letters 0 Files.start 0 47 [97] (by decide)).mpr fun i hi => Or.inl ?_
  have hfirst : firstEntry FileRead.letters [97] = some 0 := by decide +kernel
  rw [hfirst, Option.some.injEq] at hi
  subst hi
  exact (by decide +kernel : contentsAt FileRead.letters 0 ≠ [])

/-- The empty file `a` gets descriptor 3. -/
theorem empty_file_opened : (∃ s', sysOpen oneFile.bytes 0 Files.start 0 [47, 97] = some (some 3, s')) ∧
    ¬ ∃ r s', sysOpen oneFile.bytes 0 Files.start 0 [47, 97] = some (r, s') ∧
      OpensFile oneFile 0 Files.start 0 [97] r s' := by
  have hopen := @sysOpen_eq oneFile 0 Files.start 0 [97] 47 (by decide)
  have hfirst : firstEntry oneFile [97] = some 0 := by decide +kernel
  have hempty : contentsAt oneFile 0 = [] := by decide +kernel
  rw [hfirst, FileRead.freeFd_start] at hopen
  refine ⟨⟨_, hopen⟩, ?_⟩
  rintro ⟨r, s', hrun, hpromise⟩
  have hcannot : ¬ CanOpen oneFile Files.start [97] := by
    rintro ⟨⟨i, hi, hcontents⟩, -⟩
    rw [hfirst, Option.some.injEq] at hi
    subst hi
    exact hcontents hempty
  rw [hopen] at hrun
  obtain ⟨rfl, -⟩ := Prod.mk.inj (Option.some.inj hrun)
  exact absurd (hpromise.failure hcannot).1 (Option.some_ne_none _)

end OpenFile
