import DeepOS.TaskTable
import DeepOS.Tarfs
import DeepOS.Transition

/-!
# File descriptors

`sys_open`, `sys_read` and `sys_close`. A descriptor is spread over the allocation
array `fdAllocArray`, the records `fdArr` and a flag in the task. The records hold
addresses: the archive stands at `base`, and `mem` is what the kernel reads, behind
the archive and at the null pointer of an unused record too. Descriptors outside
the arrays are not modelled.
-/
namespace FileTable

open TaskTable CString Strings Tarfs

structure FdRecord where
  fd : Fin 100
  start : Nat
  curPtr : Nat
  fileSize : Int
  eof : Bool
  deriving DecidableEq, Repr

structure Files where
  fdAllocArray : Fin 100 → Bool
  fdArr : Fin 100 → FdRecord
  openFiles : Slot → Fin 100 → Bool

def standardFiles (openFiles : Fin 100 → Bool) (i : Fin 100) : Bool :=
  if i.val < 3 then true else openFiles i

/-- The zero-initialised arrays, with the flags `initialize_tasking` gives to the first task. -/
def Files.start : Files where
  fdAllocArray := fun _ => false
  fdArr := fun _ => ⟨0, 0, 0, 0, false⟩
  openFiles := Function.update (fun _ _ => false) 0 (standardFiles fun _ => false)

/-! ## The calls -/

def freeFd (s : Files) : Option (Fin 100) :=
  (List.finRange 100).find? fun i => 3 ≤ i.val ∧ s.fdAllocArray i = false

def setFlag (openFiles : Slot → Fin 100 → Bool) (t : Slot) (i : Fin 100) (b : Bool) :
    Slot → Fin 100 → Bool :=
  Function.update openFiles t (Function.update (openFiles t) i b)

def openFd (a : List Byte) (base : Nat) (s : Files) (t : Slot) (start : Nat) (i : Fin 100) : Files where
  fdAllocArray := Function.update s.fdAllocArray i true
  fdArr := Function.update s.fdArr i
    ⟨i, base + start, base + start, headerSize a (start - 512), false⟩
  openFiles := setFlag s.openFiles t i true

/-- The result is the descriptor, or `none` for `-1`; an empty file gets one too. -/
def sysOpen (a : List Byte) (base : Nat) (s : Files) (t : Slot) (fname : List Byte) :
    Option (Option (Fin 100) × Files) :=
  (sysOpenWalk a fname).map fun w =>
    match w.data, freeFd s with
    | some start, some i => (some i, openFd a base s t start i)
    | _, _ => (none, s)

/-- The copying loop of `sys_read`: the bytes copied, and the record. -/
def readLoop (mem : Nat → Byte) : Nat → FdRecord → List Byte × FdRecord
  | 0, r => ([], r)
  | n + 1, r =>
    if mem r.curPtr ≠ 0 then
      let temp := r.curPtr + 1
      let rest := readLoop mem n { r with curPtr := temp, eof := if mem temp = 0 then true else r.eof }
      (mem r.curPtr :: rest.1, rest.2)
    else ([], r)

/-- The number that is returned, and what the caller's buffer was overwritten with. -/
structure ReadResult where
  numBytesRead : Nat
  buffer : List Byte
  deriving DecidableEq, Repr

def ReadResult.returned (r : ReadResult) : List Byte := r.buffer.take r.numBytesRead

/-- Every byte that is copied is followed by a terminator. -/
def copied (bytes : List Byte) : ReadResult := ⟨bytes.length, if bytes = [] then [] else bytes ++ [0]⟩

def readRecord (mem : Nat → Byte) (s : Files) (i : Fin 100) (nBytes : Int) : ReadResult × Files :=
  let r := readLoop mem nBytes.toNat (s.fdArr i)
  (copied r.1, { s with fdArr := Function.update s.fdArr i r.2 })

/-- The first ten records are searched for the descriptor. -/
def searchRecord (s : Files) (fd : Fin 100) : Option (Fin 100) :=
  ((List.finRange 100).take 10).find? fun i => (s.fdArr i).fd = fd

/-- When the search fails its counter has come to 10. -/
def sysRead (mem : Nat → Byte) (s : Files) (t : Slot) (fd : Fin 100) (nBytes : Int) :
    ReadResult × Files :=
  if !s.openFiles t fd then (⟨0, []⟩, s)
  else match searchRecord s fd with
    | some i => if (s.fdArr i).eof then (⟨0, []⟩, s) else readRecord mem s i nBytes
    | none => readRecord mem s 10 nBytes

def sysClose (s : Files) (t : Slot) (fd : Fin 100) : Files :=
  { s with
    openFiles := setFlag s.openFiles t fd false
    fdAllocArray := Function.update s.fdAllocArray fd false }

def forkFiles (s : Files) (child : Slot) : Files :=
  { s with openFiles := Function.update s.openFiles child (standardFiles (s.openFiles child)) }

inductive Op where
  | opens (t : Slot) (fname : List Byte)
  | reads (t : Slot) (fd : Fin 100) (nBytes : Int)
  | closes (t : Slot) (fd : Fin 100)
  | forks (child : Slot)

def step (a : List Byte) (base : Nat) (mem : Nat → Byte) (s : Files) : Op → Option Files
  | .opens t fname => (sysOpen a base s t fname).map Prod.snd
  | .reads t fd nBytes => some (sysRead mem s t fd nBytes).2
  | .closes t fd => some (sysClose s t fd)
  | .forks child => some (forkFiles s child)

/-! ## What each call does -/

theorem setFlag_apply (openFiles : Slot → Fin 100 → Bool) (t u : Slot) (i j : Fin 100) (b : Bool) :
    setFlag openFiles t i b u j = if u = t ∧ j = i then b else openFiles u j := by
  by_cases hu : u = t
  · subst hu
    by_cases hj : j = i
    · subst hj
      simp [setFlag]
    · simp [setFlag, hj]
  · simp [setFlag, hu]

theorem freeFd_spec {s : Files} {i : Fin 100} (h : freeFd s = some i) :
    3 ≤ i.val ∧ s.fdAllocArray i = false := by
  have := List.find?_some h
  simpa only [decide_eq_true_eq] using this

theorem sysOpen_cases {a : List Byte} {base : Nat} {s s' : Files} {t : Slot} {fname : List Byte}
    {r : Option (Fin 100)} (h : sysOpen a base s t fname = some (r, s')) :
    (r = none ∧ s' = s) ∨ ∃ w start i, sysOpenWalk a fname = some w ∧ w.data = some start ∧
      freeFd s = some i ∧ r = some i ∧ s' = openFd a base s t start i := by
  rw [sysOpen, Option.map_eq_some_iff] at h
  obtain ⟨w, hw, hr⟩ := h
  split at hr
  · rename_i start i hdata hi
    obtain ⟨rfl, rfl⟩ := Prod.mk.inj hr
    exact Or.inr ⟨w, start, i, hw, hdata, hi, rfl, rfl⟩
  · obtain ⟨rfl, rfl⟩ := Prod.mk.inj hr
    exact Or.inl ⟨rfl, rfl⟩

theorem readLoop_fixed (mem : Nat → Byte) (n : Nat) : ∀ r : FdRecord,
    (readLoop mem n r).2.fd = r.fd ∧ (readLoop mem n r).2.start = r.start ∧
      (readLoop mem n r).2.fileSize = r.fileSize := by
  induction n with
  | zero => exact fun r => ⟨rfl, rfl, rfl⟩
  | succ n ih =>
    intro r
    rw [readLoop]
    split
    · exact ih _
    · exact ⟨rfl, rfl, rfl⟩

/-- A read changes at most the position and the end mark of one record. -/
theorem sysRead_cases (mem : Nat → Byte) (s : Files) (t : Slot) (fd : Fin 100) (nBytes : Int) :
    (sysRead mem s t fd nBytes).2 = s ∨
      ∃ i, (searchRecord s fd = some i ∨ searchRecord s fd = none ∧ i = 10) ∧
        s.openFiles t fd = true ∧ sysRead mem s t fd nBytes = readRecord mem s i nBytes := by
  rw [sysRead]
  split
  · exact Or.inl rfl
  · rename_i hopen
    have hopen : s.openFiles t fd = true := by simpa using hopen
    split
    · rename_i i hi
      split
      · exact Or.inl rfl
      · exact Or.inr ⟨i, Or.inl hi, hopen, rfl⟩
    · rename_i hi
      exact Or.inr ⟨10, Or.inr ⟨hi, rfl⟩, hopen, rfl⟩

theorem readRecord_fixed (mem : Nat → Byte) (s : Files) (i j : Fin 100) (nBytes : Int) :
    let s' := (readRecord mem s i nBytes).2
    (s'.fdArr j).fd = (s.fdArr j).fd ∧ (s'.fdArr j).start = (s.fdArr j).start ∧
      (s'.fdArr j).fileSize = (s.fdArr j).fileSize := by
  by_cases hj : j = i
  · subst hj
    simpa [readRecord] using readLoop_fixed mem nBytes.toNat (s.fdArr j)
  · simp [readRecord, hj]

theorem sysRead_flags (mem : Nat → Byte) (s : Files) (t : Slot) (fd : Fin 100) (nBytes : Int) :
    let s' := (sysRead mem s t fd nBytes).2
    s'.fdAllocArray = s.fdAllocArray ∧ s'.openFiles = s.openFiles := by
  rcases sysRead_cases mem s t fd nBytes with h | ⟨i, -, -, h⟩
  · rw [h]
    exact ⟨rfl, rfl⟩
  · rw [h]
    exact ⟨rfl, rfl⟩

/-- What a record belongs to does not change in a read. -/
theorem sysRead_fixed (mem : Nat → Byte) (s : Files) (t : Slot) (fd : Fin 100) (nBytes : Int)
    (j : Fin 100) :
    let s' := (sysRead mem s t fd nBytes).2
    (s'.fdArr j).fd = (s.fdArr j).fd ∧ (s'.fdArr j).start = (s.fdArr j).start ∧
      (s'.fdArr j).fileSize = (s.fdArr j).fileSize := by
  rcases sysRead_cases mem s t fd nBytes with h | ⟨i, -, -, h⟩
  · rw [h]
    exact ⟨rfl, rfl, rfl⟩
  · rw [h]
    exact readRecord_fixed mem s i j nBytes

/-! ## Records in a run -/

/-- A record is unused or belongs to the descriptor of its index; that of an open
descriptor is in use. -/
structure Records (s : Files) : Prop where
  own : ∀ i, (s.fdArr i).fd = i ∨ (s.fdArr i).fd = 0
  used : ∀ t i, 3 ≤ i.val → s.openFiles t i = true → (s.fdArr i).fd = i

theorem standardFiles_le {openFiles : Fin 100 → Bool} {i : Fin 100} (hi : 3 ≤ i.val) :
    standardFiles openFiles i = openFiles i := by
  rw [standardFiles, if_neg (by omega)]

theorem start_records : Records Files.start := by
  constructor
  · exact fun i => Or.inr rfl
  · intro t i hi h
    by_cases ht : t = 0
    · subst ht
      simp [Files.start, standardFiles_le hi] at h
    · simp [Files.start, ht] at h

theorem openFd_records {a : List Byte} {base : Nat} {s : Files} {t : Slot} {start : Nat} {i : Fin 100}
    (h : Records s) : Records (openFd a base s t start i) := by
  constructor
  · intro j
    by_cases hj : j = i
    · subst hj
      simp [openFd]
    · simpa [openFd, hj] using h.own j
  · intro u j hj hopen
    by_cases hji : j = i
    · subst hji
      simp [openFd]
    · simp only [openFd, setFlag_apply, hji, and_false, if_false] at hopen
      simpa [openFd, hji] using h.used u j hj hopen

theorem step_records {a : List Byte} {base : Nat} {mem : Nat → Byte} {s s' : Files} {op : Op}
    (h : Records s) (hs : step a base mem s op = some s') : Records s' := by
  cases op with
  | opens t fname =>
    simp only [step, Option.map_eq_some_iff] at hs
    obtain ⟨⟨r, d⟩, hopen, rfl⟩ := hs
    rcases sysOpen_cases hopen with ⟨-, rfl⟩ | ⟨_, start, i, -, -, -, -, rfl⟩
    · exact h
    · exact openFd_records h
  | reads t fd nBytes =>
    simp only [step, Option.some.injEq] at hs
    subst hs
    obtain ⟨-, hflags⟩ := sysRead_flags mem s t fd nBytes
    constructor
    · intro i
      rw [(sysRead_fixed mem s t fd nBytes i).1]
      exact h.own i
    · intro u i hi hopen
      rw [hflags] at hopen
      rw [(sysRead_fixed mem s t fd nBytes i).1]
      exact h.used u i hi hopen
  | closes t fd =>
    simp only [step, Option.some.injEq] at hs
    subst hs
    refine ⟨h.own, ?_⟩
    intro u i hi hopen
    refine h.used u i hi ?_
    simp only [sysClose, setFlag_apply] at hopen
    split at hopen
    · cases hopen
    · exact hopen
  | forks child =>
    simp only [step, Option.some.injEq] at hs
    subst hs
    refine ⟨h.own, ?_⟩
    intro u i hi hopen
    refine h.used u i hi ?_
    by_cases hu : u = child
    · subst hu
      simpa [forkFiles, standardFiles_le hi] using hopen
    · simpa [forkFiles, hu] using hopen

theorem run_records {a : List Byte} {base : Nat} {mem : Nat → Byte} {s : Files} {ops : List Op}
    (hr : Transition.run (step a base mem) Files.start ops = some s) : Records s :=
  Transition.run_invariant (step a base mem) (C := fun _ _ => True) (P := Records)
    (fun _ _ _ _ h hs => step_records h hs) start_records
    (Transition.along_of_forall _ (fun _ _ _ => trivial) _) hr

end FileTable
