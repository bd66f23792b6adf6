import DeepOS.CString
import DeepOS.PhyMem
import DeepOS.TaskTable

/-!
# The record of a task

`kexecvpe` puts pointers into `argv` and `envp` and a name into `temp_buffer`, and `kfork`
pointers into `envp` of the child, with no look at the sizes of these arrays. What does not
fit goes over the fields of `task_t` behind them, byte by byte.
-/
namespace TaskRecord

open CString TaskTable
open PhyMem (Word)

/-! ## The layout -/

inductive Field where
  | tempBuffer | argc | argv | envp | path | pwd
  | exitStatus | waitingPidExitStatus | status | sleepingTime | pidWaitingFor | timeAtWait | endTime | runTime
  | justExecd | vmaStart (i : Nat) | vmaEnd (i : Nat) | vmaNext (i : Nat)
  | heapEnd | curPtr | runSessionsCount | rsp | tssRsp | uRsp | pml4e
  | padding
  deriving DecidableEq, Repr

/-! The fields from `temp_buffer` to `pml4e` with their sizes, and what the compiler leaves
between them to align the next one. -/

def arrays : List (Field × Nat) :=
  [(.tempBuffer, 64), (.padding, 2), (.argc, 4), (.padding, 4), (.argv, 32 * 8), (.envp, 32 * 8), (.path, 32 * 8),
    (.pwd, 128)]

def exitFields : List (Field × Nat) := [(.exitStatus, 4), (.waitingPidExitStatus, 4)]

def fieldsBehind : List (Field × Nat) :=
  [(.status, 1), (.padding, 7), (.sleepingTime, 8), (.pidWaitingFor, 4), (.timeAtWait, 4), (.endTime, 4), (.runTime, 4),
    (.justExecd, 4), (.padding, 4)] ++
  (List.range 100).flatMap (fun i => [(.vmaStart i, 8), (.vmaEnd i, 8), (.vmaNext i, 8)]) ++
  [(.heapEnd, 8), (.curPtr, 8), (.runSessionsCount, 4), (.padding, 4), (.rsp, 8), (.tssRsp, 8), (.uRsp, 8), (.pml4e, 8)]

def layout : List (Field × Nat) := arrays ++ (exitFields ++ fieldsBehind)

def fieldAt : List (Field × Nat) → Nat → Option (Field × Nat)
  | [], _ => none
  | (f, size) :: rest, off => if off < size then some (f, off) else fieldAt rest (off - size)

/-! Offsets are counted from `temp_buffer`. -/

def TEMP_BUFFER : Nat := 0
def ARGC : Nat := 66
def ARGV : Nat := 74
def ENVP : Nat := 330
def EXIT_STATUS : Nat := 970
def STATUS : Nat := 978
def VMA : Nat := 1018

example : fieldAt layout ARGC = some (.argc, 0) ∧ fieldAt layout ARGV = some (.argv, 0) ∧
    fieldAt layout ENVP = some (.envp, 0) ∧ fieldAt layout EXIT_STATUS = some (.exitStatus, 0) ∧
    fieldAt layout STATUS = some (.status, 0) ∧ fieldAt layout VMA = some (.vmaStart 0, 0) := by decide

def extent (l : List (Field × Nat)) : Nat := (l.map Prod.snd).sum

theorem fieldAt_append (l l' : List (Field × Nat)) (off : Nat) :
    fieldAt (l ++ l') off = if off < extent l then fieldAt l off else fieldAt l' (off - extent l) := by
  induction l generalizing off with
  | nil => rfl
  | cons e l ih =>
    obtain ⟨f, size⟩ := e
    have hsize : extent ((f, size) :: l) = size + extent l := rfl
    rw [List.cons_append, fieldAt, fieldAt, hsize, ih]
    split_ifs
    all_goals first | rfl | omega | rw [Nat.sub_sub]

theorem fieldAt_mem (l : List (Field × Nat)) {off : Nat} (h : off < extent l) :
    ∃ f i, fieldAt l off = some (f, i) ∧ f ∈ l.map Prod.fst := by
  induction l generalizing off with
  | nil => exact absurd h (Nat.not_lt_zero _)
  | cons e l ih =>
    obtain ⟨f, size⟩ := e
    have hsize : extent ((f, size) :: l) = size + extent l := rfl
    rw [fieldAt]
    split
    · exact ⟨f, off, rfl, List.mem_cons_self⟩
    · have hrest : off - size < extent l := by omega
      obtain ⟨g, i, hg, hmem⟩ := ih hrest
      exact ⟨g, i, hg, List.mem_cons_of_mem _ hmem⟩

/-- In front of `exit_status` there are only the arrays. -/
theorem fieldAt_arrays {off : Nat} (h : off < EXIT_STATUS) :
    ∃ f i, fieldAt layout off = some (f, i) ∧ f ∈ arrays.map Prod.fst := by
  have hsize : off < extent arrays := h
  rw [layout, fieldAt_append, if_pos hsize]
  exact fieldAt_mem arrays hsize

theorem fieldAt_exit {off : Nat} (h : EXIT_STATUS ≤ off) (h' : off < STATUS) :
    ∃ f i, fieldAt layout off = some (f, i) ∧ f ∈ exitFields.map Prod.fst := by
  have hsize : ¬ off < extent arrays := not_lt.mpr h
  have hexit : off - extent arrays < extent exitFields := by
    have harrays : extent arrays = 970 := rfl
    have hfields : extent exitFields = 8 := rfl
    rw [STATUS] at h'
    omega
  rw [layout, fieldAt_append, if_neg hsize, fieldAt_append, if_pos hexit]
  exact fieldAt_mem exitFields hexit

/-! ## Stores -/

/-- The byte `i` of a field, the lowest one first, is replaced. -/
def putByte {n : Nat} (w : BitVec n) (i : Nat) (b : Byte) : BitVec n :=
  (w &&& ~~~((0xFF : BitVec n) <<< (8 * i))) ||| (b.setWidth n <<< (8 * i))

def bytesOf (w : Word) : List Byte := (List.range 8).map fun i => (w >>> (8 * i)).setWidth 8

def statusOf (b : Byte) : Option Status :=
  if b = 0 then some .free else if b = 1 then some .ready else if b = 2 then some .waitingOnPid
  else if b = 3 then some .sleeping else if b = 4 then some .zombie else none

section

variable {α : Type} (put : α → Field → Nat → Byte → Option α)

/-- Bytes are stored one behind the other; `put` says what a byte of a field means. -/
def storeBytes : Nat → List Byte → α → Option α
  | _, [], t => some t
  | off, b :: bs, t => do
    let (f, i) ← fieldAt layout off
    let t ← put t f i b
    storeBytes (off + 1) bs t

variable {put}

/-- What each store in front of `limit` keeps. -/
theorem storeBytes_keeps {P : α → Prop} {limit : Nat}
    (hput : ∀ off b t, off < limit → P t → ∃ f i t', fieldAt layout off = some (f, i) ∧ put t f i b = some t' ∧ P t')
    (bs : List Byte) : ∀ {off : Nat} {t : α}, off + bs.length ≤ limit → P t →
      ∃ t', storeBytes put off bs t = some t' ∧ P t' := by
  induction bs with
  | nil => exact fun _ h => ⟨_, rfl, h⟩
  | cons b bs ih =>
    intro off t hlen h
    rw [List.length_cons] at hlen
    have hnext : off + 1 + bs.length ≤ limit := by omega
    obtain ⟨f, i, t₁, hfield, hstore, h₁⟩ := hput off b t (by omega) h
    obtain ⟨t', hrest, h'⟩ := ih hnext h₁
    refine ⟨t', ?_, h'⟩
    simp only [storeBytes, bind, hfield, Option.bind_some, hstore, hrest]

end

def vectorBytes (ptrs : List Word) : List Byte := (ptrs ++ [0]).flatMap bytesOf

theorem length_bytesOf (w : Word) : (bytesOf w).length = 8 := rfl

theorem length_vectorBytes (ptrs : List Word) : (vectorBytes ptrs).length = 8 * (ptrs.length + 1) := by
  rw [vectorBytes, List.length_flatMap, List.map_congr_left fun w _ => length_bytesOf w, List.map_const', List.sum_replicate,
    List.length_append, List.length_singleton, smul_eq_mul, mul_comm]

end TaskRecord
