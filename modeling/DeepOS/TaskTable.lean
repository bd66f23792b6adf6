import Mathlib
import DeepOS.RoundRobin

/-!
# The task table

The scheduling fields of `task_t` and the searches of `sys/task.c` over the
array `ready_queue`. A pointer into the array is the slot it points at. The
memory fields of a task (its page tables, `vma` list and heap cursor) belong to
the memory manager and are modelled there.
-/
namespace TaskTable

open RoundRobin

abbrev Pid := BitVec 32

def MAX_TASKS : Nat := 100

abbrev Slot := Fin 100

instance neZero_slots : NeZero 100 := ⟨by decide⟩

inductive Status where
  | free | ready | waitingOnPid | sleeping | zombie
  deriving DecidableEq, Repr

structure Task where
  parent : Option Slot
  id : Pid
  newProc : Bool
  index : Nat
  programName : String
  tempBuffer : String
  exitStatus : BitVec 32
  waitingPidExitStatus : BitVec 32
  status : Status
  sleepingTime : Int
  pidWaitingFor : Pid
  timeAtWait : BitVec 32
  endTime : BitVec 32
  runTime : BitVec 32
  runSessionsCount : BitVec 32
  next : Option Slot
  deriving DecidableEq, Repr

def Task.zero : Task where
  parent := none
  id := 0
  newProc := false
  index := 0
  programName := ""
  tempBuffer := ""
  exitStatus := 0
  waitingPidExitStatus := 0
  status := .free
  sleepingTime := 0
  pidWaitingFor := 0
  timeAtWait := 0
  endTime := 0
  runTime := 0
  runSessionsCount := 0
  next := none

abbrev Queue := Slot → Task

/-- The name by which the scheduler recognises the idle task. -/
def idleName : String := "bin/idle"

/-- The scan of `get_next_ready_task` over the remaining offsets, with the idle
task met so far. The source spins when neither a ready nor an idle task is
found, which is the result `none`. -/
def readyScan (q : Queue) (startIdx : Nat) : List Nat → Option Slot → Option Slot
  | [], idle => idle
  | i :: is, idle =>
    let task := slot 100 (startIdx + i)
    if (q task).programName = idleName then readyScan q startIdx is (some task)
    else if (q task).status = .ready then some task
    else readyScan q startIdx is idle

def startIdx (q : Queue) : Option Slot → Nat
  | some current => (q current).index + 1
  | none => 0

def getNextReadyTask (q : Queue) (current : Option Slot) : Option Slot :=
  readyScan q (startIdx q current) (List.range MAX_TASKS) none

/-- The first free slot; the source spins when there is none. -/
def getNextFreeTask (q : Queue) : Option Slot :=
  (List.finRange 100).find? (fun i => (q i).status = .free)

def IsChildOf (q : Queue) (pid : Pid) (i : Slot) : Prop :=
  ∃ p, (q i).parent = some p ∧ (q p).id = pid

instance (q : Queue) (pid : Pid) (i : Slot) : Decidable (IsChildOf q pid i) :=
  match h : (q i).parent with
  | none => isFalse (by rintro ⟨p, hp, -⟩; rw [h] at hp; cases hp)
  | some p =>
    if hid : (q p).id = pid then isTrue ⟨p, h, hid⟩
    else isFalse (by rintro ⟨p', hp', hid'⟩; rw [h] at hp'; cases hp'; exact hid hid')

/-- One turn of the loop of `get_children`: a child is pushed in front of the
list threaded through the `next` fields. -/
def pushChild (pid : Pid) (s : Option Slot × Queue) (i : Slot) : Option Slot × Queue :=
  if IsChildOf s.2 pid i then
    (some i, Function.update s.2 i { s.2 i with next := s.1 })
  else s

def getChildren (q : Queue) (pid : Pid) : Option Slot × Queue :=
  (List.finRange 100).foldl (pushChild pid) (none, q)

def getTask (q : Queue) (pid : Pid) : Option Slot :=
  (List.finRange 100).find? (fun i => (q i).id = pid)

/-! ## Round-robin selection -/

/-- The slots the scan may return without looking further. -/
def Eligible (q : Queue) (i : Slot) : Prop := (q i).programName ≠ idleName ∧ (q i).status = .ready

instance (q : Queue) (i : Slot) : Decidable (Eligible q i) := inferInstanceAs (Decidable (_ ∧ _))

/-- The scan stops at the first eligible slot. -/
theorem readyScan_eligible (q : Queue) (start : Nat) (is : List Nat) (idle : Option Slot) {i : Nat}
    (h : is.find? (fun i => Eligible q (slot 100 (start + i))) = some i) :
    readyScan q start is idle = some (slot 100 (start + i)) := by
  induction is generalizing idle with
  | nil => simp at h
  | cons j js ih =>
    rw [List.find?_cons] at h
    rw [readyScan]
    by_cases hname : (q (slot 100 (start + j))).programName = idleName
    · have hnot : ¬ Eligible q (slot 100 (start + j)) := fun he => he.1 hname
      simp only [hnot, decide_false] at h
      simp only [hname, if_true]
      exact ih _ h
    · by_cases hready : (q (slot 100 (start + j))).status = .ready
      · have he : Eligible q (slot 100 (start + j)) := ⟨hname, hready⟩
        simp only [he, decide_true, Option.some.injEq] at h
        subst h
        simp only [hname, if_false, hready, if_true]
      · have hnot : ¬ Eligible q (slot 100 (start + j)) := fun he => hready he.2
        simp only [hnot, decide_false] at h
        simp only [hname, if_false, hready]
        exact ih _ h

/-- Without an eligible slot only an idle task can come back. -/
theorem readyScan_idle (q : Queue) (start : Nat) (is : List Nat) (idle : Option Slot)
    (h : ∀ i ∈ is, ¬ Eligible q (slot 100 (start + i))) {s : Slot}
    (hs : readyScan q start is idle = some s) :
    (q s).programName = idleName ∨ idle = some s := by
  induction is generalizing idle with
  | nil => exact Or.inr hs
  | cons j js ih =>
    have hjs : ∀ i ∈ js, ¬ Eligible q (slot 100 (start + i)) :=
      fun i hi => h i (List.mem_cons_of_mem j hi)
    have hj := h j (List.mem_cons_self ..)
    rw [readyScan] at hs
    by_cases hname : (q (slot 100 (start + j))).programName = idleName
    · simp only [hname, if_true] at hs
      rcases ih _ hjs hs with h' | h'
      · exact Or.inl h'
      · cases h'
        exact Or.inl hname
    · have hready : (q (slot 100 (start + j))).status ≠ .ready := fun hr => hj ⟨hname, hr⟩
      simp only [hname, if_false, hready] at hs
      exact ih _ hjs hs

/-- Every slot is among the hundred a scan visits. -/
theorem exists_offset (start : Nat) (t : Slot) : ∃ i < MAX_TASKS, slot 100 (start + i) = t :=
  ⟨gap start t, gap_lt start t, slot_gap start t⟩

/-- With no task called `bin/idle` in the table, what is selected is ready. -/
theorem getNextReadyTask_ready {q : Queue} {current : Option Slot} {s : Slot}
    (hname : ∀ i, (q i).programName ≠ idleName) (h : getNextReadyTask q current = some s) :
    (q s).status = .ready := by
  rcases hf : (List.range MAX_TASKS).find?
      (fun i => Eligible q (slot 100 (startIdx q current + i))) with _ | i
  · have hnone : ∀ i ∈ List.range MAX_TASKS, ¬ Eligible q (slot 100 (startIdx q current + i)) := by
      simpa using hf
    rcases readyScan_idle q _ _ none hnone h with h' | h'
    · exact absurd h' (hname s)
    · cases h'
  · have hsel := readyScan_eligible q _ _ none hf
    rw [getNextReadyTask, hsel] at h
    cases h
    have he := List.find?_some hf
    simp only [decide_eq_true_eq] at he
    exact he.2

/-- A scan that can reach the eligible slot `t` returns a slot no later than `t`. -/
theorem getNextReadyTask_le (q : Queue) (current : Option Slot) {t : Slot} (ht : Eligible q t) :
    ∃ i ≤ gap (startIdx q current) t,
      getNextReadyTask q current = some (slot 100 (startIdx q current + i)) := by
  have hgap : gap (startIdx q current) t < MAX_TASKS := gap_lt _ t
  have hreach : Eligible q (slot 100 (startIdx q current + gap (startIdx q current) t)) := by
    rw [slot_gap]
    exact ht
  have hne : (List.range MAX_TASKS).find?
      (fun i => Eligible q (slot 100 (startIdx q current + i))) ≠ none := by
    intro hnone
    rw [List.find?_eq_none] at hnone
    exact hnone _ (List.mem_range.mpr hgap) (by simpa using hreach)
  obtain ⟨i, hi⟩ := Option.ne_none_iff_exists'.mp hne
  refine ⟨i, ?_, readyScan_eligible q _ _ none hi⟩
  rw [List.find?_range_eq_some] at hi
  by_contra hlt
  exact absurd hreach (by simpa using hi.2.2 _ (by omega))

/-- Successive selections, each made on the table as it is at that moment with
the task selected before as the current one. -/
def selections : Option Slot → List Queue → Option (List Slot)
  | _, [] => some []
  | current, q :: qs =>
    (getNextReadyTask q current).bind fun s => (selections (some s) qs).map (s :: ·)

/-- The positions a table gives to its slots. -/
def IndexIsPosition (q : Queue) : Prop := ∀ i, (q i).index = i.val

/-- Until `t` is selected the selections pass it by, in the sense of the circle. -/
theorem selections_pass (qs : List Queue) (t : Slot) (hpos : ∀ q ∈ qs, IndexIsPosition q)
    (ht : ∀ q ∈ qs, Eligible q t) (current : Option Slot) (start : Nat)
    (hstart : ∀ q ∈ qs.head?, startIdx q current = start) :
    ∃ ss, selections current qs = some ss ∧ Passes t start (ss.takeWhile (fun s => s ≠ t)) := by
  induction qs generalizing current start with
  | nil => exact ⟨[], rfl, trivial⟩
  | cons q qs ih =>
    have hs : startIdx q current = start := hstart q (by simp)
    obtain ⟨i, hi, hsel⟩ := getNextReadyTask_le q current (ht q (List.mem_cons_self ..))
    rw [hs] at hi hsel
    have hnext : ∀ q' ∈ qs.head?, startIdx q' (some (slot 100 (start + i))) =
        (slot 100 (start + i)).val + 1 := by
      intro q' hq'
      have hmem : q' ∈ qs := List.mem_of_mem_head? hq'
      rw [startIdx, hpos q' (List.mem_cons_of_mem q hmem)]
    obtain ⟨ss, hss, hpass⟩ := ih (fun q' hq' => hpos q' (List.mem_cons_of_mem q hq'))
      (fun q' hq' => ht q' (List.mem_cons_of_mem q hq')) _ _ hnext
    refine ⟨slot 100 (start + i) :: ss, by simp [selections, hsel, hss], ?_⟩
    by_cases hst : slot 100 (start + i) = t
    · simp [hst, Passes]
    · have hlt : i < gap start t := by
        rcases Nat.lt_or_ge i (gap start t) with h | h
        · exact h
        · rw [show i = gap start t by omega, slot_gap] at hst
          exact absurd rfl hst
      simp only [List.takeWhile_cons, ne_eq, hst, not_false_eq_true, decide_true, if_true]
      exact ⟨⟨i, hlt, rfl⟩, hpass⟩

/-- While a task stays ready no other task is selected twice before it, however
the other slots change between the selections. -/
theorem round_robin_no_double_overtake (qs : List Queue) (t : Slot) (current : Option Slot)
    (hpos : ∀ q ∈ qs, IndexIsPosition q)
    (hready : ∀ q ∈ qs, (q t).programName ≠ idleName ∧ (q t).status = .ready) :
    ∃ ss, selections current qs = some ss ∧ (ss.takeWhile (fun s => s ≠ t)).Nodup := by
  obtain ⟨ss, hss, hpass⟩ := selections_pass qs t hpos hready current
    (match current with | some c => c.val + 1 | none => 0)
    (by
      intro q hq
      have hmem : q ∈ qs := List.mem_of_mem_head? hq
      cases current with
      | none => rfl
      | some c => rw [startIdx, hpos q hmem c])
  exact ⟨ss, hss, passes_nodup t _ _ hpass⟩

/-- Slots 1 and 3 are ready in every table; from slot 1 the third slot comes next. -/
theorem round_robin_no_double_overtake_two_ready :
    ∃ ss, selections (some 1) (List.replicate 3 (fun i =>
        { Task.zero with index := i.val, status := if i = 1 ∨ i = 3 then .ready else .free })) = some ss ∧
      (ss.takeWhile (fun s => s ≠ 3)).Nodup := by
  apply round_robin_no_double_overtake
  · intro q hq i
    rw [(List.mem_replicate.mp hq).2]
  · intro q hq
    rw [(List.mem_replicate.mp hq).2]
    decide

end TaskTable
