import DeepOS.TaskTable
import DeepOS.Transition

/-!
# Scheduling operations

The timer's pass over the table, `switch_task`, and the calls that change a
task's status: `kfork`, `kexit`, `ksleep`, `kwaitpid` and `kexecvpe`. System
calls and the timer run with interrupts off, so each is one step; a step has no
result when the kernel spins because no slot is free or no task is ready.

Two components are not in the source's globals. `inWait` stands for the kernel
stack of a task that called `switch_task` inside `kwaitpid`: it holds the
argument of the unfinished call. `history` records forks, exits and the results
`kwaitpid` returned.
-/
namespace Scheduler

open TaskTable

def TICK_PER_SECOND : Int := 1

/-- `1000 * TICK_PER_SECOND/18`, in integer arithmetic. -/
def SCHEDULE_FREQUENCY : BitVec 32 := 55

def anyChild : Pid := -1

/-- The `while` loop over the list of children; the first argument bounds the
number of turns. -/
def zombieSearch (q : Queue) (timeAtWait : BitVec 32) : Nat → Option Slot → Option Slot
  | 0, _ => none
  | _ + 1, none => none
  | fuel + 1, some c =>
    if (q c).status ≠ .zombie ∧ (q c).endTime > timeAtWait then
      zombieSearch q timeAtWait fuel (q c).next
    else some c

def updateSleeping (q : Queue) (i : Slot) : Queue :=
  if (q i).status = .sleeping then
    let sleepingTime := (q i).sleepingTime - TICK_PER_SECOND
    if sleepingTime ≤ 0 then
      Function.update q i { q i with sleepingTime := 0, status := .ready }
    else Function.update q i { q i with sleepingTime := sleepingTime }
  else q

/-- `wait_task` and the table, whose `next` links `get_children` has rebuilt. -/
def waitTask (q : Queue) (i : Slot) : Option Slot × Queue :=
  if (q i).pidWaitingFor = anyChild then
    let children := getChildren q (q i).id
    (zombieSearch children.2 (children.2 i).timeAtWait (MAX_TASKS + 1) children.1, children.2)
  else (getTask q (q i).pidWaitingFor, q)

/-- The waiting task `i` takes the result of the zombie `c` and disowns it. -/
def reap (q : Queue) (i c : Slot) : Queue :=
  let q' := Function.update q i
    { q i with
      pidWaitingFor := (q c).id
      status := .ready
      waitingPidExitStatus := (q c).exitStatus }
  Function.update q' c { q' c with parent := none }

def updateWaiting (q : Queue) (i : Slot) : Queue :=
  if (q i).status = .waitingOnPid then
    match waitTask q i with
    | (some c, q') => if (q' c).status = .zombie then reap q' i c else q'
    | (none, q') => q'
  else q

def updateSlot (q : Queue) (i : Slot) : Queue := updateWaiting (updateSleeping q i) i

def updateWaitingAndSleepingTasks (q : Queue) : Queue := (List.finRange 100).foldl updateSlot q

inductive Event where
  | forked : Slot → Slot → Event
  | exited : Slot → BitVec 32 → Event
  | returned : Slot → Pid → Pid → BitVec 32 → Event
  deriving DecidableEq, Repr

structure Sched where
  readyQueue : Queue
  current : Slot
  nextPid : Pid
  timerTick : BitVec 32
  inWait : Slot → Option Pid
  history : List Event

/-- What runs on the stack of task `n` after `switch_task` has chosen it: the
bookkeeping of `switch_task` and, for a task inside `kwaitpid`, the rest of that
call, which reads its result from the task's own fields. -/
def resume (s : Sched) (n : Slot) : Sched :=
  let t := s.readyQueue n
  let s' := { s with
    current := n
    readyQueue := Function.update s.readyQueue n
      { t with
        newProc := false
        runTime := t.runTime + SCHEDULE_FREQUENCY
        runSessionsCount := t.runSessionsCount + 1 } }
  match s.inWait n with
  | some pid =>
    { s' with
      inWait := Function.update s.inWait n none
      history := .returned n pid t.pidWaitingFor t.waitingPidExitStatus :: s.history }
  | none => s'

def switchTask (s : Sched) : Option Sched :=
  (getNextReadyTask s.readyQueue (some s.current)).map (resume s)

def Sched.setCurrent (s : Sched) (t : Task) : Sched :=
  { s with readyQueue := Function.update s.readyQueue s.current t }

def Sched.currentTask (s : Sched) : Task := s.readyQueue s.current

def kfork (s : Sched) : Option Sched :=
  (getNextFreeTask s.readyQueue).map fun n =>
    { s with
      nextPid := s.nextPid + 1
      readyQueue := Function.update s.readyQueue n
        { s.readyQueue n with
          id := s.nextPid
          tempBuffer := s.currentTask.programName
          parent := some s.current
          newProc := true
          status := .ready
          programName := s.currentTask.programName }
      history := .forked s.current n :: s.history }

def kexit (s : Sched) (status : BitVec 32) : Option Sched :=
  switchTask
    { s.setCurrent { s.currentTask with
        exitStatus := status, status := .zombie, endTime := s.timerTick } with
      history := .exited s.current status :: s.history }

def ksleep (s : Sched) (time : BitVec 32) : Option Sched :=
  switchTask (s.setCurrent { s.currentTask with
    sleepingTime := ((time * 18).toNat : Int), status := .sleeping })

def kwaitpid (s : Sched) (pid : Pid) : Option Sched :=
  switchTask
    { s.setCurrent { s.currentTask with
        status := .waitingOnPid, pidWaitingFor := pid, timeAtWait := s.timerTick } with
      inWait := Function.update s.inWait s.current (some pid) }

/-- The scheduling side of `kexecvpe`: `found` is the outcome of the search for
the executable. The vectors that it stores into the record are in `ExecTable`. -/
def kexecvpe (s : Sched) (filename : String) (found : Bool) : Sched :=
  let t := { s.currentTask with tempBuffer := filename }
  if found then
    s.setCurrent { t with
      programName := t.tempBuffer
      runSessionsCount := t.runSessionsCount + 1
      runTime := t.runTime + SCHEDULE_FREQUENCY }
  else s.setCurrent t

/-- One timer interrupt. With `TICK_PER_SECOND` one every tick runs the pass. -/
def timerHandler (s : Sched) : Option Sched :=
  switchTask { s with
    timerTick := s.timerTick + 1
    readyQueue := updateWaitingAndSleepingTasks s.readyQueue }

inductive Op where
  | fork : Op
  | exit : BitVec 32 → Op
  | sleep : BitVec 32 → Op
  | waitpid : Pid → Op
  | exec : String → Bool → Op
  | tick : Op
  deriving DecidableEq, Repr

def step (s : Sched) : Op → Option Sched
  | .fork => kfork s
  | .exit status => kexit s status
  | .sleep time => ksleep s time
  | .waitpid pid => kwaitpid s pid
  | .exec filename found => some (kexecvpe s filename found)
  | .tick => timerHandler s

def initializeTasking : Sched where
  readyQueue := Function.update (fun i => { Task.zero with index := i.val }) 0
    { Task.zero with index := 0, id := 1, status := .ready, programName := "init" }
  current := 0
  nextPid := 2
  timerTick := 0
  inWait := fun _ => none
  history := []

/-- Nobody execs under the literal name of the idle task. -/
def Allowed (op : Op) : Prop := ∀ found, op ≠ .exec idleName found

/-- The states reached from boot by such runs; those with an exec under the name of the idle
task are left out. -/
def Reachable (s : Sched) : Prop :=
  ∃ ops, (∀ op ∈ ops, Allowed op) ∧ Transition.run step initializeTasking ops = some s

/-! ## The pass over one slot, without the `next` links -/

def core (t : Task) : Task := { t with next := none }

/-- Equality of tables up to the `next` fields. -/
def Agree (q q' : Queue) : Prop := ∀ i, core (q i) = core (q' i)

theorem Agree.refl (q : Queue) : Agree q q := fun _ => rfl
theorem Agree.symm {q q' : Queue} (h : Agree q q') : Agree q' q := fun i => (h i).symm
theorem Agree.trans {q q' q'' : Queue} (h : Agree q q') (h' : Agree q' q'') : Agree q q'' :=
  fun i => (h i).trans (h' i)

theorem field_of_core {β : Type} {t t' : Task} (h : core t = core t') (f : Task → β)
    (hf : ∀ t, f (core t) = f t) : f t = f t' := by
  rw [← hf t, ← hf t', h]

theorem Agree.field {β : Type} {q q' : Queue} (h : Agree q q') (f : Task → β)
    (hf : ∀ t, f (core t) = f t) (i : Slot) : f (q i) = f (q' i) := field_of_core (h i) f hf

theorem Agree.status {q q' : Queue} (h : Agree q q') (i : Slot) : (q i).status = (q' i).status :=
  h.field Task.status (fun _ => rfl) i
theorem Agree.id {q q' : Queue} (h : Agree q q') (i : Slot) : (q i).id = (q' i).id :=
  h.field Task.id (fun _ => rfl) i
theorem Agree.parent {q q' : Queue} (h : Agree q q') (i : Slot) : (q i).parent = (q' i).parent :=
  h.field Task.parent (fun _ => rfl) i
theorem Agree.endTime {q q' : Queue} (h : Agree q q') (i : Slot) : (q i).endTime = (q' i).endTime :=
  h.field Task.endTime (fun _ => rfl) i
theorem Agree.pidWaitingFor {q q' : Queue} (h : Agree q q') (i : Slot) :
    (q i).pidWaitingFor = (q' i).pidWaitingFor := h.field Task.pidWaitingFor (fun _ => rfl) i
theorem Agree.timeAtWait {q q' : Queue} (h : Agree q q') (i : Slot) :
    (q i).timeAtWait = (q' i).timeAtWait := h.field Task.timeAtWait (fun _ => rfl) i
theorem Agree.exitStatus {q q' : Queue} (h : Agree q q') (i : Slot) :
    (q i).exitStatus = (q' i).exitStatus := h.field Task.exitStatus (fun _ => rfl) i

/-- Updating the same slot by records that agree keeps two tables in agreement. -/
theorem Agree.update {q q' : Queue} (h : Agree q q') (i : Slot) {t t' : Task}
    (ht : core t = core t') : Agree (Function.update q i t) (Function.update q' i t') := by
  intro j
  by_cases hj : j = i
  · subst hj; simpa using ht
  · simpa [hj] using h j

theorem Agree.isChildOf {q q' : Queue} (h : Agree q q') (pid : Pid) (i : Slot) :
    IsChildOf q pid i ↔ IsChildOf q' pid i := by
  simp only [IsChildOf, h.parent, h.id]

theorem pushChild_agree (pid : Pid) (s : Option Slot × Queue) (i : Slot) :
    Agree (pushChild pid s i).2 s.2 := by
  intro j
  rw [pushChild]
  split
  · by_cases hj : j = i
    · subst hj; simp [core]
    · simp [hj]
  · rfl

/-- The slots of a list threaded through the `next` fields. -/
def IsList (q : Queue) : Option Slot → List Slot → Prop
  | none, [] => True
  | some c, d :: l => c = d ∧ IsList q (q c).next l
  | _, _ => False

/-- Relinking a slot that is not on the list leaves the list alone. -/
theorem isList_update {q : Queue} {head : Option Slot} {l : List Slot} {i : Slot} (t : Task)
    (hi : i ∉ l) (h : IsList q head l) : IsList (Function.update q i t) head l := by
  induction l generalizing head with
  | nil => cases head with
    | none => trivial
    | some c => exact h
  | cons d l ih => cases head with
    | none => exact h
    | some c =>
      obtain ⟨rfl, h⟩ := h
      have hci : c ≠ i := by rintro rfl; exact hi (List.mem_cons_self ..)
      refine ⟨rfl, ?_⟩
      rw [Function.update_of_ne hci]
      exact ih (fun hm => hi (List.mem_cons_of_mem c hm)) h

def children (q : Queue) (pid : Pid) : List Slot :=
  ((List.finRange 100).filter (fun i => IsChildOf q pid i)).reverse

theorem foldl_pushChild (pid : Pid) (is : List Slot) (hnd : is.Nodup) (s : Option Slot × Queue)
    (l : List Slot) (hl : IsList s.2 s.1 l) (hdis : ∀ i ∈ is, i ∉ l) :
    Agree (is.foldl (pushChild pid) s).2 s.2 ∧
    IsList (is.foldl (pushChild pid) s).2 (is.foldl (pushChild pid) s).1
      ((is.filter (fun i => IsChildOf s.2 pid i)).reverse ++ l) := by
  induction is generalizing s l with
  | nil => exact ⟨Agree.refl _, by simpa using hl⟩
  | cons i is ih =>
    obtain ⟨hi, hnd⟩ := List.nodup_cons.mp hnd
    have hil : i ∉ l := hdis i (List.mem_cons_self ..)
    have hagree := pushChild_agree pid s i
    have hfilter : is.filter (fun j => IsChildOf (pushChild pid s i).2 pid j) =
        is.filter (fun j => IsChildOf s.2 pid j) := by
      apply List.filter_congr
      intro j _
      rw [decide_eq_decide]
      exact hagree.isChildOf pid j
    rw [List.foldl_cons]
    by_cases hc : IsChildOf s.2 pid i
    · have hlist : IsList (pushChild pid s i).2 (pushChild pid s i).1 (i :: l) := by
        rw [pushChild, if_pos hc]
        refine ⟨rfl, ?_⟩
        simp only [Function.update_self]
        exact isList_update _ hil hl
      obtain ⟨h₁, h₂⟩ := ih hnd _ (i :: l) hlist (by
        intro j hj hmem
        rcases List.mem_cons.mp hmem with rfl | hmem
        · exact hi hj
        · exact hdis j (List.mem_cons_of_mem i hj) hmem)
      refine ⟨h₁.trans hagree, ?_⟩
      rw [hfilter] at h₂
      simpa [List.filter_cons, hc] using h₂
    · have hsame : pushChild pid s i = s := if_neg hc
      rw [hsame]
      obtain ⟨h₁, h₂⟩ := ih hnd s l hl (fun j hj => hdis j (List.mem_cons_of_mem i hj))
      refine ⟨h₁, ?_⟩
      simpa [List.filter_cons, hc] using h₂

theorem getChildren_spec (q : Queue) (pid : Pid) :
    Agree (getChildren q pid).2 q ∧
    IsList (getChildren q pid).2 (getChildren q pid).1 (children q pid) := by
  have h := foldl_pushChild pid (List.finRange 100) (List.nodup_finRange 100) (none, q) []
    trivial (by simp)
  simpa [getChildren, children] using h

/-- The `while` loop returns the first slot of the list it does not skip. -/
theorem zombieSearch_eq (q : Queue) (time : BitVec 32) (fuel : Nat) (head : Option Slot)
    (l : List Slot) (hl : IsList q head l) (hfuel : l.length < fuel) :
    zombieSearch q time fuel head =
      l.find? (fun c => ¬ ((q c).status ≠ .zombie ∧ (q c).endTime > time)) := by
  induction fuel generalizing head l with
  | zero => omega
  | succ fuel ih =>
    cases l with
    | nil => cases head with
      | none => rfl
      | some c => exact hl.elim
    | cons d l => cases head with
      | none => exact hl.elim
      | some c =>
        obtain ⟨rfl, hl⟩ := hl
        rw [List.length_cons] at hfuel
        rw [zombieSearch, List.find?_cons]
        by_cases hskip : (q c).status ≠ .zombie ∧ (q c).endTime > time
        · rw [if_pos hskip, ih _ l hl (by omega)]
          simp [hskip]
        · rw [if_neg hskip]
          simp [hskip]

/-- The task a waiting slot looks at, computed on the table alone. -/
def target (q : Queue) (i : Slot) : Option Slot :=
  if (q i).pidWaitingFor = anyChild then
    (children q (q i).id).find?
      (fun c => ¬ ((q c).status ≠ .zombie ∧ (q c).endTime > (q i).timeAtWait))
  else getTask q (q i).pidWaitingFor

theorem children_length (q : Queue) (pid : Pid) : (children q pid).length < MAX_TASKS + 1 := by
  have hlen : (List.finRange 100).length = MAX_TASKS := List.length_finRange
  rw [children, List.length_reverse, ← hlen]
  exact Nat.lt_succ_of_le (List.length_filter_le _ _)

theorem waitTask_spec (q : Queue) (i : Slot) :
    (waitTask q i).1 = target q i ∧ Agree (waitTask q i).2 q := by
  rw [waitTask, target]
  by_cases hany : (q i).pidWaitingFor = anyChild
  · have hspec := getChildren_spec q (q i).id
    rw [if_pos hany, if_pos hany]
    generalize getChildren q (q i).id = r at hspec ⊢
    obtain ⟨hagree, hlist⟩ := hspec
    refine ⟨?_, hagree⟩
    simp only [zombieSearch_eq _ _ _ _ _ hlist (children_length q (q i).id), hagree.status,
      hagree.endTime, hagree.timeAtWait]
  · rw [if_neg hany, if_neg hany]
    exact ⟨rfl, Agree.refl q⟩

/-- The effect of the pass on one slot, up to the `next` fields. -/
def slotEffect (q : Queue) (i : Slot) : Queue :=
  match (q i).status with
  | .sleeping => updateSleeping q i
  | .waitingOnPid =>
    match target q i with
    | some c => if (q c).status = .zombie then reap q i c else q
    | none => q
  | _ => q

theorem core_congr {t t' : Task} (f : Task → Task) (hf : ∀ t, core (f t) = core (f (core t)))
    (h : core t = core t') : core (f t) = core (f t') := by
  rw [hf t, hf t', h]

theorem Agree.reap {q q' : Queue} (h : Agree q q') (i c : Slot) :
    Agree (Scheduler.reap q i c) (Scheduler.reap q' i c) := by
  have h₁ : Agree
      (Function.update q i { q i with
        pidWaitingFor := (q c).id, status := .ready, waitingPidExitStatus := (q c).exitStatus })
      (Function.update q' i { q' i with
        pidWaitingFor := (q' c).id, status := .ready, waitingPidExitStatus := (q' c).exitStatus }) := by
    rw [← h.id c, ← h.exitStatus c]
    exact h.update i (core_congr (fun t => { t with
      pidWaitingFor := (q c).id, status := .ready, waitingPidExitStatus := (q c).exitStatus })
      (fun _ => rfl) (h i))
  exact h₁.update c (core_congr (fun t => { t with parent := none }) (fun _ => rfl) (h₁ c))

theorem updateSlot_agree (q : Queue) (i : Slot) : Agree (updateSlot q i) (slotEffect q i) := by
  rw [updateSlot, slotEffect]
  cases hs : (q i).status with
  | sleeping =>
    have hnot : (updateSleeping q i i).status ≠ .waitingOnPid := by
      rw [updateSleeping, if_pos hs]
      split <;> simp [hs]
    simp only [updateWaiting, if_neg hnot]
    exact Agree.refl _
  | waitingOnPid =>
    have hsame : updateSleeping q i = q := if_neg (by simp [hs])
    obtain ⟨hfst, hagree⟩ := waitTask_spec q i
    rw [hsame, updateWaiting, if_pos hs]
    rcases hw : waitTask q i with ⟨w, q'⟩
    rw [hw] at hfst hagree
    simp only at hfst hagree
    rw [← hfst]
    cases w with
    | none => exact hagree
    | some c =>
      simp only [hagree.status c]
      split
      · exact hagree.reap i c
      · exact hagree
  | free | ready | zombie =>
    have hsame : updateSleeping q i = q := if_neg (by simp [hs])
    rw [hsame, updateWaiting, if_neg (by simp [hs])]
    exact Agree.refl q

/-- Everything the pass can do to one slot: nothing, count its sleep down, or
hand it the result of the zombie it looks at. -/
theorem slotEffect_cases (q : Queue) (i : Slot) :
    ((q i).status ≠ .sleeping ∧ slotEffect q i = q ∧
      ((q i).status = .waitingOnPid → ∀ c, target q i = some c → (q c).status ≠ .zombie)) ∨
    ((q i).status = .sleeping ∧ ∃ n st, (st = .ready ∨ st = .sleeping) ∧
      slotEffect q i = Function.update q i { q i with sleepingTime := n, status := st }) ∨
    ((q i).status = .waitingOnPid ∧ ∃ c, target q i = some c ∧ (q c).status = .zombie ∧
      slotEffect q i = reap q i c) := by
  cases hs : (q i).status with
  | sleeping =>
    refine Or.inr (Or.inl ⟨rfl, ?_⟩)
    simp only [slotEffect, hs, updateSleeping, if_true]
    split
    · exact ⟨0, .ready, Or.inl rfl, rfl⟩
    · exact ⟨(q i).sleepingTime - TICK_PER_SECOND, .sleeping, Or.inr rfl, by simp [← hs]⟩
  | waitingOnPid =>
    cases ht : target q i with
    | none => exact Or.inl ⟨by decide, by simp [slotEffect, hs, ht], by simp⟩
    | some c =>
      by_cases hz : (q c).status = .zombie
      · exact Or.inr (Or.inr ⟨rfl, c, rfl, hz, by simp [slotEffect, hs, ht, hz]⟩)
      · refine Or.inl ⟨by decide, by simp [slotEffect, hs, ht, hz], ?_⟩
        intro _ d hd
        rw [← Option.some.inj hd]
        exact hz
  | free | ready | zombie =>
    exact Or.inl ⟨by decide, by simp [slotEffect, hs], by simp⟩

theorem mem_children {q : Queue} {pid : Pid} {c : Slot} :
    c ∈ children q pid ↔ IsChildOf q pid c := by
  simp [children]

/-- A task waiting with `-1` looks at one of its children. -/
theorem target_child {q : Queue} {i c : Slot} (hany : (q i).pidWaitingFor = anyChild)
    (h : target q i = some c) : IsChildOf q (q i).id c := by
  rw [target, if_pos hany] at h
  exact mem_children.mp (List.mem_of_find?_eq_some h)

/-- A task waiting for a pid looks at the task with that id. -/
theorem target_id {q : Queue} {i c : Slot} (hany : (q i).pidWaitingFor ≠ anyChild)
    (h : target q i = some c) : (q c).id = (q i).pidWaitingFor := by
  rw [target, if_neg hany, getTask] at h
  simpa using List.find?_some h

end Scheduler
