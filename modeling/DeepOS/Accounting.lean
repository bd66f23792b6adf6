import DeepOS.Fairness

/-!
# Counting tasks and time

What `ps` and the status bar show are counts over the table. Over a run they add up: the
tasks to the forks less the exits, the times to the number of times a task was started.
The same counts tell when the kernel comes to one of its endless loops.
-/
namespace Accounting

open TaskTable Scheduler TaskInvariant Transition Fairness
open FileOwnership (Live live_wait switch_setCurrent_status)

instance (q : Queue) (i : Slot) : Decidable (Live q i) := inferInstanceAs (Decidable (_ ∧ _))

def numtasks (q : Queue) : Nat := (List.finRange 100).countP fun i => Live q i

/-- The slots for which `kps` prints a line, in the order of the lines. -/
def kps (q : Queue) : List Slot := (List.finRange 100).filter fun i => Live q i

def isExit : Op → Bool
  | .exit _ => true
  | _ => false

def starts : Op → Bool
  | .exec _ found => found
  | op => switches op

/-! ## The tasks -/

theorem countP_finRange {n : Nat} (p : Fin n → Prop) [DecidablePred p] :
    (List.finRange n).countP (fun i => p i) = (Finset.univ.filter p).card := by
  rw [List.countP_eq_length_filter]
  rfl

theorem numtasks_eq (q : Queue) : numtasks q = (Finset.univ.filter (Live q)).card := countP_finRange (Live q)

theorem numtasks_congr {q q' : Queue} (h : ∀ i, Live q' i ↔ Live q i) : numtasks q' = numtasks q := by
  simp only [numtasks, h]

theorem numtasks_fork {s s' : Sched} (h : SchedInv s) (hs : kfork s = some s') :
    numtasks s'.readyQueue = numtasks s.readyQueue + 1 := by
  obtain ⟨m, hm, rfl⟩ := kfork_cases h hs
  have hfree := (h.table.unused m (by omega)).1
  have hset : Finset.univ.filter (Live (Function.update s.readyQueue m (forkedTask s m))) =
      insert m (Finset.univ.filter (Live s.readyQueue)) := by
    ext i
    rw [Finset.mem_insert, Finset.mem_filter, Finset.mem_filter]
    by_cases hi : i = m
    · subst hi
      simp [Live, forkedTask]
    · simp [Live, hi]
  rw [numtasks_eq, numtasks_eq, hset, Finset.card_insert_of_notMem]
  simp [Live, hfree]

theorem numtasks_exit {s s' : Sched} {status : BitVec 32} (h : SchedInv s) (hs : kexit s status = some s') :
    numtasks s'.readyQueue + 1 = numtasks s.readyQueue := by
  have hstatus := switch_setCurrent_status (s := s) (t := { s.setCurrent { s.currentTask with
      exitStatus := status, status := .zombie, endTime := s.timerTick } with
    history := .exited s.current status :: s.history }) rfl hs
  have hset : Finset.univ.filter (Live s'.readyQueue) = (Finset.univ.filter (Live s.readyQueue)).erase s.current := by
    ext i
    rw [Finset.mem_erase, Finset.mem_filter, Finset.mem_filter, Live, hstatus i]
    by_cases hi : i = s.current
    · simp [hi]
    · simp [hi, Live]
  have hmem : s.current ∈ Finset.univ.filter (Live s.readyQueue) := by
    simp [Live, h.current]
  rw [numtasks_eq, numtasks_eq, hset, Finset.card_erase_add_one hmem]

/-- What one operation does to the number of tasks and to `next_pid`. -/
theorem step_counts {s s' : Sched} {op : Op} (h : SchedInv s) (hs : step s op = some s') :
    numtasks s'.readyQueue + [op].countP isExit = numtasks s.readyQueue + [op].count .fork ∧
    s'.nextPid.toNat = s.nextPid.toNat + [op].count .fork := by
  have hswitch : ∀ {u : Sched}, switchTask u = some s' → u.nextPid = s.nextPid → s'.nextPid.toNat = s.nextPid.toNat := by
    intro u hsw hu
    obtain ⟨c, -, rfl⟩ := Option.map_eq_some_iff.mp hsw
    rw [resume_nextPid, hu]
  cases op with
  | fork =>
    have hpids := (fork_inv h hs).pids
    refine ⟨numtasks_fork h hs, ?_⟩
    obtain ⟨m, hm, rfl⟩ := kfork_cases h hs
    have hm' := m.isLt
    rw [BitVec.toNat_add]
    simp
    omega
  | exit status => exact ⟨numtasks_exit h hs, hswitch hs rfl⟩
  | sleep time =>
    exact ⟨numtasks_congr (live_wait h (.sleep time) (Or.inl ⟨time, rfl⟩) hs), hswitch hs rfl⟩
  | waitpid pid =>
    exact ⟨numtasks_congr (live_wait h (.waitpid pid) (Or.inr (Or.inl ⟨pid, rfl⟩)) hs), hswitch hs rfl⟩
  | exec filename found =>
    obtain rfl := Option.some.inj hs
    refine ⟨numtasks_congr fun i => by rw [Live, Live, exec_status], ?_⟩
    rw [kexecvpe]
    split
    · rfl
    · rfl
  | tick =>
    refine ⟨numtasks_congr (live_wait h .tick (Or.inr (Or.inr rfl)) hs), ?_⟩
    simp only [step, timerHandler] at hs
    generalize updateWaitingAndSleepingTasks s.readyQueue = q at hs
    exact hswitch hs rfl

theorem numtasks_start : numtasks initializeTasking.readyQueue = 1 := by
  decide +kernel

/-- Over a run from boot the tasks are the forks less the exits, and `init`. -/
theorem run_counts {s : Sched} {ops : List Op} (hops : ∀ op ∈ ops, Allowed op)
    (hr : run step initializeTasking ops = some s) : SchedInv s ∧
      numtasks s.readyQueue + ops.countP isExit = 1 + ops.count .fork ∧
      s.nextPid.toNat = 2 + ops.count .fork := by
  refine run_loop step (P := fun done t => SchedInv t ∧
    numtasks t.readyQueue + done.countP isExit = 1 + done.count .fork ∧ t.nextPid.toNat = 2 + done.count .fork)
    ?_ ⟨initializeTasking_inv, by rw [numtasks_start]; rfl, rfl⟩ hr
  rintro done op rest t u hsplit ⟨hinv, htasks, hpid⟩ hs
  have hop : Allowed op := hops op (by rw [← hsplit]; simp)
  obtain ⟨htasks', hpid'⟩ := step_counts hinv hs
  rw [List.countP_append, List.count_append]
  exact ⟨(step_inv hinv hop hs).1, by omega, by omega⟩

theorem kps_ids {q : Queue} {n : Nat} (h : TableInv q n) : (kps q).Pairwise fun i j => (q i).id.toNat < (q j).id.toNat := by
  have hord : (kps q).Pairwise (fun i j : Slot => i < j) := (List.pairwise_lt_finRange 100).filter _
  refine hord.imp_of_mem ?_
  intro i j hi hj hlt
  have hlive : ∀ k ∈ kps q, (q k).status ≠ .free := by
    intro k hk
    rw [kps, List.mem_filter, decide_eq_true_eq] at hk
    exact hk.2.1
  rw [h.id_eq (hlive i hi), h.id_eq (hlive j hj), pidOf_toNat, pidOf_toNat]
  exact Nat.succ_lt_succ hlt

/-- After any run from boot the status bar's number of tasks is the number of forks less
the exits, counting `init`; `ps` prints a line for each of them, by ascending pid; and at
most 99 forks have been made. -/
theorem tasks_counted (s : Sched) (ops : List Op) (hops : ∀ op ∈ ops, Allowed op)
    (hr : run step initializeTasking ops = some s) :
    numtasks s.readyQueue + ops.countP isExit = 1 + ops.count .fork ∧
    (kps s.readyQueue).length = numtasks s.readyQueue ∧
    (∀ i, i ∈ kps s.readyQueue ↔ Live s.readyQueue i) ∧
    (kps s.readyQueue).Pairwise (fun i j => (s.readyQueue i).id.toNat < (s.readyQueue j).id.toNat) ∧
    s.nextPid.toNat = 2 + ops.count .fork ∧ ops.count .fork ≤ 99 := by
  obtain ⟨hinv, htasks, hpid⟩ := run_counts hops hr
  have hle := hinv.pids.2
  refine ⟨htasks, ?_, ?_, kps_ids hinv.table, hpid, by omega⟩
  · rw [kps, numtasks, List.countP_eq_length_filter]
  · intro i
    simp [kps]

/-- Two forks and an exit leave two tasks. -/
theorem tasks_counted_two : ∃ s, run step initializeTasking [.fork, .fork, .exit 3] = some s ∧
    numtasks s.readyQueue = 2 ∧ s.nextPid.toNat = 4 := by
  have hsome : (run step initializeTasking [.fork, .fork, .exit 3]).isSome := by
    decide +kernel
  obtain ⟨s, hs⟩ := Option.isSome_iff_exists.mp hsome
  obtain ⟨htasks, -, -, -, hpid, -⟩ := tasks_counted s [.fork, .fork, .exit 3] (by simp [Allowed]) hs
  have hexits : [Op.fork, .fork, .exit 3].countP isExit = 1 := by decide
  have hforks : [Op.fork, .fork, .exit 3].count .fork = 2 := by decide
  rw [hexits, hforks] at htasks
  exact ⟨s, hs, by omega, hpid.trans (by rw [hforks])⟩

/-! ## The endless loops -/

def leaves : Op → Bool
  | .exit _ => true
  | .sleep _ => true
  | .waitpid _ => true
  | _ => false

/-- `switch_task` comes to no end when there is nothing to run. -/
theorem switchTask_none_iff {s : Sched} : switchTask s = none ↔ ∀ i, ¬ Sleep.Runnable s.readyQueue i := by
  constructor
  · intro h i hi
    obtain ⟨s', hs'⟩ := Sleep.switchTask_some hi
    rw [h] at hs'
    cases hs'
  · intro h
    cases hs : switchTask s with
    | none => rfl
    | some s' => exact absurd (Sleep.switchTask_spec hs).1 (h s'.current)

/-- The running task is no longer ready. -/
theorem switch_leaves_iff {s u : Sched} {t : Task} (h : SchedInv s) (hu : u.readyQueue = (s.setCurrent t).readyQueue)
    (hname : t.programName = s.currentTask.programName) (hstatus : t.status ≠ .ready) :
    switchTask u = none ↔ ∀ i, i ≠ s.current → (s.readyQueue i).status ≠ .ready := by
  have hself : (s.setCurrent t).readyQueue s.current = t := Function.update_self ..
  have hother : ∀ i, i ≠ s.current → (s.setCurrent t).readyQueue i = s.readyQueue i := fun i hi =>
    Function.update_of_ne hi ..
  rw [switchTask_none_iff, hu]
  constructor
  · intro hnone i hi hready
    refine hnone i (Or.inl ?_)
    rw [hother i hi]
    exact hready
  · intro hnone i hrun
    by_cases hi : i = s.current
    · rw [Sleep.Runnable, hi, hself, hname] at hrun
      exact hrun.elim hstatus (h.table.name s.current)
    · rw [Sleep.Runnable, hother i hi] at hrun
      exact hrun.elim (hnone i hi) (h.table.name i)

theorem kfork_none_iff {s : Sched} (h : SchedInv s) : kfork s = none ↔ s.nextPid.toNat = 101 := by
  have hle := h.pids.2
  rw [kfork, Option.map_eq_none_iff, getNextFreeTask, List.find?_eq_none]
  constructor
  · intro hnone
    by_contra hne
    have hfree := (h.table.unused ⟨s.nextPid.toNat - 1, by omega⟩ le_rfl).1
    exact hnone _ (List.mem_finRange _) (by simpa using hfree)
  · intro hfull i _
    have hi := i.isLt
    simpa using (h.table.used i (by omega)).1

def Spins (s : Sched) (op : Op) : Prop :=
  op = .fork ∧ s.nextPid.toNat = 101 ∨
    leaves op = true ∧ ∀ i, i ≠ s.current → (s.readyQueue i).status ≠ .ready

theorem step_none_iff {s : Sched} (h : SchedInv s) (op : Op) : step s op = none ↔ Spins s op := by
  cases op with
  | fork =>
    rw [step, kfork_none_iff h]
    simp [Spins, leaves]
  | exit status =>
    have hnone : step s (.exit status) = none ↔ ∀ i, i ≠ s.current → (s.readyQueue i).status ≠ .ready :=
      switch_leaves_iff (t := { s.currentTask with exitStatus := status, status := .zombie, endTime := s.timerTick })
        h rfl rfl (by simp)
    simp [Spins, leaves, hnone]
  | sleep time =>
    have hnone : step s (.sleep time) = none ↔ ∀ i, i ≠ s.current → (s.readyQueue i).status ≠ .ready :=
      switch_leaves_iff (t := { s.currentTask with sleepingTime := ((time * 18).toNat : Int), status := .sleeping })
        h rfl rfl (by simp)
    simp [Spins, leaves, hnone]
  | waitpid pid =>
    have hnone : step s (.waitpid pid) = none ↔ ∀ i, i ≠ s.current → (s.readyQueue i).status ≠ .ready :=
      switch_leaves_iff (t := { s.currentTask with
        status := .waitingOnPid, pidWaitingFor := pid, timeAtWait := s.timerTick }) h rfl rfl (by simp)
    simp [Spins, leaves, hnone]
  | exec filename found => simp [Spins, leaves, step]
  | tick =>
    obtain ⟨s', hs', -⟩ := Sleep.tick_some (Or.inl h.current)
    simp [Spins, leaves, hs']

/-- The kernel spins for ever in two cases only: a hundredth fork (the table has no slot
left, as none is ever given back), or an exit, sleep or wait of the only ready task. -/
theorem kernel_spins_iff (ops : List Op) (hops : ∀ op ∈ ops, Allowed op) :
    run step initializeTasking ops = none ↔ ∃ done op rest u, ops = done ++ op :: rest ∧
      run step initializeTasking done = some u ∧ (op = .fork ∧ done.count .fork = 99 ∨
        leaves op = true ∧ ∀ i, i ≠ u.current → (u.readyQueue i).status ≠ .ready) := by
  rw [run_eq_none_iff]
  refine exists_congr fun done => exists_congr fun op => exists_congr fun rest => exists_congr fun u => ?_
  refine and_congr_right fun hsplit => and_congr_right fun hu => ?_
  have hdone : ∀ op ∈ done, Allowed op := fun a ha => hops a (by rw [hsplit]; exact List.mem_append_left _ ha)
  obtain ⟨hinv, -, hpid⟩ := run_counts hdone hu
  have hforks : u.nextPid.toNat = 101 ↔ done.count .fork = 99 := by omega
  rw [step_none_iff hinv, Spins, hforks]

/-- `init` alone cannot wait. -/
theorem kernel_spins_iff_wait : run step initializeTasking [.tick, .waitpid 2] = none := by
  refine (kernel_spins_iff _ (by simp [Allowed])).mpr ?_
  have hseen : (run step initializeTasking [.tick]).map (fun s =>
      decide (∀ i, i ≠ s.current → (s.readyQueue i).status ≠ .ready)) = some true := by
    decide +kernel
  obtain ⟨u, hu, hready⟩ := Option.map_eq_some_iff.mp hseen
  exact ⟨[.tick], .waitpid 2, [], u, rfl, hu, Or.inr ⟨rfl, of_decide_eq_true hready⟩⟩

/-! ## The time -/

/-- The number of times the tasks were started, as 32 bits count. -/
def sessions (q : Queue) : BitVec 32 := ∑ i, (q i).runSessionsCount

theorem sessions_update (q : Queue) (i : Slot) (t : Task) (k : BitVec 32)
    (ht : t.runSessionsCount = (q i).runSessionsCount + k) : sessions (Function.update q i t) = sessions q + k := by
  have hsum : (fun j => (Function.update q i t j).runSessionsCount) =
      Function.update (fun j => (q j).runSessionsCount) i t.runSessionsCount := by
    funext j
    by_cases hj : j = i
    · subst hj; simp
    · simp [hj]
  rw [sessions, hsum, Finset.sum_update_of_mem (Finset.mem_univ i), ht, sessions,
    ← Finset.add_sum_erase Finset.univ _ (Finset.mem_univ i), Finset.sdiff_singleton_eq_erase]
  ring

/-- Each record's time is its number of starts in time slices, and they were `n` in all. -/
structure Timed (q : Queue) (n : Nat) : Prop where
  time : ∀ i, (q i).runTime = SCHEDULE_FREQUENCY * (q i).runSessionsCount
  total : sessions q = BitVec.ofNat 32 n

theorem Timed.update {q : Queue} {n : Nat} (h : Timed q n) (i : Slot) {t : Task} (k : Nat)
    (hcount : t.runSessionsCount = (q i).runSessionsCount + BitVec.ofNat 32 k)
    (htime : t.runTime = (q i).runTime + SCHEDULE_FREQUENCY * BitVec.ofNat 32 k) :
    Timed (Function.update q i t) (n + k) where
  time := by
    intro j
    by_cases hj : j = i
    · subst hj
      rw [Function.update_self, hcount, htime, h.time j]
      ring
    · rw [Function.update_of_ne hj]
      exact h.time j
  total := by rw [sessions_update q i t _ hcount, h.total, BitVec.ofNat_add]

/-- The record of the running task changes, and not its times. -/
theorem Timed.setCurrent {s : Sched} {n : Nat} (h : Timed s.readyQueue n) {t : Task}
    (hcount : t.runSessionsCount = s.currentTask.runSessionsCount) (htime : t.runTime = s.currentTask.runTime) :
    Timed (s.setCurrent t).readyQueue n :=
  h.update s.current 0 (by simpa [Sched.currentTask] using hcount) (by simpa [Sched.currentTask] using htime)

theorem Timed.congr {q q' : Queue} {n : Nat} (h : Timed q n)
    (hsame : ∀ i, (q' i).runTime = (q i).runTime ∧ (q' i).runSessionsCount = (q i).runSessionsCount) : Timed q' n where
  time := fun i => by rw [(hsame i).1, (hsame i).2, h.time i]
  total := by
    rw [← h.total, sessions, sessions]
    exact Finset.sum_congr rfl fun i _ => (hsame i).2

theorem Timed.slotEffect {q : Queue} {n : Nat} (h : Timed q n) (x : Slot) : Timed (slotEffect q x) n := by
  rcases slotEffect_cases q x with ⟨-, he, -⟩ | ⟨-, m, st, -, he⟩ | ⟨-, c, -, -, he⟩
  · rw [he]
    exact h
  · rw [he]
    exact h.update x 0 (by simp) (by simp)
  · have hready := h.update x 0 (t := { q x with
      pidWaitingFor := (q c).id, status := .ready, waitingPidExitStatus := (q c).exitStatus }) (by simp) (by simp)
    rw [he, reap]
    exact hready.update c 0 (by simp) (by simp)

/-- The pass starts nothing. -/
theorem Timed.pass {q : Queue} {n : Nat} (h : Timed q n) : Timed (updateWaitingAndSleepingTasks q) n := by
  rw [updateWaitingAndSleepingTasks]
  generalize List.finRange 100 = is
  induction is generalizing q with
  | nil => exact h
  | cons x is ih =>
    have hagree := updateSlot_agree q x
    exact ih ((h.slotEffect x).congr fun i =>
      ⟨hagree.field Task.runTime (fun _ => rfl) i, hagree.field Task.runSessionsCount (fun _ => rfl) i⟩)

theorem Timed.switch {s s' : Sched} {n : Nat} (hs : switchTask s = some s') (h : Timed s.readyQueue n) :
    Timed s'.readyQueue (n + 1) := by
  obtain ⟨c, -, rfl⟩ := Option.map_eq_some_iff.mp hs
  have hc := h.update c 1 (t := { s.readyQueue c with
    newProc := false
    runTime := (s.readyQueue c).runTime + SCHEDULE_FREQUENCY
    runSessionsCount := (s.readyQueue c).runSessionsCount + 1 }) rfl (by simp)
  rw [resume]
  split
  · exact hc
  · exact hc

theorem step_timed {s s' : Sched} {op : Op} {n : Nat} (h : Timed s.readyQueue n) (hs : step s op = some s') :
    Timed s'.readyQueue (n + [op].countP starts) := by
  cases op with
  | fork =>
    obtain ⟨m, -, rfl⟩ := Option.map_eq_some_iff.mp hs
    exact h.update m 0 (by simp) (by simp)
  | exit status => exact Timed.switch hs (h.setCurrent rfl rfl)
  | sleep time => exact Timed.switch hs (h.setCurrent rfl rfl)
  | waitpid pid => exact Timed.switch hs (h.setCurrent rfl rfl)
  | exec filename found =>
    obtain rfl := Option.some.inj hs
    rw [kexecvpe]
    cases found with
    | false => exact h.setCurrent rfl rfl
    | true => exact h.update s.current 1 rfl (by simp [Sched.currentTask])
  | tick =>
    have hpass := h.pass
    simp only [step, timerHandler] at hs
    generalize updateWaitingAndSleepingTasks s.readyQueue = q at hpass hs
    exact Timed.switch hs hpass

theorem timed_start : Timed initializeTasking.readyQueue 0 := by
  have hzero : ∀ i, (initializeTasking.readyQueue i).runTime = 0 ∧
      (initializeTasking.readyQueue i).runSessionsCount = 0 := by
    intro i
    by_cases hi : i = 0
    · subst hi; simp [initializeTasking, Task.zero]
    · simp [initializeTasking, Task.zero, hi]
  refine ⟨fun i => by rw [(hzero i).1, (hzero i).2]; rfl, ?_⟩
  rw [sessions, Finset.sum_eq_zero fun i _ => (hzero i).2]
  rfl

/-- In every run from boot, whatever the tasks do, a task's time in `ps` is 55 ms for each
time it was started, and all the starts together are the switches and the execs that found
their file: no slice is lost and none is counted twice (modulo 2^32, as the counters are). -/
theorem time_accounted (s : Sched) (ops : List Op) (hr : run step initializeTasking ops = some s) :
    (∀ i, (s.readyQueue i).runTime = 55 * (s.readyQueue i).runSessionsCount) ∧
    ∑ i, (s.readyQueue i).runSessionsCount = BitVec.ofNat 32 (ops.countP starts) ∧
    ∑ i, (s.readyQueue i).runTime = 55 * BitVec.ofNat 32 (ops.countP starts) := by
  have htimed : Timed s.readyQueue (ops.countP starts) := by
    refine run_loop step (P := fun done t => Timed t.readyQueue (done.countP starts)) ?_ timed_start hr
    intro done op rest t u _ h hs
    rw [List.countP_append]
    exact step_timed h hs
  refine ⟨htimed.time, htimed.total, ?_⟩
  rw [← htimed.total, sessions, Finset.mul_sum]
  exact Finset.sum_congr rfl fun i _ => htimed.time i

/-- Four starts: two switches, an exec and a tick. -/
theorem time_accounted_four : ∃ s,
    run step initializeTasking [.fork, .fork, .sleep 1, .exec "bin/ls" true, .exec "ls" false, .exit 0, .tick] = some s ∧
      ∑ i, (s.readyQueue i).runTime = 220 := by
  have hsome : (run step initializeTasking
      [.fork, .fork, .sleep 1, .exec "bin/ls" true, .exec "ls" false, .exit 0, .tick]).isSome := by
    decide +kernel
  obtain ⟨s, hs⟩ := Option.isSome_iff_exists.mp hsome
  exact ⟨s, hs, (time_accounted s _ hs).2.2⟩

end Accounting
