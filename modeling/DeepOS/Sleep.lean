import DeepOS.IdleTask
import DeepOS.Wakeup

/-!
# The length of a sleep

`ksleep` puts a number of ticks into the caller's record, and each pass of the timer
takes one off. Meanwhile the other tasks run, and the sleeping one is not selected.
-/
namespace Sleep

open RoundRobin TaskTable Scheduler TaskInvariant Transition

def ticks (ops : List Op) : Nat := ops.count .tick

@[simp] theorem ticks_nil : ticks [] = 0 := rfl

theorem ticks_append (ops ops' : List Op) : ticks (ops ++ ops') = ticks ops + ticks ops' := List.count_append ..

@[simp] theorem ticks_tick : ticks [.tick] = 1 := rfl

theorem ticks_replicate (n : Nat) : ticks (List.replicate n .tick) = n := List.count_replicate_self ..

/-- The task in slot `i` sleeps for `n` passes of the timer from `s` on, whatever is
done meanwhile, and the last of them makes it ready. -/
structure SleepsFor (s : Sched) (i : Slot) (n : Nat) : Prop where
  asleep : ∀ ops s', run step s ops = some s' → ticks ops < n → (s'.readyQueue i).status = .sleeping
  wakes : ∀ ops s', run step s (ops ++ [.tick]) = some s' → ticks ops + 1 = n → (s'.readyQueue i).status = .ready

/-! ## The pass over the table -/

/-- A task that is no zombie is left alone by the pass over another slot. -/
theorem updateSlot_core {q : Queue} {i x : Slot} (hz : (q i).status ≠ .zombie) (hne : i ≠ x) :
    core (updateSlot q x i) = core (q i) := by
  rw [updateSlot_agree q x i]
  rcases slotEffect_cases q x with ⟨-, he, -⟩ | ⟨-, n, st, -, he⟩ | ⟨-, c, -, hc, he⟩
  · rw [he]
  · rw [he, Function.update_of_ne hne]
  · have hic : i ≠ c := by
      rintro rfl
      exact hz hc
    rw [he, reap, Function.update_of_ne hic, Function.update_of_ne hne]

theorem status_of_core {t t' : Task} (h : core t = core t') : t.status = t'.status :=
  field_of_core h Task.status fun _ => rfl

theorem sleepingTime_of_core {t t' : Task} (h : core t = core t') : t.sleepingTime = t'.sleepingTime :=
  field_of_core h Task.sleepingTime fun _ => rfl

theorem foldl_core {i : Slot} (todo : List Slot) (hi : i ∉ todo) : ∀ q : Queue, (q i).status ≠ .zombie →
    core (todo.foldl updateSlot q i) = core (q i) := by
  induction todo with
  | nil => exact fun _ _ => rfl
  | cons x todo ih =>
    intro q hz
    rw [List.mem_cons, not_or] at hi
    have hx := updateSlot_core hz hi.1
    rw [List.foldl_cons, ih hi.2 _ (by rwa [status_of_core hx]), hx]

/-- The pass comes to each slot once. -/
theorem pass_core {q : Queue} {i : Slot} (hz : (q i).status ≠ .zombie) : ∃ q' : Queue, core (q' i) = core (q i) ∧
    ((slotEffect q' i i).status ≠ .zombie → core (updateWaitingAndSleepingTasks q i) = core (slotEffect q' i i)) := by
  obtain ⟨before, after, hsplit, hbefore, hafter⟩ := Wakeup.finRange_split i
  have hi : i ∉ before := fun hm => lt_irrefl i ((hbefore i).mp hm)
  refine ⟨before.foldl updateSlot q, foldl_core before hi q hz, fun heffect => ?_⟩
  have hagree := updateSlot_agree (before.foldl updateSlot q) i i
  rw [updateWaitingAndSleepingTasks, hsplit, List.foldl_append, List.foldl_cons, foldl_core after hafter, hagree]
  rwa [status_of_core hagree]

/-- The pass takes one tick off a sleep, and ends it when none is left. -/
theorem pass_sleeping {q : Queue} {i : Slot} (hs : (q i).status = .sleeping) :
    ((q i).sleepingTime ≤ 1 → (updateWaitingAndSleepingTasks q i).status = .ready) ∧
    (1 < (q i).sleepingTime → (updateWaitingAndSleepingTasks q i).status = .sleeping ∧
      (updateWaitingAndSleepingTasks q i).sleepingTime = (q i).sleepingTime - 1) := by
  obtain ⟨q', hsame, hpass⟩ := pass_core (q := q) (i := i) (by simp [hs])
  have hs' : (q' i).status = .sleeping := (status_of_core hsame).trans hs
  have hleft : (q' i).sleepingTime = (q i).sleepingTime := sleepingTime_of_core hsame
  have heffect : slotEffect q' i = updateSleeping q' i := by rw [slotEffect, hs']
  rw [heffect, updateSleeping, if_pos hs', hleft] at hpass
  constructor
  · intro hle
    have hend : (q i).sleepingTime - TICK_PER_SECOND ≤ 0 := by
      rw [TICK_PER_SECOND]
      omega
    simp only [if_pos hend, Function.update_self] at hpass
    exact status_of_core (hpass (by decide))
  · intro hlt
    have hmore : ¬ (q i).sleepingTime - TICK_PER_SECOND ≤ 0 := by
      rw [TICK_PER_SECOND]
      omega
    simp only [if_neg hmore, Function.update_self, hs'] at hpass
    have hcore := hpass (by decide)
    exact ⟨status_of_core hcore, sleepingTime_of_core hcore⟩

/-! ## Selection -/

def Runnable (q : Queue) (i : Slot) : Prop := (q i).status = .ready ∨ (q i).programName = idleName

/-- A task that can run still can after the timer's pass. -/
theorem respected_runnable : Respected fun t t' =>
    t.status = .ready ∨ t.programName = idleName → t'.status = .ready ∨ t'.programName = idleName where
  trans := fun h h' ht => h' (h ht)
  core := by
    intro t t' h ht
    rwa [← field_of_core h Task.status fun _ => rfl, ← field_of_core h Task.programName fun _ => rfl]
  slept := by
    rintro t hs n st - (hready | hname)
    · rw [hready] at hs
      cases hs
    · exact Or.inr hname
  woken := fun _ _ _ _ => Or.inl rfl
  disowned := fun _ ht => ht
  resumed := fun _ ht => ht

theorem readyScan_none {q : Queue} {start : Nat} {is : List Nat} {idle : Option Slot}
    (h : readyScan q start is idle = none) : idle = none ∧ ∀ i ∈ is, ¬ Runnable q (slot 100 (start + i)) := by
  induction is generalizing idle with
  | nil => exact ⟨h, by simp⟩
  | cons i is ih =>
    rw [readyScan] at h
    by_cases hname : (q (slot 100 (start + i))).programName = idleName
    · rw [if_pos hname] at h
      cases (ih h).1
    · rw [if_neg hname] at h
      split at h
      · cases h
      · rename_i hready
        refine ⟨(ih h).1, List.forall_mem_cons.mpr ⟨?_, (ih h).2⟩⟩
        rintro (hr | hn)
        · exact hready hr
        · exact hname hn

/-- The switch does not spin when there is something to run. -/
theorem switchTask_some {s : Sched} {i : Slot} (h : Runnable s.readyQueue i) : ∃ s', switchTask s = some s' := by
  rw [switchTask]
  cases hnext : getNextReadyTask s.readyQueue (some s.current) with
  | none =>
    obtain ⟨k, hk, rfl⟩ := exists_offset (startIdx s.readyQueue (some s.current)) i
    exact absurd h ((readyScan_none hnext).2 k (List.mem_range.mpr hk))
  | some c => exact ⟨_, rfl⟩

theorem resume_runnable (s : Sched) (n i : Slot) : Runnable (resume s n).readyQueue i ↔ Runnable s.readyQueue i := by
  rw [Runnable, Runnable, resume_status, (IdleTask.keeps_resume s n i).1]

/-- The task that is switched to can run, and the records of the others stay. -/
theorem switchTask_spec {s s' : Sched} (h : switchTask s = some s') : Runnable s.readyQueue s'.current ∧
    (∀ i, Runnable s'.readyQueue i ↔ Runnable s.readyQueue i) ∧ ∀ i, i ≠ s'.current → s'.readyQueue i = s.readyQueue i := by
  rw [switchTask, Option.map_eq_some_iff] at h
  obtain ⟨c, hc, rfl⟩ := h
  rw [resume_current]
  refine ⟨IdleTask.getNextReadyTask_cases hc, resume_runnable s c, fun i hi => ?_⟩
  rw [resume]
  split
  · exact Function.update_of_ne hi ..
  · exact Function.update_of_ne hi ..

/-! ## A sleeping task -/

/-- The record of a task that sleeps with `n` passes left, and is not taken for the
idle task. -/
structure Nap (t : TaskTable.Task) (n : Nat) : Prop where
  status : t.status = .sleeping
  left : max 1 t.sleepingTime = n
  name : t.programName ≠ idleName

structure Asleep (i : Slot) (n : Nat) (s : Sched) : Prop where
  nap : Nap (s.readyQueue i) n
  current : s.current ≠ i

theorem Nap.not_runnable {q : Queue} {i : Slot} {n : Nat} (h : Nap (q i) n) : ¬ Runnable q i := by
  rintro (hready | hname)
  · rw [h.status] at hready
    cases hready
  · exact h.name hname

/-- The switch selects another task. -/
theorem switch_asleep {t s' : Sched} {i : Slot} {n : Nat} (h : Nap (t.readyQueue i) n) (hs : switchTask t = some s') :
    Asleep i n s' := by
  obtain ⟨hrun, -, hother⟩ := switchTask_spec hs
  have hi : i ≠ s'.current := by
    rintro rfl
    exact h.not_runnable hrun
  refine ⟨?_, hi.symm⟩
  rw [hother i hi]
  exact h

/-- No system call of another task reaches the record of a sleeping one. -/
theorem step_asleep {s s' : Sched} {op : Op} {i : Slot} {n : Nat} (h : Asleep i n s) (hop : op ≠ .tick)
    (hs : step s op = some s') : Asleep i n s' := by
  have hset : ∀ t, Nap (Function.update s.readyQueue s.current t i) n := by
    intro t
    rw [Function.update_of_ne h.current.symm]
    exact h.nap
  cases op with
  | fork =>
    obtain ⟨m, hm, rfl⟩ := Option.map_eq_some_iff.mp hs
    have hfree := getNextFreeTask_free hm
    have him : i ≠ m := by
      rintro rfl
      rw [h.nap.status] at hfree
      cases hfree
    refine ⟨?_, h.current⟩
    simp only [Function.update_of_ne him]
    exact h.nap
  | exit status => exact switch_asleep (hset _) hs
  | sleep time => exact switch_asleep (hset _) hs
  | waitpid pid => exact switch_asleep (hset _) hs
  | exec filename found =>
    obtain rfl := Option.some.inj hs
    refine ⟨?_, ?_⟩
    · rw [IdleTask.exec_other s filename found i h.current]
      exact h.nap
    · rw [IdleTask.exec_current]
      exact h.current
  | tick => exact absurd rfl hop

/-- A timer interrupt shortens the sleep by one. -/
theorem tick_asleep {s s' : Sched} {i : Slot} {n : Nat} (h : Asleep i n s) (hn : 1 < n) (hs : step s .tick = some s') :
    Asleep i (n - 1) s' := by
  have hleft := h.nap.left
  have hname := (IdleTask.keeps_pass s.readyQueue i).1
  obtain ⟨hstatus, htime⟩ := (pass_sleeping h.nap.status).2 (by omega)
  simp only [step, timerHandler] at hs
  generalize updateWaitingAndSleepingTasks s.readyQueue = q at hs hname hstatus htime
  refine switch_asleep ⟨hstatus, ?_, ?_⟩ hs
  · simp only [htime]
    omega
  · simp only [hname]
    exact h.nap.name

/-- The last one makes the task ready, whichever task runs next. -/
theorem tick_wakes {s s' : Sched} {i : Slot} (h : Asleep i 1 s) (hs : step s .tick = some s') :
    (s'.readyQueue i).status = .ready := by
  have hleft := h.nap.left
  have hready := (pass_sleeping h.nap.status).1 (by omega)
  simp only [step, timerHandler] at hs
  generalize updateWaitingAndSleepingTasks s.readyQueue = q at hs hready
  obtain ⟨c, -, rfl⟩ := Option.map_eq_some_iff.mp hs
  rw [resume_status]
  exact hready

/-- Fewer ticks than are left do not end the sleep. -/
theorem run_asleep {s s' : Sched} {ops : List Op} {i : Slot} {n : Nat} (h : Asleep i n s)
    (hr : run step s ops = some s') (hlt : ticks ops < n) : Asleep i (n - ticks ops) s' := by
  refine run_loop step (P := fun done t => ticks done < n → Asleep i (n - ticks done) t) ?_ (fun _ => h) hr hlt
  intro done op rest t u _ hP hop hless
  rw [ticks_append] at hless ⊢
  by_cases htick : op = .tick
  · subst htick
    rw [ticks_tick] at hless ⊢
    rw [← Nat.sub_sub]
    exact tick_asleep (hP (by omega)) (by omega) hop
  · have hnone : ticks [op] = 0 := List.count_eq_zero.mpr (by simpa using Ne.symm htick)
    rw [hnone] at hless ⊢
    exact step_asleep (hP (by omega)) htick hop

theorem Asleep.sleepsFor {s : Sched} {i : Slot} {n : Nat} (h : Asleep i n s) : SleepsFor s i n where
  asleep := fun _ _ hr hlt => (run_asleep h hr hlt).nap.status
  wakes := by
    intro ops s' hr hlast
    rw [run_append, Option.bind_eq_some_iff] at hr
    obtain ⟨t, ht, hr⟩ := hr
    rw [run_cons_eq_some] at hr
    obtain ⟨u, hu, hnil⟩ := hr
    obtain rfl := Option.some.inj hnil
    have hone := run_asleep h ht (by omega)
    rw [show n - ticks ops = 1 by omega] at hone
    exact tick_wakes hone hu

/-! ## Runs that are always possible -/

theorem tick_some {s : Sched} (h : Runnable s.readyQueue s.current) :
    ∃ s', step s .tick = some s' ∧ Runnable s'.readyQueue s'.current := by
  have hpass : Runnable (updateWaitingAndSleepingTasks s.readyQueue) s.current :=
    respected_runnable.pass s.readyQueue s.current h
  simp only [step, timerHandler]
  generalize updateWaitingAndSleepingTasks s.readyQueue = q at hpass
  obtain ⟨s', hs'⟩ := switchTask_some (s := { s with timerTick := s.timerTick + 1, readyQueue := q }) hpass
  obtain ⟨hrun, hsame, -⟩ := switchTask_spec hs'
  exact ⟨s', hs', (hsame _).mpr hrun⟩

/-- While a task can run the timer goes on ticking. -/
theorem ticks_some {s : Sched} (h : Runnable s.readyQueue s.current) (n : Nat) :
    ∃ s', run step s (List.replicate n .tick) = some s' := by
  have hstep : ∀ done op rest t, done ++ op :: rest = List.replicate n Op.tick → Runnable t.readyQueue t.current →
      ∃ u, step t op = some u ∧ Runnable u.readyQueue u.current := by
    intro done op rest t hops ht
    have hop : op ∈ List.replicate n Op.tick := by simp [← hops]
    rw [List.eq_of_mem_replicate hop]
    exact tick_some ht
  obtain ⟨s', hs', -⟩ := run_loop_some step (List.replicate n .tick)
    (P := fun _ t => Runnable t.readyQueue t.current) hstep h
  exact ⟨s', hs'⟩

/-- The length of a sleep is not ambiguous. -/
theorem SleepsFor.le {s : Sched} {i : Slot} {m n : Nat} (hrun : Runnable s.readyQueue s.current) (hm : 0 < m)
    (h : SleepsFor s i m) (h' : SleepsFor s i n) : n ≤ m := by
  by_contra hlt
  obtain ⟨s', hs'⟩ := ticks_some hrun (m - 1 + 1)
  have hasleep := h'.asleep _ s' hs' (by rw [ticks_replicate]; omega)
  rw [List.replicate_succ'] at hs'
  rw [h.wakes _ s' hs' (by rw [ticks_replicate]; omega)] at hasleep
  cases hasleep

/-- A task that exits gives way to what can run. -/
theorem exit_some {s : Sched} {i : Slot} (hi : Runnable s.readyQueue i)
    (hcurrent : i ≠ s.current ∨ (s.readyQueue i).programName = idleName) (status : BitVec 32) :
    ∃ s', kexit s status = some s' ∧ Runnable s'.readyQueue s'.current ∧ (s'.readyQueue s.current).status = .zombie ∧
      (∀ j, j ≠ s.current → (Runnable s'.readyQueue j ↔ Runnable s.readyQueue j)) ∧
      ∀ j, (s'.readyQueue j).programName = (s.readyQueue j).programName := by
  set t : Sched := { s.setCurrent { s.currentTask with
    exitStatus := status, status := .zombie, endTime := s.timerTick } with
    history := .exited s.current status :: s.history } with ht
  have hself : (t.readyQueue s.current).status = .zombie := by simp [ht, Sched.setCurrent]
  have hother : ∀ j, j ≠ s.current → t.readyQueue j = s.readyQueue j := fun j hj => Function.update_of_ne hj ..
  have hname : ∀ j, (t.readyQueue j).programName = (s.readyQueue j).programName := by
    intro j
    by_cases hj : j = s.current
    · subst hj
      simp [ht, Sched.setCurrent, Sched.currentTask]
    · rw [hother j hj]
  have hrun : ∀ j, j ≠ s.current → (Runnable t.readyQueue j ↔ Runnable s.readyQueue j) := by
    intro j hj
    rw [Runnable, Runnable, hother j hj]
  have hi' : Runnable t.readyQueue i := by
    rcases hcurrent with hne | hidle
    · exact (hrun i hne).mpr hi
    · exact Or.inr ((hname i).trans hidle)
  obtain ⟨s', hs'⟩ := switchTask_some hi'
  obtain ⟨hnext, hsame, -⟩ := switchTask_spec hs'
  obtain ⟨c, -, rfl⟩ := Option.map_eq_some_iff.mp hs'
  refine ⟨_, hs', (hsame _).mpr hnext, ?_, fun j hj => (hsame j).trans (hrun j hj), fun j => ?_⟩
  · rw [resume_status]
    exact hself
  · rw [(IdleTask.keeps_resume t c j).1, hname j]

/-- The running task execs another program and exits: it is not selected again. -/
theorem exec_exit {s : Sched} {i : Slot} (hi : s.current ≠ i) (hidle : (s.readyQueue i).programName = idleName) :
    ∃ s', run step s [.exec "/bin/ls" true, .exit 0] = some s' ∧ (s'.readyQueue i).programName = idleName ∧
      Runnable s'.readyQueue s'.current ∧ ∀ j, Runnable s'.readyQueue j → Runnable s.readyQueue j ∧ j ≠ s.current := by
  set t := kexecvpe s "/bin/ls" true with ht
  have hcurrent : t.current = s.current := IdleTask.exec_current s _ _
  have hother : ∀ j, s.current ≠ j → t.readyQueue j = s.readyQueue j := IdleTask.exec_other s _ _
  have hti : (t.readyQueue i).programName = idleName := by rw [hother i hi, hidle]
  obtain ⟨s', hs', hnext, hzombie, hrun, hname⟩ := exit_some (i := i) (Or.inr hti) (Or.inr hti) 0
  rw [hcurrent] at hzombie hrun
  refine ⟨s', ?_, (hname i).trans hti, hnext, fun j hj => ?_⟩
  · rw [run_cons_eq_some]
    exact ⟨t, rfl, (run_cons_eq_some step).mpr ⟨s', hs', rfl⟩⟩
  · have hne : j ≠ s.current := by
      rintro rfl
      rcases hj with hready | hidle'
      · rw [hzombie] at hready
        cases hready
      · rw [hname] at hidle'
        simp [ht, kexecvpe, Sched.setCurrent, idleName] at hidle'
    rw [hrun j hne, Runnable, hother j hne.symm] at hj
    exact ⟨hj, hne⟩

/-- A task with the name of the idle task gets the processor once the others are gone,
whatever its status. -/
theorem exists_exit {i : Slot} (others : Finset Slot) : ∀ {s : Sched}, (s.readyQueue i).programName = idleName →
    Runnable s.readyQueue s.current → (∀ j, Runnable s.readyQueue j → j ≠ i → j ∈ others) →
    ∃ ops s', run step s ops = some s' ∧ ticks ops = 0 ∧ (s'.readyQueue i).status = .zombie := by
  induction others using Finset.strongInduction with
  | H others ih =>
    intro s hidle hrun hothers
    by_cases hi : s.current = i
    · subst hi
      obtain ⟨s', hs', -, hzombie, -⟩ := exit_some hrun (Or.inr hidle) 0
      exact ⟨[.exit 0], s', (run_cons_eq_some step).mpr ⟨s', hs', rfl⟩, rfl, hzombie⟩
    · obtain ⟨t, ht, hname, hnext, hfewer⟩ := exec_exit hi hidle
      have hmem : s.current ∈ others := hothers s.current hrun hi
      obtain ⟨ops, s', hs', hnone, hzombie⟩ := ih _ (Finset.erase_ssubset hmem) hname hnext fun j hj hji =>
        Finset.mem_erase.mpr ⟨(hfewer j hj).2, hothers j (hfewer j hj).1 hji⟩
      refine ⟨[.exec "/bin/ls" true, .exit 0] ++ ops, s', ?_, ?_, hzombie⟩
      · rw [run_append, ht]
        exact hs'
      · rw [ticks_append, hnone]
        rfl

/-! ## The call -/

/-- The task sleeps for the product as 32 bits hold it. -/
theorem ksleep_asleep {s s' : Sched} {time : BitVec 32} (h : ksleep s time = some s')
    (hname : (s.readyQueue s.current).programName ≠ idleName) :
    Asleep s.current (max 1 (18 * time.toNat % 2 ^ 32)) s' := by
  refine switch_asleep ⟨?_, ?_, ?_⟩ h
  · simp [Sched.setCurrent]
  · simp [Sched.setCurrent, mul_comm]
  · simpa [Sched.setCurrent, Sched.currentTask] using hname

/-- A sleep of `time` seconds takes eighteen passes for each of them, and at least one,
exactly when the number of passes fits into 32 bits and the caller is not taken for the
idle task. -/
theorem ksleep_sleepsFor_iff (s s' : Sched) (time : BitVec 32) (h : ksleep s time = some s') :
    SleepsFor s' s.current (max 1 (18 * time.toNat)) ↔
      18 * time.toNat < 2 ^ 32 ∧ (s.readyQueue s.current).programName ≠ idleName := by
  obtain ⟨hnext, hsame, -⟩ := switchTask_spec h
  have hrun : Runnable s'.readyQueue s'.current := (hsame _).mpr hnext
  constructor
  · intro hsleeps
    have hname : (s.readyQueue s.current).programName ≠ idleName := by
      intro hidle
      have hidle' : (s'.readyQueue s.current).programName = idleName := by
        obtain ⟨c, -, rfl⟩ := Option.map_eq_some_iff.mp h
        rw [(IdleTask.keeps_resume _ c s.current).1]
        simpa [Sched.setCurrent, Sched.currentTask] using hidle
      obtain ⟨ops, t, ht, hnone, hzombie⟩ := exists_exit Finset.univ hidle' hrun fun j _ _ => Finset.mem_univ j
      rw [hsleeps.asleep ops t ht (by omega)] at hzombie
      cases hzombie
    refine ⟨?_, hname⟩
    have hle := (ksleep_asleep h hname).sleepsFor.le hrun (by omega) hsleeps
    omega
  · rintro ⟨hfits, hname⟩
    have hasleep := ksleep_asleep h hname
    rw [Nat.mod_eq_of_lt hfits] at hasleep
    exact hasleep.sleepsFor

/-- The first task can sleep once it has forked. -/
theorem fork_ksleep (time : BitVec 32) : ∃ s s', run step initializeTasking [.fork] = some s ∧
    ksleep s time = some s' ∧ (s.readyQueue s.current).programName ≠ idleName := by
  have hseen : (run step initializeTasking [.fork]).map (fun s =>
      (s.current, (s.readyQueue 0).programName, (s.readyQueue 1).status)) = some (0, "init", .ready) := by
    decide +kernel
  obtain ⟨s, hs, hseen⟩ := Option.map_eq_some_iff.mp hseen
  obtain ⟨hcurrent, hseen⟩ := Prod.mk.inj hseen
  obtain ⟨hname, hchild⟩ := Prod.mk.inj hseen
  have hrun : Runnable (s.setCurrent { s.currentTask with
      sleepingTime := ((time * 18).toNat : Int), status := .sleeping }).readyQueue 1 := by
    left
    simp [Sched.setCurrent, hcurrent, hchild]
  obtain ⟨s', hs'⟩ := switchTask_some hrun
  refine ⟨s, s', hs, hs', ?_⟩
  rw [hcurrent, hname]
  decide

/-- It sleeps for a second. -/
theorem ksleep_sleepsFor_iff_second : ∃ s s', run step initializeTasking [.fork] = some s ∧ ksleep s 1 = some s' ∧
    SleepsFor s' s.current 18 := by
  obtain ⟨s, s', hs, hs', hname⟩ := fork_ksleep 1
  exact ⟨s, s', hs, hs', (ksleep_sleepsFor_iff s s' 1 hs').mpr ⟨by decide, hname⟩⟩

/-- It wants to sleep for 238609295 seconds, and is ready after fourteen ticks. -/
theorem sleep_wraps : (∃ s s' s'', run step initializeTasking [.fork] = some s ∧ ksleep s 238609295 = some s' ∧
      run step s' (List.replicate 14 .tick) = some s'' ∧ (s''.readyQueue s.current).status = .ready) ∧
    ¬ ∀ ops s s' time, run step initializeTasking ops = some s → ksleep s time = some s' →
      SleepsFor s' s.current (max 1 (18 * time.toNat)) := by
  obtain ⟨s, s', hs, hs', hname⟩ := fork_ksleep 238609295
  have htime : (238609295 : BitVec 32).toNat = 238609295 := rfl
  have hticks : max 1 (18 * 238609295 % 2 ^ 32) = 14 := by norm_num
  have hasleep := ksleep_asleep hs' hname
  rw [htime, hticks] at hasleep
  obtain ⟨hnext, hsame, -⟩ := switchTask_spec hs'
  obtain ⟨s'', hs''⟩ := ticks_some ((hsame _).mpr hnext) 14
  have hready := hasleep.sleepsFor.wakes (List.replicate 13 .tick) s'' hs'' (by rw [ticks_replicate])
  refine ⟨⟨s, s', s'', hs, hs', hs'', hready⟩, fun hclaim => ?_⟩
  have hsleeps := hclaim [.fork] s s' 238609295 hs hs'
  rw [htime] at hsleeps
  rw [hsleeps.asleep _ s'' hs'' (by rw [ticks_replicate]; omega)] at hready
  cases hready

end Sleep
