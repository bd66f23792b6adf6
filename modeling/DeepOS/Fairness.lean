import DeepOS.WaitStatus
import DeepOS.Sleep
import DeepOS.FileOwnership

/-!
# No starvation

Four operations end in `switch_task`. A task that is ready stays so until it runs, and
each switch brings the scan closer to its slot; so it runs after as many switches as
there are slots between. What a task waits for therefore comes about: `waitpid` returns
within one tick and a round of switches of the child's exit.
-/
namespace Fairness

open RoundRobin TaskTable Scheduler TaskInvariant Wakeup WaitStatus Transition

def switches : Op → Bool
  | .exit _ => true
  | .sleep _ => true
  | .waitpid _ => true
  | .tick => true
  | .fork => false
  | .exec _ _ => false

/-- The number of slots a scan passes from behind the running task to `t`. -/
def ahead (t : Slot) (s : Sched) : Nat := gap (s.current.val + 1) t

structure Queued (t : Slot) (s : Sched) : Prop where
  inv : SchedInv s
  ready : (s.readyQueue t).status = .ready
  current : s.current ≠ t

/-! ## One operation -/

/-- The pass leaves a ready task ready. -/
theorem pass_ready {q : Queue} {t : Slot} (h : (q t).status = .ready) :
    (updateWaitingAndSleepingTasks q t).status = .ready := (respected_result.pass q t h).1

/-- The switch comes to the ready task, or closer to it. -/
theorem switch_closer {s s' : Sched} {t : Slot} {n : Nat} (hq : TableInv s.readyQueue n)
    (ht : (s.readyQueue t).status = .ready) (hs : switchTask s = some s') :
    s'.current = t ∨ s'.current ≠ t ∧ ahead t s' + 1 ≤ ahead t s := by
  obtain ⟨i, hi, hsel⟩ := getNextReadyTask_le s.readyQueue (some s.current) ⟨hq.name t, ht⟩
  have hstart : startIdx s.readyQueue (some s.current) = s.current.val + 1 := by
    rw [startIdx, hq.index]
  rw [switchTask, hsel, Option.map_some, Option.some.injEq] at hs
  have hcur : s'.current = slot 100 (s.current.val + 1 + i) := by
    rw [← hs, resume_current, hstart]
  rw [hstart] at hi
  by_cases hst : s'.current = t
  · exact Or.inl hst
  · refine Or.inr ⟨hst, ?_⟩
    have hlt : i < gap (s.current.val + 1) t := by
      refine lt_of_le_of_ne hi ?_
      rintro rfl
      exact hst (hcur.trans (slot_gap _ t))
    have hafter := gap_after (s.current.val + 1) t hlt
    rw [ahead, ahead, hcur, hafter]
    omega

/-- A switch on a table in which the task is still ready. -/
theorem switch_queued {s u s' : Sched} {t : Slot} {n : Nat} (hs : switchTask u = some s') (hinv : SchedInv s')
    (hcur : u.current = s.current) (hu : (u.readyQueue t).status = .ready) (hq : TableInv u.readyQueue n) :
    s'.current = t ∨ Queued t s' ∧ ahead t s' + 1 ≤ ahead t s := by
  have hahead : ahead t u = ahead t s := by rw [ahead, ahead, hcur]
  have hready : (s'.readyQueue t).status = .ready := by
    rw [FileOwnership.switchTask_status hs]
    exact hu
  rcases switch_closer hq hu hs with h | ⟨h, hlt⟩
  · exact Or.inl h
  · exact Or.inr ⟨⟨hinv, hready, h⟩, hahead ▸ hlt⟩

/-- Another task's operation leaves the ready task ready, and brings it closer to its turn
when it switches. -/
theorem step_queued {s s' : Sched} {op : Op} {t : Slot} (h : Queued t s) (hop : Allowed op)
    (hs : step s op = some s') :
    s'.current = t ∨ Queued t s' ∧ ahead t s' + [op].countP switches ≤ ahead t s := by
  have hinv := (step_inv h.inv hop hs).1
  have hset : ∀ u : Task, (s.setCurrent u).readyQueue t = s.readyQueue t :=
    fun u => Function.update_of_ne h.current.symm ..
  have hkeep : ∀ u : Task, ((s.setCurrent u).readyQueue t).status = .ready := fun u => by
    rw [hset u]
    exact h.ready
  cases op with
  | fork =>
    obtain ⟨m, hm, rfl⟩ := kfork_cases h.inv hs
    have htm : t ≠ m := by
      rintro rfl
      have hfree := (h.inv.table.unused t (by omega)).1
      rw [h.ready] at hfree
      cases hfree
    refine Or.inr ⟨⟨hinv, ?_, h.current⟩, le_rfl⟩
    simpa [htm] using h.ready
  | exit status =>
    exact switch_queued hs hinv rfl (hkeep _) (h.inv.table.evolve (evolves_exit h.inv status))
  | sleep time =>
    exact switch_queued hs hinv rfl (hkeep _) (h.inv.table.evolve (evolves_sleep h.inv time))
  | waitpid pid =>
    exact switch_queued hs hinv rfl (hkeep _) (h.inv.table.evolve (evolves_wait h.inv pid))
  | exec filename found =>
    obtain rfl := Option.some.inj hs
    have hcur := IdleTask.exec_current s filename found
    refine Or.inr ⟨⟨hinv, ?_, by rw [hcur]; exact h.current⟩, ?_⟩
    · rw [exec_status]
      exact h.ready
    · rw [ahead, ahead, hcur]
      exact le_rfl
  | tick =>
    have hpass := pass_ready h.ready
    have htab := h.inv.table.evolve (evolves_pass s.readyQueue)
    simp only [step, timerHandler] at hs
    generalize updateWaitingAndSleepingTasks s.readyQueue = q at hpass htab hs
    exact switch_queued hs hinv rfl hpass htab

/-! ## Runs -/

/-- A ready task runs after at most as many switches as there are slots from the running
task to its own, whatever the tasks do meanwhile. -/
theorem ready_task_runs (s s' : Sched) (t : Slot) (ops : List Op) (h : Reachable s)
    (hready : (s.readyQueue t).status = .ready) (hcurrent : s.current ≠ t)
    (hops : ∀ op ∈ ops, Allowed op) (hr : run step s ops = some s')
    (hlong : gap (s.current.val + 1) t < ops.countP switches) :
    ∃ done rest u, ops = done ++ rest ∧ run step s done = some u ∧ u.current = t ∧
      done.countP switches ≤ gap (s.current.val + 1) t + 1 :=
  run_reaches step (C := fun _ op => Allowed op) (P := Queued t) (m := ahead t)
    (fun _ _ _ hop hq hs => step_queued hq hop hs) ⟨reachable_inv h, hready, hcurrent⟩
    (along_of_forall step (fun op hop _ => hops op hop) s) hr hlong

/-- From slot 0 it takes two switches to slot 2, also when `init` execs in between. -/
theorem ready_task_runs_third : ∃ s u, Reachable s ∧ s.current = 0 ∧ u.current = 2 ∧
    ∃ done, run step s done = some u ∧ done.countP switches ≤ 2 := by
  have hseen : (run step initializeTasking [.fork, .fork]).map (fun s =>
      (s.current, (s.readyQueue 2).status, (run step s [.tick, .exec "bin/ls" true, .sleep 1]).isSome)) =
        some (0, .ready, true) := by
    decide +kernel
  obtain ⟨s, hs, hseen⟩ := Option.map_eq_some_iff.mp hseen
  obtain ⟨hcur, hseen⟩ := Prod.mk.inj hseen
  obtain ⟨hready, hsome⟩ := Prod.mk.inj hseen
  obtain ⟨s', hr⟩ := Option.isSome_iff_exists.mp hsome
  have hreach : Reachable s := ⟨[.fork, .fork], by simp [Allowed], hs⟩
  have hgap : gap (s.current.val + 1) (2 : Slot) = 1 := by
    rw [hcur]
    decide
  obtain ⟨done, rest, u, -, hu, hcurrent, hcount⟩ := ready_task_runs s s' 2 [.tick, .exec "bin/ls" true, .sleep 1]
    hreach hready (by rw [hcur]; decide) (by simp [Allowed, idleName]) hr (by rw [hgap]; decide)
  rw [hgap] at hcount
  exact ⟨s, u, hreach, hcur, hcurrent, done, hu, hcount⟩

/-! ## The answer to a wait -/

/-- The events are kept. -/
theorem switch_history {t s' : Sched} {es : List Event} (h : switchTask t = some s') (hes : es <:+ t.history) :
    es <:+ s'.history := by
  obtain ⟨c, -, rfl⟩ := Option.map_eq_some_iff.mp h
  rw [resume]
  split
  · exact hes.trans (List.suffix_cons ..)
  · exact hes

theorem step_history {s s' : Sched} {op : Op} (h : step s op = some s') : s.history <:+ s'.history := by
  cases op with
  | fork =>
    obtain ⟨m, -, rfl⟩ := Option.map_eq_some_iff.mp h
    exact List.suffix_cons ..
  | exit status => exact switch_history h (List.suffix_cons ..)
  | sleep time => exact switch_history h List.suffix_rfl
  | waitpid pid => exact switch_history h List.suffix_rfl
  | exec filename found =>
    obtain rfl := Option.some.inj h
    rw [kexecvpe]
    split
    · exact List.suffix_rfl
    · exact List.suffix_rfl
  | tick =>
    simp only [step, timerHandler] at h
    generalize updateWaitingAndSleepingTasks s.readyQueue = q at h
    exact switch_history h List.suffix_rfl

theorem run_history {s s' : Sched} {ops : List Op} (h : run step s ops = some s') : s.history <:+ s'.history :=
  run_invariant step (C := fun _ _ => True) (P := fun t => s.history <:+ t.history)
    (fun _ _ _ _ hsuf hs => hsuf.trans (step_history hs)) List.suffix_rfl
    (along_of_forall step (fun _ _ _ => trivial) s) h

/-- The pass gives a task that waits for a certain zombie what this left behind. -/
theorem pass_answers {q : Queue} {n : Nat} {w c : Slot} (hq : TableInv q n) (hw : (q w).status = .waitingOnPid)
    (hid : (q w).pidWaitingFor = (q c).id) (hz : (q c).status = .zombie) :
    (updateWaitingAndSleepingTasks q w).status = .ready ∧
    (updateWaitingAndSleepingTasks q w).pidWaitingFor = (q c).id ∧
    (updateWaitingAndSleepingTasks q w).waitingPidExitStatus = (q c).exitStatus := by
  obtain ⟨before, after, hsplit, hbefore, hafter⟩ := finRange_split w
  have hwb : w ∉ before := fun hm => lt_irrefl w ((hbefore w).mp hm)
  have hnd : before.Nodup := by
    have hall := List.nodup_finRange 100
    rw [hsplit] at hall
    exact (List.nodup_append.mp hall).1
  have hpassed := passed_foldl hq before q [] (passed_nil q) (by simpa using hnd)
  rw [List.nil_append] at hpassed
  have hev := hpassed.evolves
  rw [updateWaitingAndSleepingTasks, hsplit, List.foldl_append, List.foldl_cons]
  -- `p` is the table when the pass comes to `w`
  generalize before.foldl updateSlot q = p at hpassed hev
  have hwp : (p w).status = .waitingOnPid := (hpassed.pending w hwb).1.trans hw
  obtain ⟨hzp, hxp⟩ := (hev c).zombie hz
  have hused : c.val < n := hq.lt_of_not_free (by rw [hz]; decide)
  have htarget : target p w = some c := by
    refine target_of_claim (hq.evolve hev) hused ?_
    rw [(hpassed.pending w hwb).2, hid, (hev c).id]
  have hwc : w ≠ c := by
    rintro rfl
    rw [hw] at hz
    cases hz
  have heffect : slotEffect p w = reap p w c := by simp [slotEffect, hwp, htarget, hzp]
  have hcore : core (after.foldl updateSlot (updateSlot p w) w) = core (reap p w c w) := by
    have hagree := updateSlot_agree p w w
    rw [heffect] at hagree
    rw [Sleep.foldl_core after hafter, hagree]
    rw [Sleep.status_of_core hagree, reap_status hwc, if_pos rfl]
    decide
  have hrecord : core (reap p w c w) = core { p w with
      pidWaitingFor := (p c).id, status := .ready, waitingPidExitStatus := (p c).exitStatus } := by
    rw [reap, Function.update_of_ne hwc, Function.update_self]
  rw [hrecord] at hcore
  refine ⟨?_, ?_, ?_⟩
  · exact field_of_core hcore Task.status fun _ => rfl
  · exact (field_of_core hcore Task.pidWaitingFor fun _ => rfl).trans (hev c).id
  · exact (field_of_core hcore Task.waitingPidExitStatus fun _ => rfl).trans hxp

/-- `w` waits for the zombie in slot `c`, or has been given its result. -/
structure Answering (w c : Slot) (pid : Pid) (st : BitVec 32) (s : Sched) : Prop where
  inv : SchedInv s
  waits : WaitsInv s
  zombie : (s.readyQueue c).status = .zombie
  id : (s.readyQueue c).id = pid
  exitStatus : (s.readyQueue c).exitStatus = st
  answer : (s.readyQueue w).status = .waitingOnPid ∧ (s.readyQueue w).pidWaitingFor = pid ∨
    Settled s w pid pid st

/-- A system call reaches no record but those of the task that makes it, of a new one and
of the one that runs next, whose status stays. -/
theorem step_other {s s' : Sched} {op : Op} {i : Slot} (hi : s.current ≠ i) (hfree : (s.readyQueue i).status ≠ .free)
    (hop : op ≠ .tick) (hs : step s op = some s') : (s'.readyQueue i).status = (s.readyQueue i).status ∧
      (s'.current ≠ i → s'.readyQueue i = s.readyQueue i) := by
  have hset : ∀ t : Task, (s.setCurrent t).readyQueue i = s.readyQueue i := fun t => Function.update_of_ne hi.symm ..
  have hswitch : ∀ {u : Sched}, switchTask u = some s' → u.readyQueue i = s.readyQueue i →
      (s'.readyQueue i).status = (s.readyQueue i).status ∧ (s'.current ≠ i → s'.readyQueue i = s.readyQueue i) := by
    intro u hsw hu
    refine ⟨?_, fun hi' => ((Sleep.switchTask_spec hsw).2.2 i hi'.symm).trans hu⟩
    rw [FileOwnership.switchTask_status hsw, hu]
  cases op with
  | fork =>
    obtain ⟨m, hm, rfl⟩ := Option.map_eq_some_iff.mp hs
    have him : i ≠ m := by
      rintro rfl
      exact hfree (getNextFreeTask_free hm)
    simp only [Function.update_of_ne him, implies_true, and_self]
  | exit status => exact hswitch hs (hset _)
  | sleep time => exact hswitch hs (hset _)
  | waitpid pid => exact hswitch hs (hset _)
  | exec filename found =>
    obtain rfl := Option.some.inj hs
    rw [IdleTask.exec_other s filename found i hi]
    exact ⟨rfl, fun _ => rfl⟩
  | tick => exact absurd rfl hop

theorem not_current {s : Sched} {i : Slot} (h : SchedInv s) (hi : (s.readyQueue i).status ≠ .ready) : s.current ≠ i := by
  rintro rfl
  exact hi h.current

/-- The tick that finds `w` waiting answers it. -/
theorem tick_settles {s s' : Sched} {w c : Slot} {pid : Pid} {st : BitVec 32} (h : Answering w c pid st s)
    (hs : step s .tick = some s') : Settled s' w pid pid st := by
  rcases h.answer with ⟨hw, hpid⟩ | hset
  · have hanswer := pass_answers h.inv.table hw (hpid.trans h.id.symm) h.zombie
    have htab := h.inv.table.evolve (evolves_pass s.readyQueue)
    have hin := h.waits.waits.waiting w hw
    rw [show (view (s.readyQueue w)).pidWaitingFor = pid from hpid] at hin
    rw [h.id, h.exitStatus] at hanswer
    simp only [step, timerHandler] at hs
    generalize updateWaitingAndSleepingTasks s.readyQueue = q at hanswer htab hs
    exact settled_switch (t := { s with timerTick := s.timerTick + 1, readyQueue := q }) htab
      (Or.inl ⟨hin, hanswer.1, hanswer.2.1, hanswer.2.2⟩) hs
  · exact settled_step h.inv h.waits hset hs

theorem step_answering {s s' : Sched} {op : Op} {w c : Slot} {pid : Pid} {st : BitVec 32}
    (h : Answering w c pid st s) (hop : Allowed op) (hs : step s op = some s') : Answering w c pid st s' := by
  obtain ⟨hinv, hkeeps⟩ := step_inv h.inv hop hs
  obtain ⟨hz, hid, hx⟩ := hkeeps c h.zombie
  refine ⟨hinv, waits_step h.inv h.waits hop hs, hz, hid.trans h.id, hx.trans h.exitStatus, ?_⟩
  by_cases htick : op = .tick
  · subst htick
    exact Or.inr (tick_settles h hs)
  rcases h.answer with ⟨hw, hpid⟩ | hset
  · have hne : s.current ≠ w := not_current h.inv (by rw [hw]; decide)
    obtain ⟨hstatus, hsame⟩ := step_other hne (by rw [hw]; decide) htick hs
    have hne' : s'.current ≠ w := not_current hinv (by rw [hstatus, hw]; decide)
    rw [hsame hne']
    exact Or.inl ⟨hw, hpid⟩
  · exact Or.inr (settled_step h.inv h.waits hset hs)

theorem run_answering {s s' : Sched} {ops : List Op} {w c : Slot} {pid : Pid} {st : BitVec 32}
    (h : Answering w c pid st s) (hops : ∀ op ∈ ops, Allowed op) (hr : run step s ops = some s') :
    Answering w c pid st s' :=
  run_invariant step (C := fun _ op => Allowed op) (fun _ _ _ hop hi hs => step_answering hi hop hs) h
    (along_of_forall step (fun op hop _ => hops op hop) s) hr

/-- Another slot is at most 98 slots ahead. -/
theorem ahead_lt {t : Slot} {s : Sched} (h : s.current ≠ t) : ahead t s < 99 := by
  have hne : s.current.val ≠ t.val := fun he => h (Fin.ext he)
  have hc := s.current.isLt
  have ht := t.isLt
  rw [ahead, gap]
  split
  · omega
  · omega

/-- What is owed to a task is returned within a round of switches. -/
theorem settled_returns {s s' : Sched} {ops : List Op} {w : Slot} {pid r : Pid} {st : BitVec 32}
    (hinv : SchedInv s ∧ WaitsInv s) (h : Settled s w pid r st) (hops : ∀ op ∈ ops, Allowed op)
    (hr : run step s ops = some s') (hlong : 99 ≤ ops.countP switches) : .returned w pid r st ∈ s'.history := by
  rcases h with howed | hmem
  · have hcur : s.current ≠ w := by
      rintro rfl
      have hin := howed.inWait
      rw [hinv.2.current] at hin
      cases hin
    have hlt := ahead_lt hcur
    obtain ⟨done, rest, u, rfl, hu, hrun, -⟩ := run_reaches step (C := fun _ op => Allowed op) (P := Queued w)
      (m := ahead w) (fun _ _ _ hop hq hs => step_queued hq hop hs) ⟨hinv.1, howed.ready, hcur⟩
      (along_of_forall step (fun op hop _ => hops op hop) s) hr (by omega)
    rw [run_append, hu, Option.bind_some] at hr
    have hdone : ∀ op ∈ done, Allowed op := fun op hop => hops op (List.mem_append_left _ hop)
    have hwaits : WaitsInv u := (run_invariant step (C := fun _ op => Allowed op) (P := fun s => SchedInv s ∧ WaitsInv s)
      (fun s op t hop hi hs => ⟨(step_inv hi.1 hop hs).1, waits_step hi.1 hi.2 hop hs⟩) hinv
      (along_of_forall step (fun op hop _ => hdone op hop) s) hu).2
    refine (run_history hr).subset ?_
    rcases settled_run hinv (Or.inl howed) hdone hu with howed' | hmem
    · have hin := howed'.inWait
      rw [← hrun, hwaits.current] at hin
      cases hin
    · exact hmem
  · exact (run_history hr).subset hmem

/-- A task that waits for a certain child gets its answer once the child has exited: by
the next tick and 99 switches more, `waitpid` has returned the child's pid and status. -/
theorem waitpid_returns (s s' : Sched) (w c : Slot) (before after : List Op) (h : Reachable s)
    (hw : (s.readyQueue w).status = .waitingOnPid) (hc : (s.readyQueue c).status = .zombie)
    (hpid : (s.readyQueue w).pidWaitingFor = (s.readyQueue c).id)
    (hops : ∀ op ∈ before ++ .tick :: after, Allowed op) (hr : run step s (before ++ .tick :: after) = some s')
    (hlong : 99 ≤ after.countP switches) :
    .returned w (s.readyQueue c).id (s.readyQueue c).id (s.readyQueue c).exitStatus ∈ s'.history := by
  obtain ⟨hinv, hwaits⟩ := reachable_waits h
  obtain ⟨u, hu, hr⟩ := Option.bind_eq_some_iff.mp ((run_append step s before (.tick :: after)).symm.trans hr)
  obtain ⟨v, hv, hr⟩ := (run_cons_eq_some step).mp hr
  have hstart : Answering w c (s.readyQueue c).id (s.readyQueue c).exitStatus s :=
    ⟨hinv, hwaits, hc, rfl, rfl, Or.inl ⟨hw, hpid⟩⟩
  have hbefore := run_answering hstart (fun op hop => hops op (List.mem_append_left _ hop)) hu
  have htick := step_answering hbefore (hops .tick (by simp)) hv
  exact settled_returns ⟨htick.inv, htick.waits⟩ (tick_settles hbefore hv)
    (fun op hop => hops op (List.mem_append_right _ (List.mem_cons_of_mem _ hop))) hr hlong

/-- `init` waits for its first child, which has exited with 3, while the second one lets
the timer tick. -/
theorem waitpid_returns_first : ∃ s s', Reachable s ∧ run step s (List.replicate 100 .tick) = some s' ∧
    .returned 0 2 2 3 ∈ s'.history := by
  have hseen : (run step initializeTasking [.fork, .fork, .waitpid 2, .exit 3]).map (fun s =>
      ((s.readyQueue 0).status, (s.readyQueue 0).pidWaitingFor, (s.readyQueue 1).status, (s.readyQueue 1).id,
        (s.readyQueue 1).exitStatus)) = some (.waitingOnPid, 2, .zombie, 2, 3) := by
    decide +kernel
  obtain ⟨s, hs, hseen⟩ := Option.map_eq_some_iff.mp hseen
  obtain ⟨hw, hseen⟩ := Prod.mk.inj hseen
  obtain ⟨hpid, hseen⟩ := Prod.mk.inj hseen
  obtain ⟨hc, hseen⟩ := Prod.mk.inj hseen
  obtain ⟨hid, hx⟩ := Prod.mk.inj hseen
  have hreach : Reachable s := ⟨_, by simp [Allowed], hs⟩
  obtain ⟨s', hr⟩ := Sleep.ticks_some (Or.inl (reachable_inv hreach).current) 100
  have hticks : ∀ op ∈ [] ++ Op.tick :: List.replicate 99 Op.tick, Allowed op := by
    intro op hop found
    rw [List.nil_append, ← List.replicate_succ] at hop
    rw [List.eq_of_mem_replicate hop]
    exact Op.noConfusion
  have hmem := waitpid_returns s s' 0 1 [] (List.replicate 99 .tick) hreach hw hc (hpid.trans hid.symm) hticks
    (by rwa [List.nil_append, ← List.replicate_succ])
    (by rw [List.countP_replicate, if_pos (show switches .tick = true from rfl)])
  rw [hid, hx] at hmem
  exact ⟨s, s', hreach, hr, hmem⟩

end Fairness
