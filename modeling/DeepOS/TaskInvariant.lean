import DeepOS.Scheduler

/-!
# The task-table invariant

No slot is ever freed, so the table fills from the front: the task in slot `i`
has id `i + 1` and `next_pid` counts the slots in use. Every operation except
`kfork` changes each record only in the way described by `Evolves`; the
invariant is proved once for that relation and once for `kfork`.
-/
namespace TaskInvariant

open TaskTable Scheduler

/-- The changes an operation other than `kfork` may make to a record. -/
structure Evolves (t t' : Task) : Prop where
  index : t'.index = t.index
  id : t'.id = t.id
  name : t.programName ≠ idleName → t'.programName ≠ idleName
  free : t'.status = .free ↔ t.status = .free
  parent : t'.parent = t.parent ∨ t'.parent = none
  zombie : t.status = .zombie → t'.status = .zombie ∧ t'.exitStatus = t.exitStatus
  alive : (t.status ≠ .zombie → t.endTime = 0) → t'.status ≠ .zombie → t'.endTime = 0

theorem Evolves.refl (t : Task) : Evolves t t :=
  ⟨rfl, rfl, fun h => h, Iff.rfl, Or.inl rfl, fun h => ⟨h, rfl⟩, fun h => h⟩

theorem Evolves.trans {t u v : Task} (h : Evolves t u) (h' : Evolves u v) : Evolves t v where
  index := h'.index.trans h.index
  id := h'.id.trans h.id
  name := fun hn => h'.name (h.name hn)
  free := h'.free.trans h.free
  parent := by
    rcases h'.parent with hp | hp
    · rw [hp]; exact h.parent
    · exact Or.inr hp
  zombie := fun hz => ⟨(h'.zombie (h.zombie hz).1).1,
    (h'.zombie (h.zombie hz).1).2.trans (h.zombie hz).2⟩
  alive := fun ha => h'.alive (h.alive ha)

theorem evolves_of_core {t t' : Task} (h : core t = core t') : Evolves t t' := by
  simp only [core, Task.mk.injEq] at h
  obtain ⟨hp, hid, -, hidx, hn, -, hx, -, hst, -, -, -, he, -⟩ := h
  refine ⟨hidx.symm, hid.symm, ?_, ?_, Or.inl hp.symm, ?_, ?_⟩
  · rw [hn]; exact fun h => h
  · rw [hst]
  · rw [hst]; exact fun h => ⟨h, hx.symm⟩
  · rw [hst, he]; exact fun h => h

def QEvolves (q q' : Queue) : Prop := ∀ i, Evolves (q i) (q' i)

theorem QEvolves.refl (q : Queue) : QEvolves q q := fun i => Evolves.refl (q i)

theorem QEvolves.trans {q q' q'' : Queue} (h : QEvolves q q') (h' : QEvolves q' q'') :
    QEvolves q q'' := fun i => (h i).trans (h' i)

theorem qevolves_of_agree {q q' : Queue} (h : Agree q q') : QEvolves q q' :=
  fun i => evolves_of_core (h i)

/-! ## The pass and the switch -/

/-- A relation that holds of each change which the timer's pass and `switch_task` make to
a record. -/
structure Respected (R : Task → Task → Prop) : Prop where
  trans : ∀ {t u v}, R t u → R u v → R t v
  core : ∀ {t t'}, core t = core t' → R t t'
  slept : ∀ {t : Task}, t.status = .sleeping → ∀ (n : Int) {st : Status}, st = .ready ∨ st = .sleeping →
    R t { t with sleepingTime := n, status := st }
  woken : ∀ {t : Task}, t.status = .waitingOnPid → ∀ (pid : Pid) (st : BitVec 32),
    R t { t with pidWaitingFor := pid, status := .ready, waitingPidExitStatus := st }
  disowned : ∀ t : Task, R t { t with parent := none }
  resumed : ∀ t : Task, R t { t with
    newProc := false
    runTime := t.runTime + SCHEDULE_FREQUENCY
    runSessionsCount := t.runSessionsCount + 1 }

section

variable {R : Task → Task → Prop} (hR : Respected R)

include hR

theorem Respected.refl (t : Task) : R t t := hR.core rfl

theorem Respected.update {q : Queue} {i : Slot} {t : Task} (h : R (q i) t) (j : Slot) :
    R (q j) (Function.update q i t j) := by
  by_cases hj : j = i
  · subst hj
    rwa [Function.update_self]
  · rw [Function.update_of_ne hj]
    exact hR.refl (q j)

theorem Respected.slotEffect (q : Queue) (i j : Slot) : R (q j) (slotEffect q i j) := by
  rcases slotEffect_cases q i with ⟨-, he, -⟩ | ⟨hs, n, st, hst, he⟩ | ⟨hs, c, -, -, he⟩
  · rw [he]
    exact hR.refl (q j)
  · rw [he]
    exact hR.update (hR.slept hs n hst) j
  · rw [he, reap]
    exact hR.trans (hR.update (hR.woken hs (q c).id (q c).exitStatus) j) (hR.update (hR.disowned _) j)

theorem Respected.updateSlot (q : Queue) (i j : Slot) : R (q j) (updateSlot q i j) :=
  hR.trans (hR.slotEffect q i j) (hR.core (updateSlot_agree q i j).symm)

theorem Respected.pass (q : Queue) (j : Slot) : R (q j) (updateWaitingAndSleepingTasks q j) := by
  rw [updateWaitingAndSleepingTasks]
  generalize List.finRange 100 = is
  induction is generalizing q with
  | nil => exact hR.refl (q j)
  | cons i is ih => exact hR.trans (hR.updateSlot q i j) (ih _)

theorem Respected.resume (s : Sched) (n j : Slot) : R (s.readyQueue j) ((resume s n).readyQueue j) := by
  rw [Scheduler.resume]
  split
  · exact hR.update (hR.resumed _) j
  · exact hR.update (hR.resumed _) j

end

/-! ## Each operation evolves the table -/

theorem respected_evolves : Respected Evolves where
  trans := Evolves.trans
  core := evolves_of_core
  slept := by
    rintro t hs n st (rfl | rfl)
    · exact ⟨rfl, rfl, fun h => h, by simp [hs], Or.inl rfl, by simp [hs], fun h _ => h (by simp [hs])⟩
    · exact ⟨rfl, rfl, fun h => h, by simp [hs], Or.inl rfl, by simp [hs], fun h _ => h (by simp [hs])⟩
  woken := fun hs _ _ =>
    ⟨rfl, rfl, fun h => h, by simp [hs], Or.inl rfl, by simp [hs], fun h _ => h (by simp [hs])⟩
  disowned := fun _ => ⟨rfl, rfl, fun h => h, Iff.rfl, Or.inr rfl, fun h => ⟨h, rfl⟩, fun h => h⟩
  resumed := fun _ => ⟨rfl, rfl, fun h => h, Iff.rfl, Or.inl rfl, fun h => ⟨h, rfl⟩, fun h => h⟩

theorem qevolves_update {q : Queue} {i : Slot} {t : Task} (h : Evolves (q i) t) :
    QEvolves q (Function.update q i t) := respected_evolves.update h

theorem evolves_slotEffect (q : Queue) (i : Slot) : QEvolves q (slotEffect q i) := respected_evolves.slotEffect q i

theorem evolves_updateSlot (q : Queue) (i : Slot) : QEvolves q (updateSlot q i) := respected_evolves.updateSlot q i

theorem evolves_pass (q : Queue) : QEvolves q (updateWaitingAndSleepingTasks q) := respected_evolves.pass q

theorem evolves_resume (s : Sched) (n : Slot) : QEvolves s.readyQueue (resume s n).readyQueue :=
  respected_evolves.resume s n

@[simp] theorem resume_current (s : Sched) (n : Slot) : (resume s n).current = n := by
  rw [resume]; split <;> rfl

@[simp] theorem resume_nextPid (s : Sched) (n : Slot) : (resume s n).nextPid = s.nextPid := by
  rw [resume]; split <;> rfl

theorem resume_status (s : Sched) (n i : Slot) :
    ((resume s n).readyQueue i).status = (s.readyQueue i).status := by
  have h : (Function.update s.readyQueue n
      { s.readyQueue n with
        newProc := false
        runTime := (s.readyQueue n).runTime + SCHEDULE_FREQUENCY
        runSessionsCount := (s.readyQueue n).runSessionsCount + 1 } i).status =
      (s.readyQueue i).status := by
    by_cases hi : i = n
    · subst hi; simp
    · simp [hi]
  rw [resume]
  split <;> exact h

/-! ## The invariant -/

def pidOf (i : Slot) : Pid := BitVec.ofNat 32 (i.val + 1)

theorem pidOf_toNat (i : Slot) : (pidOf i).toNat = i.val + 1 := by
  have := i.isLt
  rw [pidOf, BitVec.toNat_ofNat]
  omega

theorem pidOf_inj {i j : Slot} (h : pidOf i = pidOf j) : i = j := by
  have ht := congrArg BitVec.toNat h
  rw [pidOf_toNat, pidOf_toNat] at ht
  exact Fin.ext (by omega)

/-- The first `n` slots are in use, the others as they were at boot. -/
structure TableInv (q : Queue) (n : Nat) : Prop where
  index : ∀ i, (q i).index = i.val
  used : ∀ i : Slot, i.val < n → (q i).status ≠ .free ∧ (q i).id = pidOf i
  unused : ∀ i : Slot, n ≤ i.val → (q i).status = .free ∧ (q i).id = 0 ∧ (q i).parent = none
  parent : ∀ i p, (q i).parent = some p → p.val < i.val
  name : ∀ i, (q i).programName ≠ idleName
  alive : ∀ i, (q i).status ≠ .zombie → (q i).endTime = 0

theorem TableInv.evolve {q q' : Queue} {n : Nat} (h : TableInv q n) (he : QEvolves q q') :
    TableInv q' n where
  index := fun i => (he i).index.trans (h.index i)
  used := fun i hi =>
    ⟨fun hf => (h.used i hi).1 ((he i).free.mp hf), (he i).id.trans (h.used i hi).2⟩
  unused := fun i hi => by
    obtain ⟨hf, hid, hp⟩ := h.unused i hi
    refine ⟨(he i).free.mpr hf, (he i).id.trans hid, ?_⟩
    rcases (he i).parent with hp' | hp'
    · rw [hp', hp]
    · exact hp'
  parent := fun i p hp => by
    rcases (he i).parent with hp' | hp'
    · exact h.parent i p (hp'.symm.trans hp)
    · rw [hp'] at hp; cases hp
  name := fun i => (he i).name (h.name i)
  alive := fun i => (he i).alive (h.alive i)

/-- A slot is in use exactly when it is among the first `n`. -/
theorem TableInv.lt_of_not_free {q : Queue} {n : Nat} (h : TableInv q n) {i : Slot}
    (hi : (q i).status ≠ .free) : i.val < n := by
  by_contra hn
  exact hi (h.unused i (by omega)).1

theorem TableInv.id_eq {q : Queue} {n : Nat} (h : TableInv q n) {i : Slot}
    (hi : (q i).status ≠ .free) : (q i).id = pidOf i := (h.used i (h.lt_of_not_free hi)).2

theorem TableInv.parent_used {q : Queue} {n : Nat} (h : TableInv q n) {i p : Slot}
    (hp : (q i).parent = some p) : i.val < n ∧ p.val < n := by
  have hi : i.val < n := by
    by_contra hn
    rw [(h.unused i (by omega)).2.2] at hp
    cases hp
  have := h.parent i p hp
  exact ⟨hi, by omega⟩

structure SchedInv (s : Sched) : Prop where
  table : TableInv s.readyQueue (s.nextPid.toNat - 1)
  pids : 2 ≤ s.nextPid.toNat ∧ s.nextPid.toNat ≤ 101
  current : (s.readyQueue s.current).status = .ready

theorem initializeTasking_inv : SchedInv initializeTasking := by
  have hq : ∀ i : Slot, i ≠ 0 →
      initializeTasking.readyQueue i = { Task.zero with index := i.val } := by
    intro i hi
    simp [initializeTasking, hi]
  have hq0 : initializeTasking.readyQueue 0 =
      { Task.zero with index := 0, id := 1, status := .ready, programName := "init" } := by
    simp [initializeTasking]
  have hn : initializeTasking.nextPid.toNat = 2 := by decide
  have h0 : ∀ i : Slot, i.val < 2 - 1 → i = 0 := fun i hi => Fin.ext (by simp; omega)
  have hcases : ∀ (P : Slot → Task → Prop),
      P 0 { Task.zero with index := 0, id := 1, status := .ready, programName := "init" } →
      (∀ i : Slot, i ≠ 0 → P i { Task.zero with index := i.val }) →
      ∀ i, P i (initializeTasking.readyQueue i) := by
    intro P hP0 hP i
    by_cases hi : i = 0
    · subst hi; rw [hq0]; exact hP0
    · rw [hq i hi]; exact hP i hi
  refine ⟨?_, by rw [hn]; decide, by rw [show initializeTasking.current = 0 from rfl, hq0]⟩
  rw [hn]
  refine ⟨?_, ?_, ?_, ?_, ?_, ?_⟩
  · exact hcases (fun i t => t.index = i.val) rfl (fun _ _ => rfl)
  · intro i hi
    rw [h0 i hi, hq0]
    exact ⟨by decide, by decide⟩
  · intro i hi
    have hne : i ≠ 0 := by rintro rfl; simp at hi
    rw [hq i hne]
    exact ⟨rfl, rfl, rfl⟩
  · intro i p hp
    have hnone := hcases (fun _ t => t.parent = none) rfl (fun _ _ => rfl) i
    rw [hnone] at hp
    cases hp
  · exact hcases (fun _ t => t.programName ≠ idleName) (by decide)
      (fun _ _ => by simp [Task.zero, idleName])
  · exact hcases (fun _ t => t.status ≠ .zombie → t.endTime = 0) (fun _ => rfl) (fun _ _ _ => rfl)

/-! ## Preservation -/

/-- `switch_task` picks a ready task and runs it. -/
theorem switchTask_cases {s s' : Sched} {n : Nat} (h : TableInv s.readyQueue n)
    (hs : switchTask s = some s') :
    ∃ c, (s.readyQueue c).status = .ready ∧ s' = resume s c := by
  rw [switchTask, Option.map_eq_some_iff] at hs
  obtain ⟨c, hc, rfl⟩ := hs
  exact ⟨c, getNextReadyTask_ready h.name hc, rfl⟩

/-- An operation that evolves the table and then switches keeps the invariant. -/
theorem switch_inv {s t s' : Sched} (h : SchedInv s) (he : QEvolves s.readyQueue t.readyQueue)
    (hp : t.nextPid = s.nextPid) (hs : switchTask t = some s') :
    SchedInv s' ∧ QEvolves s.readyQueue s'.readyQueue := by
  have ht : TableInv t.readyQueue (t.nextPid.toNat - 1) := by rw [hp]; exact h.table.evolve he
  obtain ⟨c, hc, rfl⟩ := switchTask_cases ht hs
  have hr := evolves_resume t c
  refine ⟨⟨?_, ?_, ?_⟩, he.trans hr⟩
  · rw [resume_nextPid]; exact ht.evolve hr
  · rw [resume_nextPid, hp]; exact h.pids
  · rw [resume_current, resume_status]; exact hc

theorem qevolves_setCurrent {s : Sched} {t : Task} (h : Evolves s.currentTask t) :
    QEvolves s.readyQueue (s.setCurrent t).readyQueue := qevolves_update h

theorem evolves_exit {s : Sched} (h : SchedInv s) (status : BitVec 32) :
    QEvolves s.readyQueue (s.setCurrent { s.currentTask with
      exitStatus := status, status := .zombie, endTime := s.timerTick }).readyQueue := by
  have hc : s.currentTask.status = .ready := h.current
  exact qevolves_setCurrent ⟨rfl, rfl, fun h => h, by simp [hc], Or.inl rfl, by simp [hc],
    fun _ h => absurd rfl h⟩

theorem evolves_sleep {s : Sched} (h : SchedInv s) (time : BitVec 32) :
    QEvolves s.readyQueue (s.setCurrent { s.currentTask with
      sleepingTime := ((time * 18).toNat : Int), status := .sleeping }).readyQueue := by
  have hc : s.currentTask.status = .ready := h.current
  exact qevolves_setCurrent ⟨rfl, rfl, fun h => h, by simp [hc], Or.inl rfl, by simp [hc],
    fun h _ => h (by simp [hc])⟩

theorem evolves_wait {s : Sched} (h : SchedInv s) (pid : Pid) :
    QEvolves s.readyQueue (s.setCurrent { s.currentTask with
      status := .waitingOnPid, pidWaitingFor := pid, timeAtWait := s.timerTick }).readyQueue := by
  have hc : s.currentTask.status = .ready := h.current
  exact qevolves_setCurrent ⟨rfl, rfl, fun h => h, by simp [hc], Or.inl rfl, by simp [hc],
    fun h _ => h (by simp [hc])⟩

theorem evolves_exec (s : Sched) {filename : String} (hf : filename ≠ idleName) (found : Bool) :
    QEvolves s.readyQueue (kexecvpe s filename found).readyQueue := by
  rw [kexecvpe]
  split
  · exact qevolves_setCurrent
      ⟨rfl, rfl, fun _ => hf, Iff.rfl, Or.inl rfl, fun h => ⟨h, rfl⟩, fun h => h⟩
  · exact qevolves_setCurrent
      ⟨rfl, rfl, fun h => h, Iff.rfl, Or.inl rfl, fun h => ⟨h, rfl⟩, fun h => h⟩

theorem exec_status (s : Sched) (filename : String) (found : Bool) (i : Slot) :
    ((kexecvpe s filename found).readyQueue i).status = (s.readyQueue i).status := by
  rw [kexecvpe]
  by_cases hi : i = s.current
  · subst hi; split <;> simp [Sched.setCurrent, Sched.currentTask]
  · split <;> simp [Sched.setCurrent, hi]

theorem getNextFreeTask_free {q : Queue} {m : Slot} (h : getNextFreeTask q = some m) : (q m).status = .free := by
  simpa using List.find?_some h

/-- The slot `kfork` takes is the first one never used. -/
theorem getNextFreeTask_spec {q : Queue} {n : Nat} (h : TableInv q n) {m : Slot}
    (hm : getNextFreeTask q = some m) : m.val = n := by
  rw [getNextFreeTask, List.find?_eq_some_iff_getElem] at hm
  obtain ⟨hfree, i, hi, hget, hlow⟩ := hm
  have hge : n ≤ m.val := by
    by_contra hlt
    exact (h.used m (by omega)).1 (by simpa using hfree)
  rw [List.getElem_finRange] at hget
  have hmi : m.val = i := by rw [← hget]; rfl
  by_contra hne
  have hlt : n < i := by omega
  have hn := hlow n hlt
  rw [List.getElem_finRange] at hn
  have hml := m.isLt
  have hfree' : (q ⟨n, by omega⟩).status = .free := (h.unused ⟨n, by omega⟩ (by simp)).1
  have hnot : ¬ (q ⟨n, by omega⟩).status = .free := by simpa using hn
  exact hnot hfree'

/-- The record `kfork` writes into the slot it takes. -/
def forkedTask (s : Sched) (m : Slot) : Task :=
  { s.readyQueue m with
    id := s.nextPid
    tempBuffer := s.currentTask.programName
    parent := some s.current
    newProc := true
    status := .ready
    programName := s.currentTask.programName }

/-- What `kfork` does: the first unused slot becomes a ready child of the caller. -/
theorem kfork_cases {s s' : Sched} (h : SchedInv s) (hs : kfork s = some s') :
    ∃ m : Slot, m.val = s.nextPid.toNat - 1 ∧
      s' = { s with
        nextPid := s.nextPid + 1
        readyQueue := Function.update s.readyQueue m (forkedTask s m)
        history := .forked s.current m :: s.history } := by
  rw [kfork, Option.map_eq_some_iff] at hs
  obtain ⟨m, hm, rfl⟩ := hs
  exact ⟨m, getNextFreeTask_spec h.table hm, rfl⟩

theorem fork_inv {s s' : Sched} (h : SchedInv s) (hs : kfork s = some s') : SchedInv s' := by
  obtain ⟨m, hm, rfl⟩ := kfork_cases h hs
  have hml := m.isLt
  have hcur : s.current.val < s.nextPid.toNat - 1 :=
    h.table.lt_of_not_free (by rw [h.current]; decide)
  have hpids := h.pids
  have hnext : (s.nextPid + 1).toNat = s.nextPid.toNat + 1 := by
    rw [BitVec.toNat_add]
    simp
    omega
  have hcm : s.current ≠ m := by rintro rfl; omega
  refine ⟨?_, ?_, ?_⟩
  · rw [hnext]
    refine ⟨?_, ?_, ?_, ?_, ?_, ?_⟩
    · intro i
      by_cases hi : i = m
      · subst hi; simpa [forkedTask] using h.table.index i
      · simpa [hi] using h.table.index i
    · intro i hi
      by_cases him : i = m
      · subst him
        have hid : s.nextPid = pidOf i := by
          apply BitVec.eq_of_toNat_eq
          rw [pidOf_toNat]
          omega
        simp [forkedTask, hid]
      · have hne : i.val ≠ m.val := fun he => him (Fin.ext he)
        simpa [him] using h.table.used i (by omega)
    · intro i hi
      have him : i ≠ m := by rintro rfl; omega
      simpa [him] using h.table.unused i (by omega)
    · intro i p hp
      by_cases hi : i = m
      · subst hi
        simp only [Function.update_self, forkedTask, Option.some.injEq] at hp
        subst hp
        omega
      · simp only [Function.update_of_ne hi] at hp
        exact h.table.parent i p hp
    · intro i
      by_cases hi : i = m
      · subst hi
        simpa [forkedTask, Sched.currentTask] using h.table.name s.current
      · simpa [hi] using h.table.name i
    · intro i
      by_cases hi : i = m
      · subst hi
        have hfree := (h.table.unused i (by omega)).1
        have halive := h.table.alive i (by rw [hfree]; decide)
        simpa [forkedTask] using halive
      · simpa [hi] using h.table.alive i
  · rw [hnext]
    omega
  · simpa [hcm] using h.current

def KeepsZombies (q q' : Queue) : Prop :=
  ∀ i, (q i).status = .zombie →
    (q' i).status = .zombie ∧ (q' i).id = (q i).id ∧ (q' i).exitStatus = (q i).exitStatus

theorem QEvolves.keepsZombies {q q' : Queue} (h : QEvolves q q') : KeepsZombies q q' :=
  fun i hz => ⟨((h i).zombie hz).1, (h i).id, ((h i).zombie hz).2⟩

theorem KeepsZombies.trans {q q' q'' : Queue} (h : KeepsZombies q q') (h' : KeepsZombies q' q'') :
    KeepsZombies q q'' := fun i hz => by
  obtain ⟨h1, h2, h3⟩ := h i hz
  obtain ⟨h1', h2', h3'⟩ := h' i h1
  exact ⟨h1', h2'.trans h2, h3'.trans h3⟩

theorem fork_keepsZombies {s s' : Sched} (h : SchedInv s) (hs : kfork s = some s') :
    KeepsZombies s.readyQueue s'.readyQueue := by
  obtain ⟨m, hm, rfl⟩ := kfork_cases h hs
  intro i hz
  have him : i ≠ m := by
    rintro rfl
    rw [(h.table.unused i (by omega)).1] at hz
    cases hz
  simp [him, hz]

theorem step_inv {s s' : Sched} {op : Op} (h : SchedInv s) (hop : Allowed op)
    (hs : step s op = some s') : SchedInv s' ∧ KeepsZombies s.readyQueue s'.readyQueue := by
  cases op with
  | fork => exact ⟨fork_inv h hs, fork_keepsZombies h hs⟩
  | exit status =>
    have hr := switch_inv (t := { s.setCurrent { s.currentTask with
        exitStatus := status, status := .zombie, endTime := s.timerTick } with
      history := .exited s.current status :: s.history }) h (evolves_exit h status) rfl hs
    exact ⟨hr.1, hr.2.keepsZombies⟩
  | sleep time =>
    have hr := switch_inv h (evolves_sleep h time) rfl hs
    exact ⟨hr.1, hr.2.keepsZombies⟩
  | waitpid pid =>
    have hr := switch_inv (t := { s.setCurrent { s.currentTask with
        status := .waitingOnPid, pidWaitingFor := pid, timeAtWait := s.timerTick } with
      inWait := Function.update s.inWait s.current (some pid) }) h (evolves_wait h pid) rfl hs
    exact ⟨hr.1, hr.2.keepsZombies⟩
  | exec filename found =>
    have hf : filename ≠ idleName := by rintro rfl; exact hop found rfl
    have he := evolves_exec s hf found
    simp only [step, Option.some.injEq] at hs
    subst hs
    have hpid : (kexecvpe s filename found).nextPid = s.nextPid := by rw [kexecvpe]; split <;> rfl
    have hcur : (kexecvpe s filename found).current = s.current := by rw [kexecvpe]; split <;> rfl
    refine ⟨⟨?_, ?_, ?_⟩, he.keepsZombies⟩
    · rw [hpid]; exact h.table.evolve he
    · rw [hpid]; exact h.pids
    · rw [hcur, exec_status]; exact h.current
  | tick =>
    have he := evolves_pass s.readyQueue
    simp only [step, timerHandler] at hs
    generalize updateWaitingAndSleepingTasks s.readyQueue = q at he hs
    have hr := switch_inv (t := { s with timerTick := s.timerTick + 1, readyQueue := q }) h he rfl hs
    exact ⟨hr.1, hr.2.keepsZombies⟩

theorem reachable_inv {s : Sched} (h : Reachable s) : SchedInv s := by
  obtain ⟨ops, hops, hr⟩ := h
  exact Transition.run_invariant step (C := fun _ op => Allowed op)
    (fun s op t hop hi hs => (step_inv hi hop hs).1) initializeTasking_inv
    (Transition.along_of_forall step (fun op hop _ => hops op hop) _) hr

/-- Everything the table promises. -/
structure Sound (s : Sched) : Prop where
  index : ∀ i, (s.readyQueue i).index = i.val
  distinct : ∀ i j, (s.readyQueue i).status ≠ .free → (s.readyQueue j).status ≠ .free →
    (s.readyQueue i).id = (s.readyQueue j).id → i = j
  given : ∀ i, (s.readyQueue i).status ≠ .free →
    1 ≤ (s.readyQueue i).id.toNat ∧ (s.readyQueue i).id.toNat ≤ s.nextPid.toNat - 1
  parent : ∀ i p, (s.readyQueue i).parent = some p →
    (s.readyQueue p).status ≠ .free ∧ (s.readyQueue p).id.toNat < (s.readyQueue i).id.toNat
  chosen : ∀ current c, getNextReadyTask s.readyQueue current = some c → (s.readyQueue c).status = .ready

theorem SchedInv.sound {s : Sched} (h : SchedInv s) : Sound s where
  index := h.table.index
  distinct := fun i j hi hj hid => by
    rw [h.table.id_eq hi, h.table.id_eq hj] at hid
    exact pidOf_inj hid
  given := fun i hi => by
    have hlt := h.table.lt_of_not_free hi
    rw [h.table.id_eq hi, pidOf_toNat]
    omega
  parent := fun i p hp => by
    obtain ⟨hi, hpn⟩ := h.table.parent_used hp
    have hlt := h.table.parent i p hp
    rw [(h.table.used i hi).2, (h.table.used p hpn).2, pidOf_toNat, pidOf_toNat]
    exact ⟨(h.table.used p hpn).1, by omega⟩
  chosen := fun _ _ hc => getNextReadyTask_ready h.table.name hc

end TaskInvariant
