import DeepOS.Fairness

/-!
# Parents and children

The forks of a run make a tree with `init` at its root. A parent pointer is never changed
but cleared, and only when the child is a zombie whose result is being taken. A set of
tasks that wait for each other stays as it is, for nothing but an exit ends a wait.
-/
namespace ProcessTree

open TaskTable Scheduler TaskInvariant Wakeup WaitStatus Transition Fairness

def Forked (s : Sched) (p c : Slot) : Prop := .forked p c ∈ s.history

/-- Zombies stay zombies, and the others keep their parents. -/
def KeepsParents (q q' : Queue) : Prop :=
  ∀ i, ((q i).status = .zombie → (q' i).status = .zombie) ∧
    ((q' i).status ≠ .zombie → (q' i).parent = (q i).parent)

theorem KeepsParents.refl (q : Queue) : KeepsParents q q := fun _ => ⟨fun h => h, fun _ => rfl⟩

theorem KeepsParents.trans {q q' q'' : Queue} (h : KeepsParents q q') (h' : KeepsParents q' q'') :
    KeepsParents q q'' := fun i =>
  ⟨fun hz => (h' i).1 ((h i).1 hz), fun hz => ((h' i).2 hz).trans ((h i).2 fun hz' => hz ((h' i).1 hz'))⟩

theorem keepsParents_update {q : Queue} {i : Slot} {t : Task} (hz : (q i).status = .zombie → t.status = .zombie)
    (hp : t.status ≠ .zombie → t.parent = (q i).parent) : KeepsParents q (Function.update q i t) := by
  intro j
  by_cases hj : j = i
  · subst hj
    rw [Function.update_self]
    exact ⟨hz, hp⟩
  · rw [Function.update_of_ne hj]
    exact KeepsParents.refl q j

theorem keepsParents_view {q q' : Queue} (h : ∀ i, view (q' i) = view (q i)) : KeepsParents q q' := by
  intro i
  have hstatus : (q' i).status = (q i).status := congrArg View.status (h i)
  have hparent : (q' i).parent = (q i).parent := congrArg View.parent (h i)
  exact ⟨fun hz => hstatus.trans hz, fun _ => hparent⟩

theorem keepsParents_slotEffect (q : Queue) (x : Slot) : KeepsParents q (slotEffect q x) := by
  rcases slotEffect_cases q x with ⟨-, he, -⟩ | ⟨hs, n, st, -, he⟩ | ⟨hs, c, -, hz, he⟩
  · rw [he]
    exact KeepsParents.refl q
  · rw [he]
    exact keepsParents_update (by simp [hs]) fun _ => rfl
  · have hxc : c ≠ x := by
      rintro rfl
      rw [hs] at hz
      cases hz
    have hready : KeepsParents q (Function.update q x { q x with
        pidWaitingFor := (q c).id, status := .ready, waitingPidExitStatus := (q c).exitStatus }) :=
      keepsParents_update (by simp [hs]) fun _ => rfl
    rw [he, reap]
    refine hready.trans (keepsParents_update (fun hz => hz) ?_)
    simp [hxc, hz]

theorem keepsParents_pass (q : Queue) : KeepsParents q (updateWaitingAndSleepingTasks q) := by
  rw [updateWaitingAndSleepingTasks]
  generalize List.finRange 100 = is
  induction is generalizing q with
  | nil => exact KeepsParents.refl q
  | cons x is ih =>
    have hagree : KeepsParents (slotEffect q x) (updateSlot q x) :=
      keepsParents_view fun i => (updateSlot_agree q x).field view (fun _ => rfl) i
    exact ((keepsParents_slotEffect q x).trans hagree).trans (ih _)

/-! ## The tree -/

/-- Every task but `init` was forked once, by a task in a lower slot, which is its parent
as long as it is no zombie. -/
structure Tree (s : Sched) : Prop where
  lower : ∀ p c, Forked s p c → p.val < c.val ∧ c.val < s.nextPid.toNat - 1
  once : ∀ p p' c, Forked s p c → Forked s p' c → p = p'
  born : ∀ c : Slot, c ≠ 0 → c.val < s.nextPid.toNat - 1 → ∃ p, Forked s p c
  kept : ∀ p c, Forked s p c → (s.readyQueue c).status ≠ .zombie → (s.readyQueue c).parent = some p

theorem Tree.keep {s s' : Sched} (h : Tree s) (hforked : ∀ p c, Forked s' p c ↔ Forked s p c)
    (hpid : s'.nextPid = s.nextPid) (hkeeps : KeepsParents s.readyQueue s'.readyQueue) : Tree s' where
  lower := fun p c hf => by
    rw [hpid]
    exact h.lower p c ((hforked p c).mp hf)
  once := fun p p' c hf hf' => h.once p p' c ((hforked p c).mp hf) ((hforked p' c).mp hf')
  born := fun c hc hlt => by
    rw [hpid] at hlt
    obtain ⟨p, hp⟩ := h.born c hc hlt
    exact ⟨p, (hforked p c).mpr hp⟩
  kept := fun p c hf hz =>
    ((hkeeps c).2 hz).trans (h.kept p c ((hforked p c).mp hf) fun hz' => hz ((hkeeps c).1 hz'))

theorem tree_resume {s : Sched} (n : Slot) (h : Tree s) : Tree (resume s n) := by
  refine h.keep ?_ (resume_nextPid s n) (keepsParents_view fun i => congrFun (resume_view s n) i)
  intro p c
  rw [Forked, Forked, resume]
  split
  · simp
  · exact Iff.rfl

theorem tree_switch {s s' : Sched} (hs : switchTask s = some s') (h : Tree s) : Tree s' := by
  obtain ⟨c, -, rfl⟩ := Option.map_eq_some_iff.mp hs
  exact tree_resume c h

/-- The running task changes its own record. -/
theorem Tree.set {s t : Sched} {u : Task} (h : Tree s) (hinv : SchedInv s)
    (hq : t.readyQueue = (s.setCurrent u).readyQueue) (hu : u.parent = s.currentTask.parent)
    (hforked : ∀ p c, Forked t p c ↔ Forked s p c) (hpid : t.nextPid = s.nextPid) : Tree t := by
  refine h.keep hforked hpid ?_
  rw [hq]
  refine keepsParents_update ?_ fun _ => hu
  rw [hinv.current]
  exact fun hz => by cases hz

theorem tree_fork {s s' : Sched} (h : Tree s) (hinv : SchedInv s) (hs : kfork s = some s') : Tree s' := by
  have hinv' := fork_inv hinv hs
  obtain ⟨m, hm, rfl⟩ := kfork_cases hinv hs
  have hpids := hinv.pids
  have hpids' := hinv'.pids
  have hnext : (s.nextPid + 1).toNat = s.nextPid.toNat + 1 := by
    have hmlt := m.isLt
    rw [BitVec.toNat_add]
    simp
    omega
  have hcur : s.current.val < s.nextPid.toNat - 1 := hinv.table.lt_of_not_free (by rw [hinv.current]; decide)
  have hnew : ∀ p c, .forked p c ∈ Event.forked s.current m :: s.history ↔
      (p = s.current ∧ c = m) ∨ Forked s p c := by
    intro p c
    rw [List.mem_cons, Event.forked.injEq, Forked]
  -- no fork before this one made slot `m`
  have hfresh : ∀ p, ¬ Forked s p m := fun p hp => by
    have := (h.lower p m hp).2
    omega
  refine ⟨?_, ?_, ?_, ?_⟩
  · intro p c hf
    simp only [hnext]
    rcases (hnew p c).mp hf with ⟨rfl, rfl⟩ | hold
    · omega
    · have := h.lower p c hold
      omega
  · intro p p' c hf hf'
    rcases (hnew p c).mp hf with ⟨rfl, rfl⟩ | hold
    · rcases (hnew p' c).mp hf' with ⟨rfl, -⟩ | hold'
      · rfl
      · exact absurd hold' (hfresh p')
    · rcases (hnew p' c).mp hf' with ⟨rfl, rfl⟩ | hold'
      · exact absurd hold (hfresh p)
      · exact h.once p p' c hold hold'
  · intro c hc hlt
    simp only [hnext] at hlt
    by_cases hcm : c = m
    · exact ⟨s.current, (hnew _ _).mpr (Or.inl ⟨rfl, hcm⟩)⟩
    · have hne : c.val ≠ m.val := fun he => hcm (Fin.ext he)
      obtain ⟨p, hp⟩ := h.born c hc (by omega)
      exact ⟨p, (hnew p c).mpr (Or.inr hp)⟩
  · intro p c hf hz
    rcases (hnew p c).mp hf with ⟨rfl, rfl⟩ | hold
    · simp [forkedTask]
    · have hcm : c ≠ m := by
        rintro rfl
        exact hfresh p hold
      simp only [Function.update_of_ne hcm] at hz ⊢
      exact h.kept p c hold hz

theorem step_tree {s s' : Sched} {op : Op} (h : Tree s) (hinv : SchedInv s) (hs : step s op = some s') : Tree s' := by
  cases op with
  | fork => exact tree_fork h hinv hs
  | exit status => exact tree_switch hs (h.set hinv rfl rfl (by simp [Forked]) rfl)
  | sleep time => exact tree_switch hs (h.set hinv rfl rfl (fun _ _ => Iff.rfl) rfl)
  | waitpid pid => exact tree_switch hs (h.set hinv rfl rfl (fun _ _ => Iff.rfl) rfl)
  | exec filename found =>
    obtain rfl := Option.some.inj hs
    rw [kexecvpe]
    split
    · exact h.set hinv rfl rfl (fun _ _ => Iff.rfl) rfl
    · exact h.set hinv rfl rfl (fun _ _ => Iff.rfl) rfl
  | tick =>
    have hpass := keepsParents_pass s.readyQueue
    simp only [step, timerHandler] at hs
    generalize updateWaitingAndSleepingTasks s.readyQueue = q at hpass hs
    exact tree_switch hs (h.keep (fun _ _ => Iff.rfl) rfl hpass)

theorem initializeTasking_tree : Tree initializeTasking where
  lower := fun p c hf => absurd hf (List.not_mem_nil)
  once := fun p p' c hf => absurd hf (List.not_mem_nil)
  born := by
    intro c hc hlt
    have hn : initializeTasking.nextPid.toNat = 2 := by decide
    exact absurd (Fin.ext (by simp; omega)) hc
  kept := fun p c hf => absurd hf (List.not_mem_nil)

theorem reachable_tree {s : Sched} (h : Reachable s) : SchedInv s ∧ Tree s := by
  obtain ⟨ops, hops, hr⟩ := h
  exact run_invariant step (C := fun _ op => Allowed op) (P := fun s => SchedInv s ∧ Tree s)
    (fun _ _ _ hop hi hs => ⟨(step_inv hi.1 hop hs).1, step_tree hi.2 hi.1 hs⟩)
    ⟨initializeTasking_inv, initializeTasking_tree⟩
    (along_of_forall step (fun op hop _ => hops op hop) _) hr

/-- A task descends from `init`. -/
theorem Tree.descends {s : Sched} (h : Tree s) : ∀ n (c : Slot), c.val = n → c.val < s.nextPid.toNat - 1 →
    Relation.ReflTransGen (Forked s) 0 c := by
  intro n
  induction n using Nat.strong_induction_on with
  | _ n ih =>
    intro c hn hc
    by_cases h0 : c = 0
    · rw [h0]
    · obtain ⟨p, hp⟩ := h.born c h0 hc
      have hlower := h.lower p c hp
      exact (ih p.val (by omega) p rfl (by omega)).tail hp

/-- In every reachable state the tasks in use are the nodes of a tree: `init`, which nobody
forked, is its root, and every other one was forked exactly once. The parent pointer of a
task that is no zombie is its place in this tree, so that `get_children` lists every such
child; that of a zombie is so too, or has been cleared. -/
theorem process_tree (s : Sched) (h : Reachable s) :
    (∀ c, (s.readyQueue c).status ≠ .free ↔ Relation.ReflTransGen (Forked s) 0 c) ∧
    (∀ p, ¬ Forked s p 0) ∧
    (∀ p p' c, Forked s p c → Forked s p' c → p = p') ∧
    (∀ p c, Forked s p c → (s.readyQueue c).status ≠ .zombie →
      (s.readyQueue c).parent = some p ∧ c ∈ children s.readyQueue (s.readyQueue p).id) ∧
    (∀ p c, (s.readyQueue c).parent = some p → Forked s p c) := by
  obtain ⟨hinv, htree⟩ := reachable_tree h
  have hforks := (reachable_waits h).2.waits.forks
  refine ⟨?_, ?_, htree.once, ?_, fun p c hp => hforks c p hp⟩
  · intro c
    constructor
    · exact fun hc => htree.descends c.val c rfl (hinv.table.lt_of_not_free hc)
    · intro hc
      rcases Relation.ReflTransGen.cases_tail hc with rfl | ⟨p, -, hp⟩
      · exact (hinv.table.used 0 (by have := hinv.pids.1; simp; omega)).1
      · exact (hinv.table.used c (htree.lower p c hp).2).1
  · intro p hp
    exact absurd (htree.lower p 0 hp).1 (Nat.not_lt_zero _)
  · intro p c hf hz
    have hparent := htree.kept p c hf hz
    exact ⟨hparent, mem_children.mpr ⟨p, hparent, rfl⟩⟩

/-- The child's own child descends from `init`, which has exited meanwhile. -/
theorem process_tree_grandchild : ∃ s, Reachable s ∧ (s.readyQueue 0).status = .zombie ∧
    Relation.ReflTransGen (Forked s) 0 2 ∧ (s.readyQueue 2).parent = some 1 := by
  have hseen : (run step initializeTasking [.fork, .tick, .fork, .tick, .tick, .exit 0]).map (fun s =>
      ((s.readyQueue 0).status, (s.readyQueue 2).status, s.history)) =
        some (.zombie, .ready, [.exited 0 0, .forked 1 2, .forked 0 1]) := by
    decide +kernel
  obtain ⟨s, hs, hseen⟩ := Option.map_eq_some_iff.mp hseen
  obtain ⟨hinit, hseen⟩ := Prod.mk.inj hseen
  obtain ⟨hstatus, hhistory⟩ := Prod.mk.inj hseen
  have hreach : Reachable s := ⟨_, by simp [Allowed], hs⟩
  obtain ⟨hnodes, -, -, hparent, -⟩ := process_tree s hreach
  have hforked : Forked s 1 2 := by
    rw [Forked, hhistory]
    decide
  exact ⟨s, hreach, hinit, (hnodes 2).mp (by rw [hstatus]; decide), (hparent 1 2 hforked (by rw [hstatus]; decide)).1⟩

/-! ## Waiting for each other -/

/-- The task in slot `w` waits for a task in `D`, for a child without having any, or for a
pid that no task is ever given. -/
def WaitsIn (D : Slot → Prop) (q : Queue) (w : Slot) : Prop :=
  if (q w).pidWaitingFor = anyChild then
    ∀ c, (q c).parent = some w → (∀ e, (q e).parent = some w → e ≤ c) → D c
  else (∃ c, D c ∧ (q c).id = (q w).pidWaitingFor) ∨ (q w).pidWaitingFor = 0 ∨ MAX_TASKS < (q w).pidWaitingFor.toNat

/-- All tasks of `D` wait, and for nothing but tasks of `D`. With `-1` it is the child in the
highest slot that counts. -/
def Deadlocked (D : Slot → Prop) (q : Queue) : Prop :=
  ∀ w, D w → (q w).status = .waitingOnPid ∧ WaitsIn D q w

section

variable {D : Slot → Prop} {q : Queue} {n : Nat} (hq : TableInv q n) (h : Deadlocked D q)

include hq h

/-- What a task of `D` looks at is no zombie. -/
theorem Deadlocked.target {w c : Slot} (hw : D w) (ht : target q w = some c) : (q c).status ≠ .zombie := by
  obtain ⟨hstatus, hwaits⟩ := h w hw
  have hused : w.val < n := hq.lt_of_not_free (by rw [hstatus]; decide)
  have hD : ∀ d, D d → (q d).status ≠ .zombie := fun d hd => by
    rw [(h d hd).1]
    decide
  rw [WaitsIn] at hwaits
  split at hwaits
  · rename_i hany
    obtain ⟨hparent, hmax⟩ := (target_any_iff hq hused hany c).mp ht
    exact hD c (hwaits c hparent hmax)
  · rename_i hany
    have hid := target_id hany ht
    rcases hwaits with ⟨d, hd, hdid⟩ | hnever
    · have hdn : d.val < n := hq.lt_of_not_free (by rw [(h d hd).1]; decide)
      rw [target_of_claim hq hdn hdid.symm, Option.some.injEq] at ht
      exact ht ▸ hD d hd
    · -- no task in use has such an id, and the slots not in use are free
      intro hz
      have hcid := hq.id_eq (i := c) (by rw [hz]; decide)
      have hc := c.isLt
      rw [← hid, hcid, pidOf_toNat] at hnever
      rcases hnever with hzero | hlarge
      · exact pidOf_ne_zero c hzero
      · exact absurd hlarge (by rw [MAX_TASKS]; omega)

/-- The set stays deadlocked while its records are kept and its tasks get no new children. -/
theorem Deadlocked.keep {q' : Queue} (hsame : ∀ w, D w → (q' w).status = (q w).status ∧
      (q' w).pidWaitingFor = (q w).pidWaitingFor ∧ (q' w).id = (q w).id ∧ (q' w).parent = (q w).parent)
    (hnew : ∀ e w, D w → (q' e).parent = some w → (q e).parent = some w) : Deadlocked D q' := by
  intro w hw
  obtain ⟨hstatus, hwaits⟩ := h w hw
  obtain ⟨hstatus', hpid, -, -⟩ := hsame w hw
  refine ⟨hstatus'.trans hstatus, ?_⟩
  rw [WaitsIn] at hwaits ⊢
  rw [hpid]
  split
  · rename_i hany
    rw [if_pos hany] at hwaits
    intro c hc hmax
    have hused : w.val < n := hq.lt_of_not_free (by rw [hstatus]; decide)
    obtain ⟨m, hm⟩ := exists_target hq hused hany (hnew c w hw hc)
    obtain ⟨hparent, hle⟩ := (target_any_iff hq hused hany m).mp hm
    have hmD := hwaits m hparent hle
    have hmc : m ≤ c := hmax m ((hsame m hmD).2.2.2.trans hparent)
    rwa [le_antisymm (hle c (hnew c w hw hc)) hmc]
  · rename_i hany
    rw [if_neg hany] at hwaits
    rcases hwaits with ⟨d, hd, hid⟩ | hnever
    · exact Or.inl ⟨d, hd, (hsame d hd).2.2.1.trans hid⟩
    · exact Or.inr hnever

theorem Deadlocked.agree {q' : Queue} (ha : Agree q' q) : Deadlocked D q' :=
  h.keep hq (fun w _ => ⟨ha.status w, ha.pidWaitingFor w, ha.id w, ha.parent w⟩)
    (fun e _ _ hp => (ha.parent e).symm.trans hp)

/-- A record outside the set changes, and gets no new parent. -/
theorem Deadlocked.update {i : Slot} {t : Task} (hi : ¬ D i) (hp : t.parent = (q i).parent ∨ t.parent = none) :
    Deadlocked D (Function.update q i t) := by
  refine h.keep hq ?_ ?_
  · intro w hw
    have hwi : w ≠ i := by
      rintro rfl
      exact hi hw
    rw [Function.update_of_ne hwi]
    exact ⟨rfl, rfl, rfl, rfl⟩
  · intro e w _ he
    by_cases hei : e = i
    · subst hei
      rw [Function.update_self] at he
      rcases hp with hp | hp
      · rw [← hp, he]
      · rw [hp] at he
        cases he
    · rwa [Function.update_of_ne hei] at he

theorem Deadlocked.slotEffect (x : Slot) : Deadlocked D (slotEffect q x) := by
  have hout : ∀ i, (q i).status ≠ .waitingOnPid → ¬ D i := fun i hi hD => hi (h i hD).1
  rcases slotEffect_cases q x with ⟨-, he, -⟩ | ⟨hs, m, st, -, he⟩ | ⟨hs, c, ht, hz, he⟩
  · rw [he]
    exact h
  · rw [he]
    exact h.update hq (hout x (by rw [hs]; decide)) (Or.inl rfl)
  · have hx : ¬ D x := fun hD => h.target hq hD ht hz
    have hready := h.update hq (t := { q x with
      pidWaitingFor := (q c).id, status := .ready, waitingPidExitStatus := (q c).exitStatus }) hx (Or.inl rfl)
    have hev : QEvolves q (Function.update q x { q x with
        pidWaitingFor := (q c).id, status := .ready, waitingPidExitStatus := (q c).exitStatus }) :=
      qevolves_update (respected_evolves.woken hs _ _)
    rw [he, reap]
    exact hready.update (hq.evolve hev) (hout c (by rw [hz]; decide)) (Or.inr rfl)

end

theorem deadlocked_pass {D : Slot → Prop} {q : Queue} {n : Nat} (hq : TableInv q n) (h : Deadlocked D q) :
    Deadlocked D (updateWaitingAndSleepingTasks q) := by
  rw [updateWaitingAndSleepingTasks]
  generalize List.finRange 100 = is
  induction is generalizing q with
  | nil => exact h
  | cons x is ih =>
    have hx := (h.slotEffect hq x).agree (hq.evolve (evolves_slotEffect q x)) (updateSlot_agree q x)
    exact ih (hq.evolve (evolves_updateSlot q x)) hx

/-- What every operation but `kfork` does to the records. -/
theorem step_evolves {s s' : Sched} {op : Op} (h : SchedInv s) (hop : Allowed op) (hfork : op ≠ .fork)
    (hs : step s op = some s') : QEvolves s.readyQueue s'.readyQueue := by
  cases op with
  | fork => exact absurd rfl hfork
  | exit status =>
    exact (switch_inv (t := { s.setCurrent { s.currentTask with
        exitStatus := status, status := .zombie, endTime := s.timerTick } with
      history := .exited s.current status :: s.history }) h (evolves_exit h status) rfl hs).2
  | sleep time => exact (switch_inv h (evolves_sleep h time) rfl hs).2
  | waitpid pid =>
    exact (switch_inv (t := { s.setCurrent { s.currentTask with
        status := .waitingOnPid, pidWaitingFor := pid, timeAtWait := s.timerTick } with
      inWait := Function.update s.inWait s.current (some pid) }) h (evolves_wait h pid) rfl hs).2
  | exec filename found =>
    obtain rfl := Option.some.inj hs
    exact evolves_exec s (fun hf => hop found (hf ▸ rfl)) found
  | tick =>
    have he := evolves_pass s.readyQueue
    simp only [step, timerHandler] at hs
    generalize updateWaitingAndSleepingTasks s.readyQueue = q at he hs
    exact (switch_inv (t := { s with timerTick := s.timerTick + 1, readyQueue := q }) h he rfl hs).2

theorem step_deadlocked {D : Slot → Prop} {s s' : Sched} {op : Op} (hinv : SchedInv s) (h : Deadlocked D s.readyQueue)
    (hop : Allowed op) (hs : step s op = some s') : Deadlocked D s'.readyQueue := by
  have hcur : ∀ w, D w → s.current ≠ w := fun w hw => not_current hinv (by rw [(h w hw).1]; decide)
  have hinv' := (step_inv hinv hop hs).1
  by_cases htick : op = .tick
  · subst htick
    have hpass := deadlocked_pass hinv.table h
    have htab := hinv.table.evolve (evolves_pass s.readyQueue)
    simp only [step, timerHandler] at hs
    generalize updateWaitingAndSleepingTasks s.readyQueue = q at hpass htab hs
    obtain ⟨c, -, rfl⟩ := Option.map_eq_some_iff.mp hs
    have hview : ∀ i, view ((resume { s with timerTick := s.timerTick + 1, readyQueue := q } c).readyQueue i) = view (q i) :=
      congrFun (resume_view { s with timerTick := s.timerTick + 1, readyQueue := q } c)
    refine hpass.keep htab (fun w _ => ?_) fun e w _ hp => ?_
    · exact ⟨congrArg View.status (hview w), congrArg View.pidWaitingFor (hview w), congrArg View.id (hview w),
        congrArg View.parent (hview w)⟩
    · exact (congrArg View.parent (hview e)).symm.trans hp
  · have hrecord : ∀ w, D w → s'.readyQueue w = s.readyQueue w := by
      intro w hw
      obtain ⟨hstatus, hsame⟩ := step_other (hcur w hw) (by rw [(h w hw).1]; decide) htick hs
      exact hsame (not_current hinv' (by rw [hstatus, (h w hw).1]; decide))
    refine h.keep hinv.table (fun w hw => by rw [hrecord w hw]; exact ⟨rfl, rfl, rfl, rfl⟩) fun e w hw hp => ?_
    by_cases hfork : op = .fork
    · subst hfork
      obtain ⟨m, -, rfl⟩ := kfork_cases hinv hs
      by_cases hem : e = m
      · subst hem
        simp only [Function.update_self, forkedTask, Option.some.injEq] at hp
        exact absurd hp (hcur w hw)
      · simpa only [Function.update_of_ne hem] using hp
    · rcases ((step_evolves hinv hop hfork hs) e).parent with hsame | hnone
      · exact hsame.symm.trans hp
      · rw [hnone] at hp
        cases hp

/-- Tasks that wait for nothing but each other (for a certain task among them, with `-1`
for a child in the highest slot among them, for a child without having any, or for a pid
that is never given) wait for ever: no run of the other tasks ends one of these waits. -/
theorem deadlock_is_forever (D : Slot → Prop) (s s' : Sched) (ops : List Op) (h : Reachable s)
    (hD : Deadlocked D s.readyQueue) (hops : ∀ op ∈ ops, Allowed op) (hr : run step s ops = some s') :
    Deadlocked D s'.readyQueue ∧ ∀ w, D w → s'.current ≠ w ∧ (s'.readyQueue w).status = .waitingOnPid := by
  have hend : SchedInv s' ∧ Deadlocked D s'.readyQueue :=
    run_invariant step (C := fun _ op => Allowed op) (P := fun t => SchedInv t ∧ Deadlocked D t.readyQueue)
      (fun _ _ _ hop hi hs => ⟨(step_inv hi.1 hop hs).1, step_deadlocked hi.1 hi.2 hop hs⟩)
      ⟨reachable_inv h, hD⟩ (along_of_forall step (fun op hop _ => hops op hop) s) hr
  refine ⟨hend.2, fun w hw => ⟨not_current hend.1 ?_, (hend.2 w hw).1⟩⟩
  rw [(hend.2 w hw).1]
  decide

/-- `init` waits for its child and the child for `init`: neither comes back. -/
theorem deadlock_is_forever_two : ∃ s, Reachable s ∧ Deadlocked (fun w => w = 0 ∨ w = 1) s.readyQueue ∧
    ∀ n s', run step s (List.replicate n .tick) = some s' → s'.current ≠ 0 ∧ s'.current ≠ 1 := by
  have hseen : (run step initializeTasking [.fork, .fork, .waitpid 2, .waitpid 1]).map (fun s =>
      ((s.readyQueue 0).status, (s.readyQueue 0).pidWaitingFor, (s.readyQueue 0).id,
        (s.readyQueue 1).status, (s.readyQueue 1).pidWaitingFor, (s.readyQueue 1).id)) =
          some (.waitingOnPid, 2, 1, .waitingOnPid, 1, 2) := by
    decide +kernel
  obtain ⟨s, hs, hseen⟩ := Option.map_eq_some_iff.mp hseen
  simp only [Prod.mk.injEq] at hseen
  obtain ⟨hw, hpid, hid, hw', hpid', hid'⟩ := hseen
  have hreach : Reachable s := ⟨_, by simp [Allowed], hs⟩
  have hD : Deadlocked (fun w => w = 0 ∨ w = 1) s.readyQueue := by
    rintro w (rfl | rfl)
    · refine ⟨hw, ?_⟩
      rw [WaitsIn, hpid, if_neg (by decide)]
      exact Or.inl ⟨1, Or.inr rfl, hid'⟩
    · refine ⟨hw', ?_⟩
      rw [WaitsIn, hpid', if_neg (by decide)]
      exact Or.inl ⟨0, Or.inl rfl, hid⟩
  refine ⟨s, hreach, hD, fun n s' hr => ?_⟩
  have hticks : ∀ op ∈ List.replicate n Op.tick, Allowed op := by
    intro op hop found
    rw [List.eq_of_mem_replicate hop]
    exact Op.noConfusion
  have hforever := (deadlock_is_forever _ s s' _ hreach hD hticks hr).2
  exact ⟨(hforever 0 (Or.inl rfl)).1, (hforever 1 (Or.inr rfl)).1⟩

end ProcessTree
