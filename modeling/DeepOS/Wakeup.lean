import DeepOS.TaskInvariant

/-!
# Wakeups of `wait`

When the timer's pass reaches a task waiting with `-1`, the loop over its
children stops at the first one: a task that is not a zombie has `end_time` 0,
so the condition `end_time > time_at_wait` never lets the loop go on. Only the
child in the highest slot is looked at. `wakeup_iff` says for which tables the
waiting task is woken.
-/
namespace Wakeup

open TaskTable Scheduler TaskInvariant

/-- Some task among `done` was waiting for the id of `d`. -/
def ClaimedBy (q : Queue) (done : List Slot) (d : Slot) : Prop :=
  ∃ x ∈ done, (q x).status = .waitingOnPid ∧ (q x).pidWaitingFor = (q d).id

/-- What the pass has done to the table `q₀` after the slots `done`. -/
structure Passed (q₀ q : Queue) (done : List Slot) : Prop where
  evolves : QEvolves q₀ q
  zombie : ∀ i, (q i).status = .zombie ↔ (q₀ i).status = .zombie
  pending : ∀ i, i ∉ done →
    (q i).status = (q₀ i).status ∧ (q i).pidWaitingFor = (q₀ i).pidWaitingFor
  claimed : ∀ d w, w ∉ done → (q₀ d).parent = some w →
    ((q d).parent = none ↔ (q₀ d).status = .zombie ∧ ClaimedBy q₀ done d)

theorem passed_nil (q : Queue) : Passed q q [] := by
  refine ⟨QEvolves.refl q, fun _ => Iff.rfl, fun _ _ => ⟨rfl, rfl⟩, ?_⟩
  intro d w _ hp
  simp [ClaimedBy, hp]

theorem Passed.agree {q₀ q q' : Queue} {done : List Slot} (h : Passed q₀ q done)
    (ha : Agree q q') : Passed q₀ q' done where
  evolves := h.evolves.trans (qevolves_of_agree ha)
  zombie := fun i => by rw [← ha.status i]; exact h.zombie i
  pending := fun i hi => by rw [← ha.status i, ← ha.pidWaitingFor i]; exact h.pending i hi
  claimed := fun d w hw hp => by rw [← ha.parent d]; exact h.claimed d w hw hp

/-- A slot that claims nothing adds no claim. -/
theorem claimedBy_snoc {q : Queue} {done : List Slot} {x d : Slot} :
    ClaimedBy q (done ++ [x]) d ↔ ClaimedBy q done d ∨
      ((q x).status = .waitingOnPid ∧ (q x).pidWaitingFor = (q d).id) := by
  simp only [ClaimedBy, List.mem_append, List.mem_singleton]
  constructor
  · rintro ⟨y, hy | rfl, h⟩
    · exact Or.inl ⟨y, hy, h⟩
    · exact Or.inr h
  · rintro (⟨y, hy, h⟩ | h)
    · exact ⟨y, Or.inl hy, h⟩
    · exact ⟨x, Or.inr rfl, h⟩

/-! ## Ids under the table invariant -/

theorem pidOf_ne_anyChild (i : Slot) : pidOf i ≠ anyChild := by
  intro h
  have ht := congrArg BitVec.toNat h
  rw [pidOf_toNat] at ht
  have hany : anyChild.toNat = 4294967295 := by decide
  have := i.isLt
  omega

theorem pidOf_ne_zero (i : Slot) : pidOf i ≠ 0 := by
  intro h
  have ht := congrArg BitVec.toNat h
  rw [pidOf_toNat] at ht
  simp at ht

/-- `get_task` finds the task in use with the given id. -/
theorem getTask_eq {q : Queue} {n : Nat} (h : TableInv q n) {d : Slot} (hd : d.val < n) :
    getTask q (q d).id = some d := by
  have hfound : (getTask q (q d).id).isSome := by
    rw [getTask, List.find?_isSome]
    exact ⟨d, List.mem_finRange d, by simp⟩
  obtain ⟨c, hc⟩ := Option.isSome_iff_exists.mp hfound
  rw [hc]
  have hid : (q c).id = (q d).id := by
    rw [getTask] at hc
    simpa using List.find?_some hc
  rw [(h.used d hd).2] at hid
  by_cases hcn : c.val < n
  · rw [(h.used c hcn).2] at hid
    rw [pidOf_inj hid]
  · rw [(h.unused c (by omega)).2.1] at hid
    exact absurd hid.symm (pidOf_ne_zero d)

/-- Being a child of the task in slot `w` means to point at `w`. -/
theorem isChildOf_iff {q : Queue} {n : Nat} (h : TableInv q n) {w : Slot} (hw : w.val < n)
    (d : Slot) : IsChildOf q (q w).id d ↔ (q d).parent = some w := by
  constructor
  · rintro ⟨p, hp, hid⟩
    have hpn := (h.parent_used hp).2
    rw [(h.used p hpn).2, (h.used w hw).2] at hid
    rw [hp, pidOf_inj hid]
  · intro hp
    exact ⟨w, hp, rfl⟩

/-! ## One slot of the pass -/

@[simp] theorem reap_parent {q : Queue} {i c : Slot} (d : Slot) :
    (reap q i c d).parent = if d = c then none else (q d).parent := by
  by_cases hd : d = c
  · subst hd; simp [reap]
  · by_cases hi : d = i
    · subst hi; simp [reap, hd]
    · simp [reap, hd, hi]

theorem reap_status {q : Queue} {i c : Slot} (hic : i ≠ c) (d : Slot) :
    (reap q i c d).status = if d = i then .ready else (q d).status := by
  by_cases hd : d = i
  · subst hd; simp [reap, hic]
  · by_cases hc : d = c
    · subst hc; simp [reap, hd]
    · simp [reap, hd, hc]

theorem reap_pidWaitingFor {q : Queue} {i c d : Slot} (hd : d ≠ i) :
    (reap q i c d).pidWaitingFor = (q d).pidWaitingFor := by
  by_cases hc : d = c
  · subst hc; simp [reap, hd]
  · simp [reap, hd, hc]

/-- A task that waits for the id of a task in use looks at that task. -/
theorem target_of_claim {q : Queue} {n : Nat} (h : TableInv q n) {x d : Slot} (hd : d.val < n)
    (hid : (q x).pidWaitingFor = (q d).id) : target q x = some d := by
  have hne : (q x).pidWaitingFor ≠ anyChild := by
    rw [hid, (h.used d hd).2]
    exact pidOf_ne_anyChild d
  rw [target, if_neg hne, hid, getTask_eq h hd]

section

variable {q₀ q : Queue} {n : Nat} {done : List Slot} {x : Slot} (h₀ : TableInv q₀ n) (h : Passed q₀ q done)

include h₀ h

/-- A task that waits for the id of a child of another one looks at that child. -/
theorem Passed.target_of_claim (hx : x ∉ done) {d w : Slot} (hp : (q₀ d).parent = some w)
    (hid : (q₀ x).pidWaitingFor = (q₀ d).id) : target q x = some d := by
  apply Wakeup.target_of_claim (h₀.evolve h.evolves) (h₀.parent_used hp).1
  rw [(h.pending x hx).2, hid, (h.evolves d).id]

/-- A slot that the pass leaves alone claims no zombie. -/
theorem Passed.idle (hx : x ∉ done)
    (hno : (q x).status = .waitingOnPid → ∀ c, target q x = some c → (q c).status ≠ .zombie) :
    Passed q₀ q (done ++ [x]) := by
  have hdone : ∀ i, i ∉ done ++ [x] → i ∉ done := fun i hi hm => hi (List.mem_append_left _ hm)
  refine ⟨h.evolves, h.zombie, fun i hi => h.pending i (hdone i hi), ?_⟩
  intro d w hw hp
  rw [h.claimed d w (hdone w hw) hp, claimedBy_snoc]
  constructor
  · exact fun hcl => ⟨hcl.1, Or.inl hcl.2⟩
  · rintro ⟨hzd, hcl | ⟨hxw, hid⟩⟩
    · exact ⟨hzd, hcl⟩
    · -- `x` would have found the zombie it waits for
      exact absurd ((h.zombie d).mpr hzd)
        (hno ((h.pending x hx).1.trans hxw) d (h.target_of_claim h₀ hx hp hid))

omit h₀ in
/-- A sleeping slot claims nothing. -/
theorem Passed.slept (hx : x ∉ done) (hs : (q x).status = .sleeping) {m : Int} {st : Status}
    (hst : st = .ready ∨ st = .sleeping) :
    Passed q₀ (Function.update q x { q x with sleepingTime := m, status := st }) (done ++ [x]) := by
  have hnw : (q₀ x).status ≠ .waitingOnPid := by
    rw [← (h.pending x hx).1, hs]
    decide
  have hmem : ∀ i, i ∉ done ++ [x] → i ∉ done ∧ i ≠ x := by
    intro i hi
    simpa using hi
  refine ⟨h.evolves.trans (qevolves_update (respected_evolves.slept hs m hst)), ?_, ?_, ?_⟩
  · intro i
    rw [← h.zombie i]
    by_cases hi : i = x
    · subst hi
      rcases hst with rfl | rfl <;> simp [hs]
    · simp [hi]
  · intro i hi
    simpa [(hmem i hi).2] using h.pending i (hmem i hi).1
  · intro d w hw hp
    have hpar : (Function.update q x { q x with sleepingTime := m, status := st } d).parent =
        (q d).parent := by
      by_cases hd : d = x
      · subst hd
        simp
      · simp [hd]
    rw [hpar, h.claimed d w (hmem w hw).1 hp, claimedBy_snoc]
    simp [hnw]

/-- A slot that takes a zombie claims that one and no other. -/
theorem Passed.reap (hx : x ∉ done) {c : Slot} (hs : (q x).status = .waitingOnPid) (ht : target q x = some c)
    (hz : (q c).status = .zombie) : Passed q₀ (reap q x c) (done ++ [x]) := by
  have hq := h₀.evolve h.evolves
  have hxc : x ≠ c := by
    rintro rfl
    rw [hs] at hz
    cases hz
  have hev : QEvolves q (Scheduler.reap q x c) := by
    have heffect : slotEffect q x = Scheduler.reap q x c := by simp [slotEffect, hs, ht, hz]
    rw [← heffect]
    exact evolves_slotEffect q x
  have hmem : ∀ i, i ∉ done ++ [x] → i ∉ done ∧ i ≠ x := by
    intro i hi
    simpa using hi
  refine ⟨h.evolves.trans hev, ?_, ?_, ?_⟩
  · intro i
    rw [← h.zombie i, reap_status hxc]
    by_cases hi : i = x
    · subst hi
      simp [hs]
    · simp [hi]
  · intro i hi
    obtain ⟨hid, hix⟩ := hmem i hi
    rw [reap_status hxc, if_neg hix, reap_pidWaitingFor hix]
    exact h.pending i hid
  · intro d w hw hp
    obtain ⟨hwd, hwx⟩ := hmem w hw
    rw [reap_parent, claimedBy_snoc]
    by_cases hdc : d = c
    · subst hdc
      simp only [if_true, true_iff]
      refine ⟨(h.zombie d).mp hz, ?_⟩
      by_cases hany : (q x).pidWaitingFor = anyChild
      · -- a child of `x` is not a child of `w`
        have hxn := hq.lt_of_not_free (i := x) (by rw [hs]; decide)
        have hpx := (isChildOf_iff hq hxn d).mp (target_child hany ht)
        rcases (h.evolves d).parent with hpd | hpd
        · rw [hpd, hp] at hpx
          exact absurd (Option.some.inj hpx) hwx
        · rw [hpd] at hpx
          cases hpx
      · refine Or.inr ⟨(h.pending x hx).1.symm.trans hs, ?_⟩
        rw [← (h.pending x hx).2, ← target_id hany ht, (h.evolves d).id]
    · rw [if_neg hdc, h.claimed d w hwd hp]
      constructor
      · exact fun hcl => ⟨hcl.1, Or.inl hcl.2⟩
      · rintro ⟨hzd, hcl | ⟨hxw, hid⟩⟩
        · exact ⟨hzd, hcl⟩
        · rw [h.target_of_claim h₀ hx hp hid] at ht
          exact absurd (Option.some.inj ht) hdc

/-- The children of a task that the pass has not reached lose their parent only
to a task that waits for their id. -/
theorem passed_slotEffect (hx : x ∉ done) : Passed q₀ (slotEffect q x) (done ++ [x]) := by
  rcases slotEffect_cases q x with ⟨-, he, hno⟩ | ⟨hs, m, st, hst, he⟩ | ⟨hs, c, ht, hz, he⟩
  · rw [he]
    exact h.idle h₀ hx hno
  · rw [he]
    exact h.slept hx hs hst
  · rw [he]
    exact h.reap h₀ hx hs ht hz

end

theorem passed_updateSlot {q₀ q : Queue} {n : Nat} {done : List Slot} {x : Slot}
    (h₀ : TableInv q₀ n) (h : Passed q₀ q done) (hx : x ∉ done) :
    Passed q₀ (updateSlot q x) (done ++ [x]) :=
  (passed_slotEffect h₀ h hx).agree (updateSlot_agree q x).symm

theorem passed_foldl {q₀ : Queue} {n : Nat} (h₀ : TableInv q₀ n) (todo : List Slot) :
    ∀ (q : Queue) (done : List Slot), Passed q₀ q done → (done ++ todo).Nodup →
      Passed q₀ (todo.foldl updateSlot q) (done ++ todo) := by
  induction todo with
  | nil =>
    intro q done h _
    simpa using h
  | cons x todo ih =>
    intro q done h hnd
    have hx : x ∉ done := by
      intro hmem
      exact (List.nodup_append.mp hnd).2.2 x hmem x (List.mem_cons_self ..) rfl
    have happ : done ++ x :: todo = (done ++ [x]) ++ todo := by simp
    rw [List.foldl_cons, happ]
    rw [happ] at hnd
    exact ih _ _ (passed_updateSlot h₀ h hx) hnd

/-! ## The task that waits with `-1` -/

/-- The slots of the list of children come in decreasing order. -/
theorem children_pairwise (q : Queue) (pid : Pid) : (children q pid).Pairwise (fun i j => j < i) := by
  rw [children, List.pairwise_reverse]
  exact (List.pairwise_lt_finRange 100).filter _

/-- No turn of the loop is taken: the task looked at is the first of the list. -/
theorem target_any {q : Queue} {n : Nat} (h : TableInv q n) {w : Slot}
    (hany : (q w).pidWaitingFor = anyChild) : target q w = (children q (q w).id).head? := by
  rw [target, if_pos hany]
  cases children q (q w).id with
  | nil => rfl
  | cons c l =>
    have hstop : ¬ ((q c).status ≠ .zombie ∧ (q c).endTime > (q w).timeAtWait) := by
      rintro ⟨hz, hlt⟩
      rw [h.alive c hz] at hlt
      simp at hlt
    rw [List.find?_cons_of_pos (by simpa only [decide_eq_true_eq] using hstop), List.head?_cons]

/-- The child a task waiting with `-1` looks at is the one in the highest slot. -/
theorem target_any_iff {q : Queue} {n : Nat} (h : TableInv q n) {w : Slot} (hw : w.val < n)
    (hany : (q w).pidWaitingFor = anyChild) (c : Slot) :
    target q w = some c ↔
      (q c).parent = some w ∧ ∀ e, (q e).parent = some w → e ≤ c := by
  have hmem : ∀ d, d ∈ children q (q w).id ↔ (q d).parent = some w :=
    fun d => mem_children.trans (isChildOf_iff h hw d)
  have hord := children_pairwise q (q w).id
  rw [target_any h hany]
  cases hl : children q (q w).id with
  | nil =>
    simp only [hl, List.not_mem_nil, false_iff] at hmem
    simp [hmem c]
  | cons a l =>
    rw [hl, List.pairwise_cons] at hord
    have ha : (q a).parent = some w := (hmem a).mp (by simp [hl])
    have htop : ∀ e, (q e).parent = some w → e ≤ a := by
      intro e he
      have hin := (hmem e).mpr he
      rw [hl, List.mem_cons] at hin
      rcases hin with rfl | hin
      · exact le_refl e
      · exact (hord.1 e hin).le
    rw [List.head?_cons, Option.some.injEq]
    constructor
    · rintro rfl
      exact ⟨ha, htop⟩
    · rintro ⟨hc, hmax⟩
      exact le_antisymm (hmax a ha) (htop c hc)

theorem exists_target {q : Queue} {n : Nat} (h : TableInv q n) {w d : Slot} (hw : w.val < n)
    (hany : (q w).pidWaitingFor = anyChild) (hd : (q d).parent = some w) :
    ∃ m, target q w = some m := by
  have hmem : d ∈ children q (q w).id := mem_children.mpr ((isChildOf_iff h hw d).mpr hd)
  rw [target_any h hany]
  cases hl : children q (q w).id with
  | nil => rw [hl] at hmem; cases hmem
  | cons m l => exact ⟨m, rfl⟩

theorem updateSlot_status_of_ne {q : Queue} {i x : Slot} (hne : i ≠ x) :
    (updateSlot q x i).status = (q i).status := by
  rw [(updateSlot_agree q x).status i]
  rcases slotEffect_cases q x with ⟨-, he, -⟩ | ⟨-, n, st, -, he⟩ | ⟨hs, c, -, hz, he⟩
  · rw [he]
  · simp [he, hne]
  · have hxc : x ≠ c := by rintro rfl; rw [hs] at hz; cases hz
    rw [he, reap_status hxc, if_neg hne]

/-- The slots after `i` leave its status alone. -/
theorem foldl_status_of_not_mem (todo : List Slot) {i : Slot} (hi : i ∉ todo) :
    ∀ q : Queue, (todo.foldl updateSlot q i).status = (q i).status := by
  induction todo with
  | nil => intro q; rfl
  | cons x todo ih =>
    intro q
    rw [List.mem_cons, not_or] at hi
    rw [List.foldl_cons, ih hi.2, updateSlot_status_of_ne hi.1]

/-- Processing a waiting slot makes it ready exactly when it looks at a zombie. -/
theorem updateSlot_waiting {q : Queue} {w : Slot} (hw : (q w).status = .waitingOnPid) :
    (updateSlot q w w).status = .ready ↔ ∃ c, target q w = some c ∧ (q c).status = .zombie := by
  rw [(updateSlot_agree q w).status w]
  rcases slotEffect_cases q w with ⟨-, he, hno⟩ | ⟨hs, -⟩ | ⟨-, c, ht, hz, he⟩
  · rw [he, hw]
    constructor
    · intro h; cases h
    · rintro ⟨c, hc, hz⟩
      exact absurd hz (hno hw c hc)
  · rw [hw] at hs; cases hs
  · have hwc : w ≠ c := by rintro rfl; rw [hw] at hz; cases hz
    rw [he, reap_status hwc, if_pos rfl]
    exact ⟨fun _ => ⟨c, ht, hz⟩, fun _ => rfl⟩

/-- The slots before and after `w` in the order of the pass. -/
theorem finRange_split (w : Slot) :
    ∃ before after, List.finRange 100 = before ++ w :: after ∧ (∀ x, x ∈ before ↔ x < w) ∧
      w ∉ after := by
  obtain ⟨before, after, hsplit⟩ := List.append_of_mem (List.mem_finRange w)
  have hord := List.pairwise_lt_finRange 100
  rw [hsplit, List.pairwise_append, List.pairwise_cons] at hord
  obtain ⟨-, ⟨hafter, -⟩, hbefore⟩ := hord
  refine ⟨before, after, hsplit, ?_, fun hm => lt_irrefl w (hafter w hm)⟩
  intro x
  constructor
  · exact fun hx => hbefore x hx w (List.mem_cons_self ..)
  · intro hx
    have hmem := List.mem_finRange x
    rw [hsplit, List.mem_append, List.mem_cons] at hmem
    rcases hmem with hm | rfl | hm
    · exact hm
    · exact absurd hx (lt_irrefl _)
    · exact absurd (hafter x hm) (not_lt.mpr hx.le)

def Available (q : Queue) (w d : Slot) : Prop :=
  (q d).parent = some w ∧ (q d).status = .zombie ∧
    ∀ x, x < w → (q x).status = .waitingOnPid → (q x).pidWaitingFor ≠ (q d).id

/-- A zombie child of `w` that no other task is waiting for. -/
def Unclaimed (q : Queue) (w c : Slot) : Prop :=
  (q c).parent = some w ∧ (q c).status = .zombie ∧
    ∀ x, x ≠ w → (q x).status = .waitingOnPid → (q x).pidWaitingFor ≠ (q c).id

/-- The table as the pass finds it at `w`: the children still there are those no
lower slot has taken. -/
theorem Passed.parent_iff {q₀ q : Queue} {done : List Slot} {w : Slot} (h : Passed q₀ q done)
    (hdone : ∀ x, x ∈ done ↔ x < w) (d : Slot) :
    (q d).parent = some w ↔
      (q₀ d).parent = some w ∧ ((q₀ d).status = .zombie → Available q₀ w d) := by
  have hw : w ∉ done := fun hm => lt_irrefl w ((hdone w).mp hm)
  have hpar := (h.evolves d).parent
  have hclaim : ∀ hp : (q₀ d).parent = some w, (q₀ d).status = .zombie →
      (ClaimedBy q₀ done d ↔ ¬ Available q₀ w d) := by
    intro hp hz
    simp only [ClaimedBy, Available, hp, hz, true_and, hdone, not_forall, ne_eq, not_not]
    constructor
    · rintro ⟨x, hx, hs, hid⟩; exact ⟨x, hx, hs, hid⟩
    · rintro ⟨x, hx, hs, hid⟩; exact ⟨x, hx, hs, hid⟩
  constructor
  · intro hp
    have hp₀ : (q₀ d).parent = some w := by
      rcases hpar with he | he
      · rw [← he, hp]
      · rw [he] at hp; cases hp
    refine ⟨hp₀, fun hz => ?_⟩
    by_contra hav
    have hnone := (h.claimed d w hw hp₀).mpr ⟨hz, (hclaim hp₀ hz).mpr hav⟩
    rw [hnone] at hp
    cases hp
  · rintro ⟨hp₀, hav⟩
    rcases hpar with he | he
    · rw [he, hp₀]
    · obtain ⟨hz, hcl⟩ := (h.claimed d w hw hp₀).mp he
      exact absurd (hav hz) ((hclaim hp₀ hz).mp hcl)

/-- What `wait` promises to the task in slot `w`: a zombie child wakes it at the
next tick. -/
def NoLostWakeup (q : Queue) (w : Slot) : Prop :=
  (q w).status = .waitingOnPid → (q w).pidWaitingFor = anyChild → (∃ c, Unclaimed q w c) →
    (updateWaitingAndSleepingTasks q w).status = .ready

/-- Some available zombie child has only zombies among the children in higher slots. -/
def ZombieOnTop (q : Queue) (w : Slot) : Prop :=
  ∃ d, Available q w d ∧ ∀ e, (q e).parent = some w → d < e → (q e).status = .zombie

/-- The pass wakes a task waiting with `-1` exactly when the child it looks at is
a zombie. -/
theorem pass_ready_iff {q₀ : Queue} {n : Nat} (htab : TableInv q₀ n) {w : Slot}
    (hw : (q₀ w).status = .waitingOnPid) (hany : (q₀ w).pidWaitingFor = anyChild) :
    (updateWaitingAndSleepingTasks q₀ w).status = .ready ↔ ZombieOnTop q₀ w := by
  obtain ⟨before, after, hsplit, hbefore, hafter⟩ := finRange_split w
  have hnd : before.Nodup := by
    have := List.nodup_finRange 100
    rw [hsplit] at this
    exact (List.nodup_append.mp this).1
  have hpass := passed_foldl htab before q₀ [] (passed_nil q₀) (by simpa using hnd)
  rw [updateWaitingAndSleepingTasks, hsplit, List.foldl_append, List.foldl_cons,
    foldl_status_of_not_mem after hafter]
  rw [List.nil_append] at hpass
  generalize before.foldl updateSlot q₀ = q at hpass
  have hq := htab.evolve hpass.evolves
  have hwd : w ∉ before := fun hm => lt_irrefl w ((hbefore w).mp hm)
  obtain ⟨hws, hwp⟩ := hpass.pending w hwd
  have hwn : w.val < n := htab.lt_of_not_free (by rw [hw]; decide)
  have htarget := target_any_iff hq hwn (hwp.trans hany)
  have hparent := hpass.parent_iff hbefore
  rw [updateSlot_waiting (hws.trans hw)]
  constructor
  · rintro ⟨d, ht, hz⟩
    obtain ⟨hp, htop⟩ := (htarget d).mp ht
    refine ⟨d, ((hparent d).mp hp).2 ((hpass.zombie d).mp hz), fun e he hde => ?_⟩
    by_contra hze
    exact absurd hde (not_lt.mpr (htop e ((hparent e).mpr ⟨he, fun hz => absurd hz hze⟩)))
  · rintro ⟨d, hav, habove⟩
    obtain ⟨m, hm⟩ := exists_target hq hwn (hwp.trans hany) ((hparent d).mpr ⟨hav.1, fun _ => hav⟩)
    obtain ⟨hp, htop⟩ := (htarget m).mp hm
    refine ⟨m, hm, (hpass.zombie m).mpr ?_⟩
    rcases (htop d ((hparent d).mpr ⟨hav.1, fun _ => hav⟩)).eq_or_lt with rfl | hlt
    · exact hav.2.1
    · exact habove m ((hparent m).mp hp).1 hlt

/-- In every reachable table `wait` keeps its promise to a task exactly when a
zombie is the child on top of its list. -/
theorem no_lost_wakeup_iff (s : Sched) (h : Reachable s) (w : Slot) :
    NoLostWakeup s.readyQueue w ↔
      ((s.readyQueue w).status = .waitingOnPid → (s.readyQueue w).pidWaitingFor = anyChild →
        (∃ c, Unclaimed s.readyQueue w c) → ZombieOnTop s.readyQueue w) := by
  have htab := (reachable_inv h).table
  constructor
  · intro hn hw hany hc
    exact (pass_ready_iff htab hw hany).mp (hn hw hany hc)
  · intro hn hw hany hc
    exact (pass_ready_iff htab hw hany).mpr (hn hw hany hc)

/-- `init` has forked two children, of which the task in slot `c` is a zombie
and the other one is not waiting. -/
theorem unclaimed_child {s : Sched} (h : Reachable s) (hpid : s.nextPid = 4) {c : Slot}
    (hp : (s.readyQueue c).parent = some 0) (hz : (s.readyQueue c).status = .zombie)
    (h1 : (s.readyQueue 1).status ≠ .waitingOnPid) (h2 : (s.readyQueue 2).status ≠ .waitingOnPid) :
    Unclaimed s.readyQueue 0 c := by
  have htab := (reachable_inv h).table
  have hn : s.nextPid.toNat - 1 = 3 := by rw [hpid]; decide
  refine ⟨hp, hz, fun x hx hw => ?_⟩
  have hlt := htab.lt_of_not_free (i := x) (by rw [hw]; decide)
  rw [hn] at hlt
  have hx0 : x.val ≠ 0 := fun h0 => hx (Fin.ext h0)
  have hx12 : x = 1 ∨ x = 2 := by
    rcases (by omega : x.val = 1 ∨ x.val = 2) with hv | hv
    · exact Or.inl (Fin.ext hv)
    · exact Or.inr (Fin.ext hv)
  rcases hx12 with rfl | rfl
  · exact absurd hw h1
  · exact absurd hw h2

def family (s : Sched) : Pid × List (Status × Option Slot) :=
  (s.nextPid, [0, 1, 2].map fun i => ((s.readyQueue i).status, (s.readyQueue i).parent))

/-- `init` waits for two children; the younger one has exited and is on top. -/
theorem no_lost_wakeup_younger_exits :
    ∃ s, Reachable s ∧ (s.readyQueue 0).status = .waitingOnPid ∧
      (s.readyQueue 0).pidWaitingFor = anyChild ∧ (∃ c, Unclaimed s.readyQueue 0 c) ∧
      NoLostWakeup s.readyQueue 0 := by
  have hrun : (Transition.run step initializeTasking
      [.fork, .fork, .tick, .tick, .exit 3, .waitpid anyChild]).map
        (fun s => (family s, (s.readyQueue 0).pidWaitingFor)) =
      some ((4, [(.waitingOnPid, none), (.ready, some 0), (.zombie, some 0)]), anyChild) := by
    decide +kernel
  obtain ⟨s, hs, hf⟩ := Option.map_eq_some_iff.mp hrun
  simp only [family, List.map_cons, List.map_nil, Prod.mk.injEq, List.cons.injEq, and_true] at hf
  obtain ⟨⟨hpid, ⟨h0, -⟩, ⟨h1, -⟩, h2, hp2⟩, hany⟩ := hf
  have hr : Reachable s := ⟨_, by simp [Allowed], hs⟩
  have hun := unclaimed_child hr hpid hp2 h2 (by rw [h1]; decide) (by rw [h2]; decide)
  refine ⟨s, hr, h0, hany, ⟨2, hun⟩, (no_lost_wakeup_iff s hr 0).mpr ?_⟩
  intro _ _ _
  refine ⟨2, ⟨hp2, h2, fun x hx => absurd hx (by simp)⟩, fun e he hlt => ?_⟩
  -- no third child exists
  have hn : s.nextPid.toNat - 1 = 3 := by rw [hpid]; decide
  have hen := ((reachable_inv hr).table.parent_used he).1
  rw [hn] at hen
  exact absurd hlt (by simp [Fin.lt_def]; omega)

/-- When the older child exits and the younger one runs on, `init` sleeps through
the tick. -/
theorem lost_wakeup_older_exits :
    ∃ s, Transition.run step initializeTasking
        [.fork, .fork, .tick, .exit 3, .tick, .waitpid anyChild] = some s ∧
      Reachable s ∧ Unclaimed s.readyQueue 0 1 ∧ ¬ NoLostWakeup s.readyQueue 0 := by
  have hrun : (Transition.run step initializeTasking
      [.fork, .fork, .tick, .exit 3, .tick, .waitpid anyChild]).map
        (fun s => (family s, (s.readyQueue 0).pidWaitingFor)) =
      some ((4, [(.waitingOnPid, none), (.zombie, some 0), (.ready, some 0)]), anyChild) := by
    decide +kernel
  obtain ⟨s, hs, hf⟩ := Option.map_eq_some_iff.mp hrun
  simp only [family, List.map_cons, List.map_nil, Prod.mk.injEq, List.cons.injEq, and_true] at hf
  obtain ⟨⟨hpid, ⟨h0, -⟩, ⟨h1, hp1⟩, h2, hp2⟩, hany⟩ := hf
  have hr : Reachable s := ⟨_, by simp [Allowed], hs⟩
  have hun := unclaimed_child hr hpid hp1 h1 (by rw [h1]; decide) (by rw [h2]; decide)
  refine ⟨s, hs, hr, hun, fun hpromise => ?_⟩
  have hready := hpromise h0 hany ⟨1, hun⟩
  obtain ⟨d, hav, habove⟩ := (pass_ready_iff (reachable_inv hr).table h0 hany).mp hready
  have hd2 : d.val ≠ 2 := by
    intro hv
    have hz := hav.2.1
    rw [show d = 2 from Fin.ext hv, h2] at hz
    cases hz
  have hn : s.nextPid.toNat - 1 = 3 := by rw [hpid]; decide
  have hdn := ((reachable_inv hr).table.parent_used hav.1).1
  rw [hn] at hdn
  have hz := habove 2 hp2 (by rw [Fin.lt_def, show (2 : Slot).val = 2 from rfl]; omega)
  rw [h2] at hz
  cases hz

end Wakeup
