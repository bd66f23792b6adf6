import DeepOS.Wakeup

/-!
# What `waitpid` returns

The timer's pass writes the result of a wait into two fields of the waiting
task, and `kwaitpid` reads them when the task runs again. The invariant says
what these fields hold while the task is ready but has not run, and that the
results of waits with `-1` are pairwise distinct: the zombie behind such a result
has been disowned, so no list of children contains it any more.
-/
namespace WaitStatus

open TaskTable Scheduler TaskInvariant Wakeup

structure View where
  status : Status
  id : Pid
  parent : Option Slot
  exitStatus : BitVec 32
  pidWaitingFor : Pid
  waitingPidExitStatus : BitVec 32
  deriving DecidableEq, Repr

def view (t : Task) : View :=
  ⟨t.status, t.id, t.parent, t.exitStatus, t.pidWaitingFor, t.waitingPidExitStatus⟩

theorem view_agree {q q' : Queue} (h : Agree q q') : (fun i => view (q i)) = fun i => view (q' i) :=
  funext fun i => h.field view (fun _ => rfl) i

theorem view_update (q : Queue) (i : Slot) (t : Task) :
    (fun j => view (Function.update q i t j)) =
      Function.update (fun j => view (q j)) i (view t) := by
  funext j
  by_cases hj : j = i
  · subst hj; simp
  · simp [hj]

/-- `c` is a zombie with the given id and exit status; when the wait was for any
child it was forked by `w` and belongs to nobody. -/
structure Source (v : Slot → View) (history : List Event) (w : Slot) (pid result : Pid)
    (status : BitVec 32) (c : Slot) : Prop where
  zombie : (v c).status = .zombie
  id : (v c).id = result
  exitStatus : (v c).exitStatus = status
  forked : pid = anyChild → .forked w c ∈ history ∧ (v c).parent = none

/-- The results that waits with `-1` have returned, last first. -/
def anyResults : List Event → List Pid
  | [] => []
  | .returned _ pid result _ :: es =>
    if pid = anyChild then result :: anyResults es else anyResults es
  | .forked _ _ :: es => anyResults es
  | .exited _ _ :: es => anyResults es

theorem mem_anyResults {r : Pid} {es : List Event} :
    r ∈ anyResults es ↔ ∃ w st, .returned w anyChild r st ∈ es := by
  induction es with
  | nil => simp [anyResults]
  | cons e es ih =>
    cases e with
    | forked p c => simp [anyResults, ih]
    | exited c st => simp [anyResults, ih]
    | returned w pid result st =>
      by_cases hp : pid = anyChild
      · subst hp
        simp only [anyResults, if_true, List.mem_cons, ih, Event.returned.injEq, true_and]
        constructor
        · rintro (rfl | ⟨w', st', h⟩)
          · exact ⟨w, st, Or.inl ⟨rfl, rfl, rfl⟩⟩
          · exact ⟨w', st', Or.inr h⟩
        · rintro ⟨w', st', ⟨-, rfl, -⟩ | h⟩
          · exact Or.inl rfl
          · exact Or.inr ⟨w', st', h⟩
      · simp [anyResults, hp, ih, Ne.symm hp]

structure WaitInv (v : Slot → View) (inWait : Slot → Option Pid) (history : List Event) : Prop where
  exits : ∀ c st, .exited c st ∈ history ↔ (v c).status = .zombie ∧ (v c).exitStatus = st
  forks : ∀ c p, (v c).parent = some p → .forked p c ∈ history
  waiting : ∀ w, (v w).status = .waitingOnPid → inWait w = some (v w).pidWaitingFor
  woken : ∀ w pid, inWait w = some pid → (v w).status = .waitingOnPid ∨ (v w).status = .ready ∧
    ∃ c, Source v history w pid (v w).pidWaitingFor (v w).waitingPidExitStatus c
  returned : ∀ w pid r st, .returned w pid r st ∈ history → ∃ c, Source v history w pid r st c
  once : (anyResults history).Nodup
  pending : ∀ w, inWait w = some anyChild → (v w).status = .ready →
    (v w).pidWaitingFor ∉ anyResults history
  distinct : ∀ w w', w ≠ w' → inWait w = some anyChild → inWait w' = some anyChild →
    (v w).status = .ready → (v w').status = .ready → (v w).pidWaitingFor ≠ (v w').pidWaitingFor

/-- Sources stay sources while zombies and orphans do. -/
theorem Source.mono {v v' : Slot → View} {es es' : List Event} {w c : Slot} {pid r : Pid}
    {st : BitVec 32} (h : Source v es w pid r st c) (hes : es ⊆ es')
    (hc : (v c).status = .zombie → (v' c).status = .zombie ∧ (v' c).id = (v c).id ∧
      (v' c).exitStatus = (v c).exitStatus ∧ ((v c).parent = none → (v' c).parent = none)) :
    Source v' es' w pid r st c := by
  obtain ⟨hz, hid, hx, hp⟩ := hc h.zombie
  exact ⟨hz, hid.trans h.id, hx.trans h.exitStatus,
    fun hany => ⟨hes (h.forked hany).1, hp (h.forked hany).2⟩⟩

/-! ## One slot of the pass -/

section

variable {q : Queue} {x c : Slot}

theorem view_reap_self (hxc : x ≠ c) : view (reap q x c x) =
    ⟨.ready, (q x).id, (q x).parent, (q x).exitStatus, (q c).id, (q c).exitStatus⟩ := by
  simp [reap, view, hxc]

/-- Of the other records only that of the child changes, which loses its parent. -/
theorem view_reap_of_ne (hxc : x ≠ c) {i : Slot} (hi : i ≠ x) : view (reap q x c i) =
    { view (q i) with parent := if i = c then none else (q i).parent } := by
  by_cases hic : i = c
  · subst hic
    simp [reap, view, hxc.symm]
  · simp [reap, view, hi, hic]

variable {n : Nat} {inWait : Slot → Option Pid} {es : List Event} (hx : (q x).status = .waitingOnPid)
  (hz : (q c).status = .zombie)

include hx hz

theorem waiter_ne_zombie : x ≠ c := by
  rintro rfl
  rw [hx] at hz
  cases hz

theorem Source.reap {w d : Slot} {pid r : Pid} {st : BitVec 32} (h : Source (fun i => view (q i)) es w pid r st d) :
    Source (fun i => view (reap q x c i)) es w pid r st d := by
  have hd : d ≠ x := by
    rintro rfl
    have hzombie : (q d).status = .zombie := h.zombie
    rw [hx] at hzombie
    cases hzombie
  have hview := view_reap_of_ne (q := q) (waiter_ne_zombie hx hz) hd
  refine h.mono (fun _ he => he) fun hzombie => ?_
  rw [hview]
  refine ⟨hzombie, rfl, rfl, fun hnone => ?_⟩
  dsimp only
  split
  · rfl
  · exact hnone

variable (hq : TableInv q n) (ht : target q x = some c)

include hq ht

omit hz in
/-- A task that waits for any child takes one that points at it. -/
theorem parent_of_target (hany : (q x).pidWaitingFor = anyChild) : (q c).parent = some x := by
  have hxn := hq.lt_of_not_free (i := x) (by rw [hx]; decide)
  exact (isChildOf_iff hq hxn c).mp (target_child hany ht)

/-- A result of `-1` owed or returned earlier is not the id of a task with a parent. -/
theorem id_ne_of_source (hany : (q x).pidWaitingFor = anyChild) {w d : Slot} {r : Pid} {st : BitVec 32}
    (h : Source (fun i => view (q i)) es w anyChild r st d) : (q c).id ≠ r := by
  intro hid
  have hp := parent_of_target hx hq ht hany
  have hcn := hq.id_eq (i := c) (by rw [hz]; decide)
  have hdn := hq.id_eq (i := d) (by rw [show (q d).status = .zombie from h.zombie]; decide)
  have hcd : c = d := pidOf_inj (by rw [← hcn, ← hdn]; exact hid.trans h.id.symm)
  have hnone : (q d).parent = none := (h.forked rfl).2
  rw [← hcd, hp] at hnone
  cases hnone

/-- The waiting task `x` takes the result of the zombie `c`. -/
theorem waitInv_reap (h : WaitInv (fun i => view (q i)) inWait es) :
    WaitInv (fun i => view (reap q x c i)) inWait es := by
  have hxc := waiter_ne_zombie hx hz
  have hself := view_reap_self (q := q) hxc
  have hother : ∀ {i}, i ≠ x → _ := fun hi => view_reap_of_ne (q := q) hxc hi
  have hpid : ∀ {pid}, inWait x = some pid → (q x).pidWaitingFor = pid := fun hin =>
    Option.some.inj ((h.waiting x hx).symm.trans hin)
  refine ⟨?_, ?_, ?_, ?_, ?_, h.once, ?_, ?_⟩
  · intro d st
    rw [h.exits d st]
    by_cases hd : d = x
    · subst hd
      rw [hself]
      simp [view, hx]
    · rw [hother hd]
  · intro d p hp
    apply h.forks d p
    have hpar : (view (reap q x c d)).parent = if d = c then none else (q d).parent := reap_parent d
    rw [hpar] at hp
    by_cases hdc : d = c
    · rw [if_pos hdc] at hp
      cases hp
    · rw [if_neg hdc] at hp
      exact hp
  · intro w hw
    by_cases hwx : w = x
    · subst hwx
      rw [hself] at hw
      cases hw
    · rw [hother hwx] at hw ⊢
      exact h.waiting w hw
  · intro w pid hin
    by_cases hwx : w = x
    · subst hwx
      have hc := hother hxc.symm
      refine Or.inr ⟨by rw [hself], c, ⟨by rw [hc]; exact hz, by rw [hc, hself]; rfl, by rw [hc, hself]; rfl, ?_⟩⟩
      intro hany
      have hp := parent_of_target hx hq ht ((hpid hin).trans hany)
      exact ⟨h.forks c w hp, by rw [hc]; exact if_pos rfl⟩
    · rw [hother hwx]
      rcases h.woken w pid hin with hw | ⟨hw, d, hd⟩
      · exact Or.inl hw
      · exact Or.inr ⟨hw, d, hd.reap hx hz⟩
  · intro w pid r st hret
    obtain ⟨d, hd⟩ := h.returned w pid r st hret
    exact ⟨d, hd.reap hx hz⟩
  · intro w hin hr
    by_cases hwx : w = x
    · subst hwx
      rw [hself]
      intro hmem
      obtain ⟨w', st, hret⟩ := mem_anyResults.mp hmem
      obtain ⟨d, hd⟩ := h.returned _ _ _ _ hret
      exact id_ne_of_source hx hz hq ht (hpid hin) hd rfl
    · rw [hother hwx] at hr ⊢
      exact h.pending w hin hr
  · -- the result `x` takes differs from every result another task is owed
    have hnew : inWait x = some anyChild → ∀ w, w ≠ x → inWait w = some anyChild →
        (view (reap q x c w)).status = .ready →
        (view (reap q x c x)).pidWaitingFor ≠ (view (reap q x c w)).pidWaitingFor := by
      intro hin w hw hin' hr
      rw [hother hw] at hr
      rw [hself, hother hw]
      rcases h.woken w anyChild hin' with hw' | ⟨-, d, hd⟩
      · rw [hr] at hw'
        cases hw'
      · exact id_ne_of_source hx hz hq ht (hpid hin) hd
    intro w w' hne hin hin' hr hr'
    by_cases hwx : w = x
    · subst hwx
      exact hnew hin w' hne.symm hin' hr'
    · by_cases hwx' : w' = x
      · subst hwx'
        exact (hnew hin' w hne hin hr).symm
      · rw [hother hwx] at hr ⊢
        rw [hother hwx'] at hr' ⊢
        exact h.distinct w w' hne hin hin' hr hr'

end

/-! ## Changes to a task that is not inside `kwaitpid` -/

/-- The events a change to the record of slot `i` may add: a fork of `i`, or its
exit when the new record is a zombie's. -/
inductive Logs (i : Slot) (u : View) (es : List Event) : List Event → Prop where
  | nothing : u.status ≠ .zombie → Logs i u es es
  | fork (p : Slot) : u.status ≠ .zombie → Logs i u es (.forked p i :: es)
  | exit : u.status = .zombie → Logs i u es (.exited i u.exitStatus :: es)

theorem Logs.subset {i : Slot} {u : View} {es es' : List Event} (h : Logs i u es es') : es ⊆ es' := by
  cases h with
  | nothing => exact fun _ h => h
  | fork p => exact List.subset_cons_self ..
  | exit => exact List.subset_cons_self ..

theorem Logs.anyResults {i : Slot} {u : View} {es es' : List Event} (h : Logs i u es es') :
    anyResults es' = anyResults es := by
  cases h <;> rfl

theorem Logs.returned {i : Slot} {u : View} {es es' : List Event} (h : Logs i u es es')
    {w : Slot} {pid r : Pid} {st : BitVec 32} (hm : .returned w pid r st ∈ es') :
    .returned w pid r st ∈ es := by
  cases h with
  | nothing => exact hm
  | fork p => simpa using hm
  | exit => simpa using hm

theorem Logs.exited {i : Slot} {u : View} {es es' : List Event} (h : Logs i u es es')
    (c : Slot) (st : BitVec 32) : .exited c st ∈ es' ↔
      .exited c st ∈ es ∨ c = i ∧ u.status = .zombie ∧ u.exitStatus = st := by
  cases h with
  | nothing hu => simp [hu]
  | fork p hu => simp [hu]
  | exit hu =>
    simp only [List.mem_cons, Event.exited.injEq, hu, true_and]
    constructor
    · rintro (⟨rfl, rfl⟩ | h)
      · exact Or.inr ⟨rfl, rfl⟩
      · exact Or.inl h
    · rintro (h | ⟨rfl, rfl⟩)
      · exact Or.inr h
      · exact Or.inl ⟨rfl, rfl⟩

/-- The record of a slot outside `kwaitpid` changes; the slot may enter the call. -/
theorem WaitInv.set {v : Slot → View} {inWait : Slot → Option Pid} {es es' : List Event}
    (h : WaitInv v inWait es) {i : Slot} {u : View} {o : Option Pid} (hi : inWait i = none)
    (hz : (v i).status ≠ .zombie) (hlogs : Logs i u es es')
    (hpar : ∀ p, u.parent = some p → .forked p i ∈ es')
    (ho : o = none ∧ u.status ≠ .waitingOnPid ∨
      o = some u.pidWaitingFor ∧ u.status = .waitingOnPid) :
    WaitInv (Function.update v i u) (Function.update inWait i o) es' := by
  have hsource : ∀ {w pid r st c}, Source v es w pid r st c →
      Source (Function.update v i u) es' w pid r st c := by
    intro w pid r st c hs
    have hci : c ≠ i := by rintro rfl; exact hz hs.zombie
    exact hs.mono hlogs.subset (fun hzc => by simp [hci, hzc])
  -- the slot `i` is owed no result
  have hready : ∀ {w pid}, Function.update inWait i o w = some pid →
      (Function.update v i u w).status = .ready → w ≠ i ∧ inWait w = some pid ∧
        Function.update v i u w = v w := by
    intro w pid hin hr
    have hwi : w ≠ i := by
      rintro rfl
      rw [Function.update_self] at hin hr
      rcases ho with ⟨rfl, -⟩ | ⟨-, hu⟩
      · cases hin
      · rw [hu] at hr; cases hr
    rw [Function.update_of_ne hwi] at hin ⊢
    exact ⟨hwi, hin, rfl⟩
  refine ⟨?_, ?_, ?_, ?_, ?_, ?_, ?_, ?_⟩
  · intro c st
    rw [hlogs.exited, h.exits]
    by_cases hc : c = i
    · subst hc; simp [hz]
    · simp [hc]
  · intro c p hp
    by_cases hc : c = i
    · subst hc
      rw [Function.update_self] at hp
      exact hpar p hp
    · rw [Function.update_of_ne hc] at hp
      exact hlogs.subset (h.forks c p hp)
  · intro w hw
    by_cases hwi : w = i
    · subst hwi
      rw [Function.update_self] at hw
      rcases ho with ⟨-, hu⟩ | ⟨rfl, -⟩
      · exact absurd hw hu
      · simp
    · rw [Function.update_of_ne hwi] at hw
      simpa [hwi] using h.waiting w hw
  · intro w pid hin
    by_cases hwi : w = i
    · subst hwi
      rw [Function.update_self] at hin
      rcases ho with ⟨rfl, -⟩ | ⟨-, hu⟩
      · cases hin
      · exact Or.inl (by simpa using hu)
    · rw [Function.update_of_ne hwi] at hin ⊢
      rcases h.woken w pid hin with hw | ⟨hw, c, hc⟩
      · exact Or.inl hw
      · exact Or.inr ⟨hw, c, hsource hc⟩
  · intro w pid r st hret
    obtain ⟨c, hc⟩ := h.returned w pid r st (hlogs.returned hret)
    exact ⟨c, hsource hc⟩
  · rw [hlogs.anyResults]; exact h.once
  · intro w hin hr
    obtain ⟨-, hin', hv⟩ := hready hin hr
    rw [hlogs.anyResults, hv]
    rw [hv] at hr
    exact h.pending w hin' hr
  · intro w w' hne hin hin' hr hr'
    obtain ⟨-, hin, hv⟩ := hready hin hr
    obtain ⟨-, hin', hv'⟩ := hready hin' hr'
    rw [hv] at hr ⊢
    rw [hv'] at hr' ⊢
    exact h.distinct w w' hne hin hin' hr hr'

/-- As above for a slot that stays outside the call. -/
theorem WaitInv.set_same {v : Slot → View} {inWait : Slot → Option Pid} {es es' : List Event}
    (h : WaitInv v inWait es) {i : Slot} {u : View} (hi : inWait i = none)
    (hz : (v i).status ≠ .zombie) (hlogs : Logs i u es es')
    (hpar : ∀ p, u.parent = some p → .forked p i ∈ es') (hu : u.status ≠ .waitingOnPid) :
    WaitInv (Function.update v i u) inWait es' := by
  have hset := h.set hi hz hlogs hpar (Or.inl ⟨rfl, hu⟩)
  rwa [← hi, Function.update_eq_self] at hset

/-- A ready task inside `kwaitpid` runs and returns the result it was handed. -/
theorem WaitInv.ret {v : Slot → View} {inWait : Slot → Option Pid} {es : List Event}
    (h : WaitInv v inWait es) {n : Slot} {pid : Pid} (hin : inWait n = some pid)
    (hr : (v n).status = .ready) :
    WaitInv v (Function.update inWait n none)
      (.returned n pid (v n).pidWaitingFor (v n).waitingPidExitStatus :: es) := by
  have hsource : ∀ {e w pid r st c}, Source v es w pid r st c → Source v (e :: es) w pid r st c :=
    fun hs => hs.mono (List.subset_cons_self ..) (fun hz => ⟨hz, rfl, rfl, fun hp => hp⟩)
  have hother : ∀ {w p}, Function.update inWait n none w = some p → w ≠ n ∧ inWait w = some p := by
    intro w p hw
    have hwn : w ≠ n := by rintro rfl; simp at hw
    exact ⟨hwn, by simpa [hwn] using hw⟩
  refine ⟨?_, ?_, ?_, ?_, ?_, ?_, ?_, ?_⟩
  · intro c st; rw [← h.exits c st]; simp
  · intro c p hp; exact List.mem_cons_of_mem _ (h.forks c p hp)
  · intro w hw
    have hwn : w ≠ n := by rintro rfl; rw [hr] at hw; cases hw
    simpa [hwn] using h.waiting w hw
  · intro w p hw
    rcases h.woken w p (hother hw).2 with hs | ⟨hs, c, hc⟩
    · exact Or.inl hs
    · exact Or.inr ⟨hs, c, hsource hc⟩
  · intro w p r st hret
    rw [List.mem_cons] at hret
    rcases hret with heq | hret
    · obtain ⟨rfl, rfl, rfl, rfl⟩ := Event.returned.inj heq
      rcases h.woken w p hin with hs | ⟨-, c, hc⟩
      · rw [hr] at hs; cases hs
      · exact ⟨c, hsource hc⟩
    · obtain ⟨c, hc⟩ := h.returned w p r st hret
      exact ⟨c, hsource hc⟩
  · rw [anyResults]
    split
    · rename_i hany
      subst hany
      exact List.nodup_cons.mpr ⟨h.pending n hin hr, h.once⟩
    · exact h.once
  · intro w hw hs
    obtain ⟨hwn, hw⟩ := hother hw
    rw [anyResults]
    split
    · rename_i hany
      subst hany
      rw [List.mem_cons, not_or]
      exact ⟨h.distinct w n hwn hw hin hs hr, h.pending w hw hs⟩
    · exact h.pending w hw hs
  · intro w w' hne hw hw'
    exact h.distinct w w' hne (hother hw).2 (hother hw').2

/-! ## Whole steps and runs -/

theorem waitInv_slotEffect {q : Queue} {n : Nat} {inWait : Slot → Option Pid} {es : List Event}
    (hq : TableInv q n) (h : WaitInv (fun i => view (q i)) inWait es) (x : Slot) :
    WaitInv (fun i => view (slotEffect q x i)) inWait es := by
  rcases slotEffect_cases q x with ⟨-, he, -⟩ | ⟨hs, m, st, hst, he⟩ | ⟨hs, c, ht, hz, he⟩
  · rw [he]; exact h
  · have hin : inWait x = none := by
      by_contra hne
      obtain ⟨pid, hpid⟩ := Option.ne_none_iff_exists'.mp hne
      rcases h.woken x pid hpid with hw | ⟨hw, -⟩
      · exact absurd (hs.symm.trans hw) (by decide)
      · exact absurd (hs.symm.trans hw) (by decide)
    have hz : (q x).status ≠ .zombie := by rw [hs]; decide
    rw [he, view_update]
    refine h.set_same hin hz (.nothing ?_) (fun p hp => h.forks x p hp) ?_
    · rcases hst with rfl | rfl <;> simp [view]
    · rcases hst with rfl | rfl <;> simp [view]
  · rw [he]; exact waitInv_reap hs hz hq ht h

theorem waitInv_pass {q : Queue} {n : Nat} {inWait : Slot → Option Pid} {es : List Event}
    (hq : TableInv q n) (h : WaitInv (fun i => view (q i)) inWait es) :
    WaitInv (fun i => view (updateWaitingAndSleepingTasks q i)) inWait es := by
  rw [updateWaitingAndSleepingTasks]
  generalize List.finRange 100 = is
  induction is generalizing q with
  | nil => exact h
  | cons x is ih =>
    have hx := waitInv_slotEffect hq h x
    rw [← view_agree (updateSlot_agree q x)] at hx
    exact ih (hq.evolve (evolves_updateSlot q x)) hx

/-- The invariant of the scheduler state: the running task is outside `kwaitpid`. -/
structure WaitsInv (s : Sched) : Prop where
  waits : WaitInv (fun i => view (s.readyQueue i)) s.inWait s.history
  current : s.inWait s.current = none

theorem resume_view (s : Sched) (n : Slot) :
    (fun i => view ((resume s n).readyQueue i)) = fun i => view (s.readyQueue i) := by
  have h : (fun i => view (Function.update s.readyQueue n
      { s.readyQueue n with
        newProc := false
        runTime := (s.readyQueue n).runTime + SCHEDULE_FREQUENCY
        runSessionsCount := (s.readyQueue n).runSessionsCount + 1 } i)) =
      fun i => view (s.readyQueue i) := by
    rw [view_update]
    exact Function.update_eq_self n _
  rw [resume]
  split <;> exact h

/-- Choosing a ready task and running it: it leaves `kwaitpid` if it was there. -/
theorem waits_resume {s : Sched} {n : Slot} (hr : (s.readyQueue n).status = .ready)
    (h : WaitInv (fun i => view (s.readyQueue i)) s.inWait s.history) : WaitsInv (resume s n) := by
  refine ⟨?_, ?_⟩
  · rw [resume_view]
    cases hin : s.inWait n with
    | none => simpa [resume, hin] using h
    | some pid => simpa [resume, hin, view] using h.ret hin hr
  · rw [resume_current]
    cases hin : s.inWait n with
    | none => simp [resume, hin]
    | some pid => simp [resume, hin]

theorem waits_switch {t s' : Sched} {n : Nat} (ht : TableInv t.readyQueue n)
    (h : WaitInv (fun i => view (t.readyQueue i)) t.inWait t.history)
    (hs : switchTask t = some s') : WaitsInv s' := by
  obtain ⟨c, hc, rfl⟩ := switchTask_cases ht hs
  exact waits_resume hc h

theorem waits_step {s s' : Sched} {op : Op} (hinv : SchedInv s) (h : WaitsInv s)
    (hop : Allowed op) (hs : step s op = some s') : WaitsInv s' := by
  have hcur : (s.readyQueue s.current).status = .ready := hinv.current
  have hz : (view (s.readyQueue s.current)).status ≠ .zombie := by
    rw [show (view (s.readyQueue s.current)).status = .ready from hcur]; decide
  have hforks := h.waits.forks s.current
  cases op with
  | fork =>
    obtain ⟨m, hm, rfl⟩ := kfork_cases hinv hs
    have hfree := (hinv.table.unused m (by omega)).1
    have hmc : s.current ≠ m := by rintro he; rw [← he, hcur] at hfree; cases hfree
    have hin : s.inWait m = none := by
      by_contra hne
      obtain ⟨pid, hpid⟩ := Option.ne_none_iff_exists'.mp hne
      rcases h.waits.woken m pid hpid with hw | ⟨hw, -⟩
      · exact absurd (hfree.symm.trans hw) (by decide)
      · exact absurd (hfree.symm.trans hw) (by decide)
    refine ⟨?_, h.current⟩
    simp only [view_update]
    refine h.waits.set_same hin ?_ (.fork s.current (by simp [forkedTask, view])) ?_
      (by simp [forkedTask, view])
    · rw [show (view (s.readyQueue m)).status = .free from hfree]; decide
    · intro p hp
      have hpc : s.current = p := Option.some.inj hp
      rw [hpc]
      exact List.mem_cons_self ..
  | exit status =>
    simp only [step, kexit] at hs
    refine waits_switch (n := s.nextPid.toNat - 1) ?_ ?_ hs
    · exact hinv.table.evolve (evolves_exit hinv status)
    · simp only [Sched.setCurrent, view_update]
      exact h.waits.set_same h.current hz (.exit rfl)
        (fun p hp => List.mem_cons_of_mem _ (hforks p hp)) (by simp [view])
  | sleep time =>
    simp only [step, ksleep] at hs
    refine waits_switch (n := s.nextPid.toNat - 1) ?_ ?_ hs
    · exact hinv.table.evolve (evolves_sleep hinv time)
    · simp only [Sched.setCurrent, view_update]
      exact h.waits.set_same h.current hz (.nothing (by simp [view])) (fun p hp => hforks p hp)
        (by simp [view])
  | waitpid pid =>
    simp only [step, kwaitpid] at hs
    refine waits_switch (n := s.nextPid.toNat - 1) ?_ ?_ hs
    · exact hinv.table.evolve (evolves_wait hinv pid)
    · simp only [Sched.setCurrent, view_update]
      exact h.waits.set h.current hz (.nothing (by simp [view])) (fun p hp => hforks p hp)
        (Or.inr ⟨rfl, rfl⟩)
  | exec filename found =>
    simp only [step, Option.some.injEq] at hs
    subst hs
    have hview : (fun i => view ((kexecvpe s filename found).readyQueue i)) =
        fun i => view (s.readyQueue i) := by
      rw [kexecvpe]
      split
      · simp only [Sched.setCurrent, view_update]; exact Function.update_eq_self s.current _
      · simp only [Sched.setCurrent, view_update]; exact Function.update_eq_self s.current _
    refine ⟨?_, ?_⟩
    · rw [hview]
      rw [kexecvpe]
      split <;> exact h.waits
    · rw [kexecvpe]
      split <;> exact h.current
  | tick =>
    have hpass := waitInv_pass hinv.table h.waits
    have he := evolves_pass s.readyQueue
    simp only [step, timerHandler] at hs
    generalize updateWaitingAndSleepingTasks s.readyQueue = q at he hpass hs
    exact waits_switch (t := { s with timerTick := s.timerTick + 1, readyQueue := q })
      (hinv.table.evolve he) hpass hs

theorem initializeTasking_waits : WaitsInv initializeTasking := by
  have hparent : ∀ i, (initializeTasking.readyQueue i).parent = none := by
    intro i
    by_cases hi : i = 0
    · subst hi; simp [initializeTasking, Task.zero]
    · simp [initializeTasking, Task.zero, hi]
  have hstatus : ∀ i, (initializeTasking.readyQueue i).status = .free ∨
      (initializeTasking.readyQueue i).status = .ready := by
    intro i
    by_cases hi : i = 0
    · subst hi; exact Or.inr (by simp [initializeTasking])
    · exact Or.inl (by simp [initializeTasking, Task.zero, hi])
  refine ⟨⟨?_, ?_, ?_, ?_, ?_, ?_, ?_, ?_⟩, rfl⟩
  · intro c st
    constructor
    · intro hm; cases hm
    · rintro ⟨hz, -⟩
      rcases hstatus c with h | h
      · exact absurd (h.symm.trans hz) (by decide)
      · exact absurd (h.symm.trans hz) (by decide)
  · intro c p hp
    rw [show (view (initializeTasking.readyQueue c)).parent = none from hparent c] at hp
    cases hp
  · intro w hw
    rcases hstatus w with h | h
    · exact absurd (h.symm.trans hw) (by decide)
    · exact absurd (h.symm.trans hw) (by decide)
  · intro w pid hin; cases hin
  · intro w pid r st hret; cases hret
  · exact List.nodup_nil
  · intro w hin; cases hin
  · intro w w' _ hin; cases hin

theorem reachable_waits {s : Sched} (h : Reachable s) : SchedInv s ∧ WaitsInv s := by
  obtain ⟨ops, hops, hr⟩ := h
  exact Transition.run_invariant step (C := fun _ op => Allowed op)
    (P := fun s => SchedInv s ∧ WaitsInv s)
    (fun s op t hop hi hs => ⟨(step_inv hi.1 hop hs).1, waits_step hi.1 hi.2 hop hs⟩)
    ⟨initializeTasking_inv, initializeTasking_waits⟩
    (Transition.along_of_forall step (fun op hop _ => hops op hop) _) hr

/-! ## The result is kept until the task runs -/

/-- Task `w` is ready inside `kwaitpid pid` and will return the given result. -/
structure Owed (s : Sched) (w : Slot) (pid r : Pid) (st : BitVec 32) : Prop where
  inWait : s.inWait w = some pid
  ready : (s.readyQueue w).status = .ready
  result : (s.readyQueue w).pidWaitingFor = r
  status : (s.readyQueue w).waitingPidExitStatus = st

/-- The result of a ready task is left alone. -/
theorem respected_result : Respected fun t t' => t.status = .ready → t'.status = .ready ∧
    t'.pidWaitingFor = t.pidWaitingFor ∧ t'.waitingPidExitStatus = t.waitingPidExitStatus where
  trans := by
    intro t u v h h' ht
    obtain ⟨hready, hpid, hstatus⟩ := h ht
    obtain ⟨hready', hpid', hstatus'⟩ := h' hready
    exact ⟨hready', hpid'.trans hpid, hstatus'.trans hstatus⟩
  core := by
    intro t t' h ht
    have hview : view t = view t' := field_of_core h view fun _ => rfl
    simp only [view, View.mk.injEq] at hview
    obtain ⟨hstatus, -, -, -, hpid, hresult⟩ := hview
    exact ⟨hstatus.symm.trans ht, hpid.symm, hresult.symm⟩
  slept := by
    intro t hs n st _ ht
    rw [ht] at hs
    cases hs
  woken := by
    intro t hw pid st ht
    rw [ht] at hw
    cases hw
  disowned := fun _ ht => ⟨ht, rfl, rfl⟩
  resumed := fun _ ht => ⟨ht, rfl, rfl⟩

def Settled (s : Sched) (w : Slot) (pid r : Pid) (st : BitVec 32) : Prop :=
  Owed s w pid r st ∨ .returned w pid r st ∈ s.history

theorem settled_resume {s : Sched} {w : Slot} {pid r : Pid} {st : BitVec 32} (n : Slot)
    (h : Settled s w pid r st) : Settled (resume s n) w pid r st := by
  rcases h with ho | hm
  · by_cases hwn : w = n
    · subst hwn
      refine Or.inr ?_
      simp [resume, ho.inWait, ho.result, ho.status]
    · refine Or.inl ⟨?_, ?_, ?_, ?_⟩
      · rw [← ho.inWait, resume]
        split <;> simp [hwn]
      · rw [resume_status]; exact ho.ready
      · rw [← ho.result, resume]
        split <;> simp [hwn]
      · rw [← ho.status, resume]
        split <;> simp [hwn]
  · refine Or.inr ?_
    rw [resume]
    split
    · exact List.mem_cons_of_mem _ hm
    · exact hm

theorem settled_switch {t s' : Sched} {n : Nat} (ht : TableInv t.readyQueue n) {w : Slot}
    {pid r : Pid} {st : BitVec 32} (h : Settled t w pid r st) (hs : switchTask t = some s') :
    Settled s' w pid r st := by
  obtain ⟨c, -, rfl⟩ := switchTask_cases ht hs
  exact settled_resume c h

/-- The running task changes its own record, which is not the one of a task that
is owed a result. -/
theorem settled_change {s t : Sched} {w : Slot} {pid r : Pid} {st : BitVec 32}
    (h : Settled s w pid r st) (hrec : s.inWait w = some pid → (s.readyQueue w).status = .ready →
      t.readyQueue w = s.readyQueue w ∧ t.inWait w = s.inWait w) (hes : s.history ⊆ t.history) :
    Settled t w pid r st := by
  rcases h with ho | hm
  · obtain ⟨hq, hin⟩ := hrec ho.inWait ho.ready
    exact Or.inl ⟨hin.trans ho.inWait, by rw [hq]; exact ho.ready, by rw [hq]; exact ho.result,
      by rw [hq]; exact ho.status⟩
  · exact Or.inr (hes hm)

theorem settled_step {s s' : Sched} {op : Op} {w : Slot} {pid r : Pid} {st : BitVec 32}
    (hinv : SchedInv s) (hwaits : WaitsInv s) (h : Settled s w pid r st)
    (hs : step s op = some s') : Settled s' w pid r st := by
  have hne : s.inWait w = some pid → w ≠ s.current := by
    intro hin he
    rw [he, hwaits.current] at hin
    cases hin
  have hset : ∀ t : Task, s.inWait w = some pid → (s.setCurrent t).readyQueue w = s.readyQueue w :=
    fun t hin => Function.update_of_ne (hne hin) _ _
  cases op with
  | fork =>
    obtain ⟨m, hm, rfl⟩ := kfork_cases hinv hs
    refine settled_change h (fun _ hr => ⟨?_, rfl⟩) (List.subset_cons_self ..)
    have hwm : w ≠ m := by
      rintro rfl
      rw [(hinv.table.unused w (by omega)).1] at hr
      cases hr
    exact Function.update_of_ne hwm _ _
  | exit status =>
    simp only [step, kexit] at hs
    refine settled_switch (n := s.nextPid.toNat - 1) ?_ ?_ hs
    · exact hinv.table.evolve (evolves_exit hinv status)
    · exact settled_change h (fun hin _ => ⟨hset _ hin, rfl⟩) (List.subset_cons_self ..)
  | sleep time =>
    simp only [step, ksleep] at hs
    refine settled_switch (n := s.nextPid.toNat - 1) ?_ ?_ hs
    · exact hinv.table.evolve (evolves_sleep hinv time)
    · exact settled_change h (fun hin _ => ⟨hset _ hin, rfl⟩) (fun _ he => he)
  | waitpid p =>
    simp only [step, kwaitpid] at hs
    refine settled_switch (n := s.nextPid.toNat - 1) ?_ ?_ hs
    · exact hinv.table.evolve (evolves_wait hinv p)
    · exact settled_change h (fun hin _ => ⟨hset _ hin, Function.update_of_ne (hne hin) _ _⟩)
        (fun _ he => he)
  | exec filename found =>
    simp only [step, Option.some.injEq] at hs
    subst hs
    rw [kexecvpe]
    split
    · exact settled_change h (fun hin _ => ⟨hset _ hin, rfl⟩) (fun _ he => he)
    · exact settled_change h (fun hin _ => ⟨hset _ hin, rfl⟩) (fun _ he => he)
  | tick =>
    have he := evolves_pass s.readyQueue
    have hpass := respected_result.pass s.readyQueue w
    simp only [step, timerHandler] at hs
    generalize updateWaitingAndSleepingTasks s.readyQueue = q at he hpass hs
    refine settled_switch (t := { s with timerTick := s.timerTick + 1, readyQueue := q })
      (hinv.table.evolve he) ?_ hs
    rcases h with ho | hm
    · obtain ⟨h₁, h₂, h₃⟩ := hpass ho.ready
      exact Or.inl ⟨ho.inWait, h₁, h₂.trans ho.result, h₃.trans ho.status⟩
    · exact Or.inr hm

theorem settled_run {s s' : Sched} {ops : List Op} {w : Slot} {pid r : Pid} {st : BitVec 32}
    (hinv : SchedInv s ∧ WaitsInv s) (h : Settled s w pid r st) (hops : ∀ op ∈ ops, Allowed op)
    (hr : Transition.run step s ops = some s') : Settled s' w pid r st :=
  (Transition.run_invariant step (C := fun _ op => Allowed op)
    (P := fun t => (SchedInv t ∧ WaitsInv t) ∧ Settled t w pid r st)
    (fun _ _ _ hop hi hs => ⟨⟨(step_inv hi.1.1 hop hs).1, waits_step hi.1.1 hi.1.2 hop hs⟩,
      settled_step hi.1.1 hi.1.2 hi.2 hs⟩)
    ⟨hinv, h⟩ (Transition.along_of_forall step (fun op hop _ => hops op hop) _) hr).2

/-- A wait of task `w` for `pid` is answered by the zombie `c`: the result is its
id and the one status it passed to `kexit`, and a wait for any child is answered
by a task `w` forked. -/
def Answers (s : Sched) (w : Slot) (pid r : Pid) (st : BitVec 32) (c : Slot) : Prop :=
  (s.readyQueue c).status = .zombie ∧ (s.readyQueue c).id = r ∧
    (∀ st', .exited c st' ∈ s.history ↔ st' = st) ∧
    (pid = anyChild → .forked w c ∈ s.history)

theorem answers_of_source {s : Sched} (h : WaitsInv s) {w c : Slot} {pid r : Pid} {st : BitVec 32}
    (hs : Source (fun i => view (s.readyQueue i)) s.history w pid r st c) :
    Answers s w pid r st c := by
  refine ⟨hs.zombie, hs.id, ?_, fun hany => (hs.forked hany).1⟩
  intro st'
  rw [h.waits.exits c st']
  constructor
  · rintro ⟨-, rfl⟩; exact hs.exitStatus
  · rintro rfl; exact ⟨hs.zombie, hs.exitStatus⟩

/-- In every reachable state a waiting task is inside `kwaitpid`; once it is woken
a zombie answers its wait and it returns exactly that answer when it runs; every
answer returned so far is right; and no two waits with `-1` returned the same
child. -/
theorem wait_delivers_once (s : Sched) (h : Reachable s) :
    (∀ w, (s.readyQueue w).status = .waitingOnPid →
      s.inWait w = some (s.readyQueue w).pidWaitingFor) ∧
    (∀ w pid, s.inWait w = some pid → (s.readyQueue w).status ≠ .waitingOnPid →
      (s.readyQueue w).status = .ready ∧
      (∃ c, Answers s w pid (s.readyQueue w).pidWaitingFor
        (s.readyQueue w).waitingPidExitStatus c) ∧
      ∀ ops s', (∀ op ∈ ops, Allowed op) → Transition.run step s ops = some s' →
        Settled s' w pid (s.readyQueue w).pidWaitingFor (s.readyQueue w).waitingPidExitStatus) ∧
    (∀ w pid r st, .returned w pid r st ∈ s.history → ∃ c, Answers s w pid r st c) ∧
    (anyResults s.history).Nodup := by
  have hinv := reachable_waits h
  have hw := hinv.2.waits
  refine ⟨hw.waiting, ?_, ?_, hw.once⟩
  · intro w pid hin hnot
    rcases hw.woken w pid hin with hs | ⟨hr, c, hc⟩
    · exact absurd hs hnot
    · refine ⟨hr, ⟨c, answers_of_source hinv.2 hc⟩, fun ops s' hops hrun => ?_⟩
      exact settled_run hinv (Or.inl ⟨hin, hr, rfl, rfl⟩) hops hrun
  · intro w pid r st hret
    obtain ⟨c, hc⟩ := hw.returned w pid r st hret
    exact ⟨c, answers_of_source hinv.2 hc⟩

/-- `init` waits for any of two children; the younger one exits with status 3 and
`init` returns its id and that status. -/
theorem wait_delivers_once_younger_exits :
    ∃ s, Reachable s ∧ .returned 0 anyChild 3 3 ∈ s.history ∧
      (∃ c, Answers s 0 anyChild 3 3 c) ∧ (anyResults s.history).Nodup := by
  have hrun : (Transition.run step initializeTasking
      [.fork, .fork, .waitpid anyChild, .tick, .exit 3, .tick]).map Sched.history =
        some [.returned 0 anyChild 3 3, .exited 2 3, .forked 0 2, .forked 0 1] := by
    decide +kernel
  obtain ⟨s, hs, hhist⟩ := Option.map_eq_some_iff.mp hrun
  have hr : Reachable s := ⟨_, by simp [Allowed], hs⟩
  have hret : .returned 0 anyChild 3 3 ∈ s.history := by rw [hhist]; exact List.mem_cons_self ..
  have h := wait_delivers_once s hr
  exact ⟨s, hr, hret, h.2.2.1 _ _ _ _ hret, h.2.2.2⟩

end WaitStatus
