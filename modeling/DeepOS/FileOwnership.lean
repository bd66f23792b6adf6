import DeepOS.TaskInvariant
import DeepOS.FileTable

/-!
# Who owns a file descriptor

The allocation array is shared by all tasks, the flags belong to each of them.
`sys_close` clears both whoever calls it, and `kexit` clears neither.
-/
namespace FileOwnership

open TaskTable Scheduler TaskInvariant CString FileTable

structure System where
  sched : Sched
  files : Files

def System.start : System := ⟨initializeTasking, Files.start⟩

inductive Op where
  | opens (fname : List Byte)
  | reads (fd : Fin 100) (nBytes : Int)
  | closes (fd : Fin 100)
  | fork
  | exit (status : BitVec 32)
  | sleep (time : BitVec 32)
  | waitpid (pid : Pid)
  | tick

def step (a : List Byte) (base : Nat) (mem : Nat → Byte) (s : System) : Op → Option System
  | .opens fname => (sysOpen a base s.files s.sched.current fname).map fun r => ⟨s.sched, r.2⟩
  | .reads fd nBytes => some ⟨s.sched, (sysRead mem s.files s.sched.current fd nBytes).2⟩
  | .closes fd => some ⟨s.sched, sysClose s.files s.sched.current fd⟩
  | .fork => (getNextFreeTask s.sched.readyQueue).bind fun child =>
    (kfork s.sched).map fun sched => ⟨sched, forkFiles s.files child⟩
  | .exit status => (kexit s.sched status).map fun sched => ⟨sched, s.files⟩
  | .sleep time => (ksleep s.sched time).map fun sched => ⟨sched, s.files⟩
  | .waitpid pid => (kwaitpid s.sched pid).map fun sched => ⟨sched, s.files⟩
  | .tick => (timerHandler s.sched).map fun sched => ⟨sched, s.files⟩

def Live (q : Queue) (t : Slot) : Prop := (q t).status ≠ .free ∧ (q t).status ≠ .zombie

/-- A descriptor is allocated exactly when one live task has it open, and a task
that has exited has none open. -/
structure Owned (s : System) : Prop where
  one : ∀ i : Fin 100, 3 ≤ i.val → (s.files.fdAllocArray i = true ↔
    ∃! t, Live s.sched.readyQueue t ∧ s.files.openFiles t i = true)
  exited : ∀ t (i : Fin 100), 3 ≤ i.val → (s.sched.readyQueue t).status = .zombie →
    s.files.openFiles t i = false

/-- A task closes only what it has open or what nobody has, and exits with nothing open. -/
def Meets (s : System) : Op → Prop
  | .closes fd => 3 ≤ fd.val →
    s.files.openFiles s.sched.current fd = true ∨ s.files.fdAllocArray fd = false
  | .exit _ => ∀ i : Fin 100, 3 ≤ i.val → s.files.openFiles s.sched.current i = false
  | _ => True

/-! ## Which steps make zombies -/

def SameZombies (q q' : Queue) : Prop := ∀ i, (q' i).status = .zombie ↔ (q i).status = .zombie

theorem SameZombies.trans {q q' q'' : Queue} (h : SameZombies q q') (h' : SameZombies q' q'') :
    SameZombies q q'' := fun i => (h' i).trans (h i)

theorem sameZombies_update {q : Queue} {i : Slot} {t : Task} (hq : (q i).status ≠ .zombie)
    (ht : t.status ≠ .zombie) : SameZombies q (Function.update q i t) := by
  intro j
  by_cases hj : j = i
  · subst hj
    simp [hq, ht]
  · simp [hj]

theorem sameZombies_slotEffect (q : Queue) (i : Slot) : SameZombies q (slotEffect q i) := by
  rcases slotEffect_cases q i with ⟨-, heq, -⟩ | ⟨hs, n, st, hst, heq⟩ | ⟨hs, c, -, -, heq⟩
  · rw [heq]
    exact fun _ => Iff.rfl
  · rw [heq]
    refine sameZombies_update (by rw [hs]; decide) ?_
    rcases hst with rfl | rfl
    · simp
    · simp
  · rw [heq, reap]
    have hready : SameZombies q (Function.update q i { q i with
        pidWaitingFor := (q c).id, status := .ready, waitingPidExitStatus := (q c).exitStatus }) :=
      sameZombies_update (by rw [hs]; decide) (by simp)
    refine hready.trans ?_
    intro j
    by_cases hj : j = c
    · subst hj
      simp
    · simp [hj]

theorem sameZombies_pass (q : Queue) : SameZombies q (updateWaitingAndSleepingTasks q) := by
  rw [updateWaitingAndSleepingTasks]
  generalize List.finRange 100 = is
  induction is generalizing q with
  | nil => exact fun _ => Iff.rfl
  | cons i is ih =>
    have hslot : SameZombies q (updateSlot q i) := fun j => by
      rw [(updateSlot_agree q i).status j]
      exact sameZombies_slotEffect q i j
    exact hslot.trans (ih _)

/-- Evolving records without new zombies keeps the live tasks. -/
theorem live_iff {q q' : Queue} (he : QEvolves q q') (hz : SameZombies q q') (t : Slot) :
    Live q' t ↔ Live q t := by
  rw [Live, Live, ne_eq, ne_eq, ne_eq, ne_eq, (he t).free, hz t]

theorem switchTask_status {s s' : Sched} (h : switchTask s = some s') (i : Slot) :
    (s'.readyQueue i).status = (s.readyQueue i).status := by
  rw [switchTask, Option.map_eq_some_iff] at h
  obtain ⟨n, -, rfl⟩ := h
  exact resume_status s n i

/-- A call that changes the record of the running task and switches. -/
theorem switch_setCurrent_status {s t s' : Sched} {u : Task}
    (ht : t.readyQueue = (s.setCurrent u).readyQueue) (h : switchTask t = some s') (i : Slot) :
    (s'.readyQueue i).status = if i = s.current then u.status else (s.readyQueue i).status := by
  rw [switchTask_status h, ht]
  by_cases hi : i = s.current
  · subst hi
    simp [Sched.setCurrent]
  · simp [Sched.setCurrent, hi]

/-- Waiting, sleeping and the timer keep the live tasks. -/
theorem live_wait {s s' : Sched} (h : SchedInv s) (op : Scheduler.Op) (hop : (∃ time, op = .sleep time) ∨ (∃ pid, op = .waitpid pid) ∨ op = .tick)
    (hs : Scheduler.step s op = some s') (t : Slot) : Live s'.readyQueue t ↔ Live s.readyQueue t := by
  have hready : (s.readyQueue s.current).status = .ready := h.current
  rcases hop with ⟨time, rfl⟩ | ⟨pid, rfl⟩ | rfl
  · have hstatus := switch_setCurrent_status rfl hs t
    rw [Live, Live, hstatus]
    by_cases ht : t = s.current
    · subst ht
      simp [hready]
    · simp [ht]
  · have hstatus := switch_setCurrent_status (s := s) (t := { s.setCurrent { s.currentTask with
        status := .waitingOnPid, pidWaitingFor := pid, timeAtWait := s.timerTick } with
      inWait := Function.update s.inWait s.current (some pid) }) rfl hs t
    rw [Live, Live, hstatus]
    by_cases ht : t = s.current
    · subst ht
      simp [hready]
    · simp [ht]
  · have hpass := live_iff (evolves_pass s.readyQueue) (sameZombies_pass s.readyQueue) t
    simp only [Scheduler.step, timerHandler] at hs
    generalize updateWaitingAndSleepingTasks s.readyQueue = q at hpass hs
    rw [← hpass, Live, Live, switchTask_status hs]

theorem live_exit {s s' : Sched} {status : BitVec 32} (hs : kexit s status = some s') {t : Slot} (ht : t ≠ s.current)
    (hl : Live s.readyQueue t) : Live s'.readyQueue t := by
  have hstatus := switch_setCurrent_status (s := s) (t := { s.setCurrent { s.currentTask with
      exitStatus := status, status := .zombie, endTime := s.timerTick } with
    history := .exited s.current status :: s.history }) rfl hs t
  rw [Live, hstatus, if_neg ht]
  exact hl

theorem live_fork {s s' : Sched} (h : SchedInv s) (hs : kfork s = some s') {t : Slot} (hl : Live s.readyQueue t) :
    Live s'.readyQueue t := by
  obtain ⟨m, hm, rfl⟩ := kfork_cases h hs
  have htm : t ≠ m := by
    rintro rfl
    exact hl.1 (h.table.unused t (by omega)).1
  simpa [Live, htm] using hl

/-! ## The invariant -/

/-- A descriptor is allocated exactly when some task has it open; at most one task
does, and that task is live. -/
structure OwnInv (s : System) : Prop where
  sched : SchedInv s.sched
  alloc : ∀ i : Fin 100, 3 ≤ i.val →
    (s.files.fdAllocArray i = true ↔ ∃ t, s.files.openFiles t i = true)
  unique : ∀ i : Fin 100, 3 ≤ i.val → ∀ t u, s.files.openFiles t i = true →
    s.files.openFiles u i = true → t = u
  live : ∀ i : Fin 100, 3 ≤ i.val → ∀ t, s.files.openFiles t i = true → Live s.sched.readyQueue t

theorem OwnInv.owned {s : System} (h : OwnInv s) : Owned s where
  one := by
    intro i hi
    rw [h.alloc i hi]
    constructor
    · rintro ⟨t, ht⟩
      exact ⟨t, ⟨h.live i hi t ht, ht⟩, fun u hu => h.unique i hi u t hu.2 ht⟩
    · rintro ⟨t, ht, -⟩
      exact ⟨t, ht.2⟩
  exited := by
    intro t i hi hz
    cases hopen : s.files.openFiles t i with
    | false => rfl
    | true => exact absurd hz (h.live i hi t hopen).2

theorem start_inv : OwnInv System.start := by
  have hnone : ∀ i : Fin 100, 3 ≤ i.val → ∀ t, System.start.files.openFiles t i = false := by
    intro i hi t
    by_cases ht : t = 0
    · subst ht
      simp [System.start, Files.start, standardFiles_le hi]
    · simp [System.start, Files.start, ht]
  refine ⟨initializeTasking_inv, ?_, ?_, ?_⟩
  · intro i hi
    simp only [hnone i hi]
    simp [System.start, Files.start]
  · intro i hi t u ht
    rw [hnone i hi t] at ht
    cases ht
  · intro i hi t ht
    rw [hnone i hi t] at ht
    cases ht

section

variable {s : System} (h : OwnInv s)

include h

/-- A step that changes no flag from 3 on and no allocation, and keeps the tasks
that have something open alive. -/
theorem OwnInv.keep {sched : Sched} {files : Files} (hs : SchedInv sched)
    (ha : files.fdAllocArray = s.files.fdAllocArray)
    (hf : ∀ t (i : Fin 100), 3 ≤ i.val → files.openFiles t i = s.files.openFiles t i)
    (hl : ∀ t (i : Fin 100), 3 ≤ i.val → s.files.openFiles t i = true →
      Live s.sched.readyQueue t → Live sched.readyQueue t) : OwnInv ⟨sched, files⟩ := by
  refine ⟨hs, ?_, ?_, ?_⟩
  · intro i hi
    simp only [ha, hf _ i hi]
    exact h.alloc i hi
  · intro i hi t u
    simp only [hf _ i hi]
    exact h.unique i hi t u
  · intro i hi t
    simp only [hf _ i hi]
    exact fun ht => hl t i hi ht (h.live i hi t ht)

/-- A descriptor nobody has open goes to the running task. -/
theorem OwnInv.opens {a : List Byte} {base start : Nat} {i : Fin 100} (hi : freeFd s.files = some i) :
    OwnInv ⟨s.sched, openFd a base s.files s.sched.current start i⟩ := by
  obtain ⟨hi3, hfree⟩ := freeFd_spec hi
  have hnone : ∀ t, s.files.openFiles t i = false := by
    intro t
    cases hopen : s.files.openFiles t i with
    | false => rfl
    | true =>
      have := (h.alloc i hi3).mpr ⟨t, hopen⟩
      rw [hfree] at this
      cases this
  have hflag : ∀ t j, (openFd a base s.files s.sched.current start i).openFiles t j =
      if t = s.sched.current ∧ j = i then true else s.files.openFiles t j :=
    fun t j => setFlag_apply s.files.openFiles s.sched.current t i j true
  have hnew : ∀ t, (openFd a base s.files s.sched.current start i).openFiles t i = true ↔
      t = s.sched.current := by
    intro t
    rw [hflag]
    by_cases ht : t = s.sched.current
    · simp [ht]
    · simp [ht, hnone t]
  have hold : ∀ t j, j ≠ i → (openFd a base s.files s.sched.current start i).openFiles t j =
      s.files.openFiles t j := by
    intro t j hj
    rw [hflag, if_neg (fun hc => hj hc.2)]
  refine ⟨h.sched, ?_, ?_, ?_⟩
  · intro j hj
    by_cases hji : j = i
    · subst hji
      simp only [hnew]
      simp [openFd]
    · simp only [hold _ j hji]
      simpa [openFd, hji] using h.alloc j hj
  · intro j hj t u
    by_cases hji : j = i
    · subst hji
      simp only [hnew]
      exact fun ht hu => ht.trans hu.symm
    · simp only [hold _ j hji]
      exact h.unique j hj t u
  · intro j hj t
    by_cases hji : j = i
    · subst hji
      simp only [hnew]
      rintro rfl
      have hready : (s.sched.readyQueue s.sched.current).status = .ready := h.sched.current
      exact ⟨by rw [hready]; decide, by rw [hready]; decide⟩
    · simp only [hold _ j hji]
      exact h.live j hj t

theorem OwnInv.closes {fd : Fin 100} (hm : Meets s (.closes fd)) :
    OwnInv ⟨s.sched, sysClose s.files s.sched.current fd⟩ := by
  have hflag : ∀ t j, (sysClose s.files s.sched.current fd).openFiles t j =
      if t = s.sched.current ∧ j = fd then false else s.files.openFiles t j :=
    fun t j => setFlag_apply s.files.openFiles s.sched.current t fd j false
  have hle : ∀ t j, (sysClose s.files s.sched.current fd).openFiles t j = true →
      s.files.openFiles t j = true := by
    intro t j
    rw [hflag]
    split_ifs <;> simp
  refine ⟨h.sched, ?_, fun i hi t u ht hu => h.unique i hi t u (hle t i ht) (hle u i hu),
    fun i hi t ht => h.live i hi t (hle t i ht)⟩
  intro i hi
  by_cases hif : i = fd
  · subst hif
    -- nobody is left: the caller was the only owner, or there was none
    have hnone : ∀ t, (sysClose s.files s.sched.current i).openFiles t i = false := by
      intro t
      cases hopen : (sysClose s.files s.sched.current i).openFiles t i with
      | false => rfl
      | true =>
        have ht := hle t i hopen
        rcases hm hi with hmine | hfree
        · rw [hflag, if_pos ⟨h.unique i hi t _ ht hmine, rfl⟩] at hopen
          cases hopen
        · rw [(h.alloc i hi).mpr ⟨t, ht⟩] at hfree
          cases hfree
    simp only [hnone]
    simp [sysClose]
  · have hsame : ∀ t, (sysClose s.files s.sched.current fd).openFiles t i = s.files.openFiles t i := by
      intro t
      rw [hflag, if_neg (fun hc => hif hc.2)]
    simp only [hsame]
    simpa [sysClose, hif] using h.alloc i hi

end

section

variable {a : List Byte} {base : Nat} {mem : Nat → Byte} {s s' : System} {op : Op}

theorem step_inv (hm : Meets s op) (h : OwnInv s) (hs : step a base mem s op = some s') : OwnInv s' := by
  cases op with
  | opens fname =>
    simp only [step, Option.map_eq_some_iff] at hs
    obtain ⟨⟨r, files⟩, hopen, rfl⟩ := hs
    rcases sysOpen_cases hopen with ⟨-, rfl⟩ | ⟨w, start, i, -, -, hi, -, rfl⟩
    · exact h
    · exact h.opens hi
  | reads fd nBytes =>
    simp only [step, Option.some.injEq] at hs
    subst hs
    obtain ⟨halloc, hflags⟩ := sysRead_flags mem s.files s.sched.current fd nBytes
    exact h.keep h.sched halloc (fun t i _ => by rw [hflags]) (fun _ _ _ _ hl => hl)
  | closes fd =>
    simp only [step, Option.some.injEq] at hs
    subst hs
    exact h.closes hm
  | fork =>
    simp only [step, Option.bind_eq_some_iff, Option.map_eq_some_iff] at hs
    obtain ⟨child, -, sched, hfork, rfl⟩ := hs
    refine h.keep (fork_inv h.sched hfork) rfl ?_ (fun t _ _ _ hl => live_fork h.sched hfork hl)
    intro t i hi
    by_cases ht : t = child
    · subst ht
      simp [forkFiles, standardFiles_le hi]
    · simp [forkFiles, ht]
  | exit status =>
    simp only [step, Option.map_eq_some_iff] at hs
    obtain ⟨sched, hexit, rfl⟩ := hs
    have hinv := (@TaskInvariant.step_inv _ _ (.exit status) h.sched (fun _ => by simp) hexit).1
    refine h.keep hinv rfl (fun _ _ _ => rfl) ?_
    intro t i hi ht hl
    refine live_exit hexit ?_ hl
    rintro rfl
    rw [hm i hi] at ht
    cases ht
  | sleep time =>
    simp only [step, Option.map_eq_some_iff] at hs
    obtain ⟨sched, hsleep, rfl⟩ := hs
    have hinv := (@TaskInvariant.step_inv _ _ (.sleep time) h.sched (fun _ => by simp) hsleep).1
    exact h.keep hinv rfl (fun _ _ _ => rfl)
      (fun t _ _ _ => (live_wait h.sched (.sleep time) (Or.inl ⟨time, rfl⟩) hsleep t).mpr)
  | waitpid pid =>
    simp only [step, Option.map_eq_some_iff] at hs
    obtain ⟨sched, hwait, rfl⟩ := hs
    have hinv := (@TaskInvariant.step_inv _ _ (.waitpid pid) h.sched (fun _ => by simp) hwait).1
    exact h.keep hinv rfl (fun _ _ _ => rfl)
      (fun t _ _ _ => (live_wait h.sched (.waitpid pid) (Or.inr (Or.inl ⟨pid, rfl⟩)) hwait t).mpr)
  | tick =>
    simp only [step, Option.map_eq_some_iff] at hs
    obtain ⟨sched, htick, rfl⟩ := hs
    have hinv := (@TaskInvariant.step_inv _ _ .tick h.sched (fun _ => by simp) htick).1
    exact h.keep hinv rfl (fun _ _ _ => rfl)
      (fun t _ _ _ => (live_wait h.sched .tick (Or.inr (Or.inr rfl)) htick t).mpr)

/-- The descriptor `i` of task `u` is as it was: still open, still allocated, and
still for the same file. -/
def Untouched (s s' : System) (u : Slot) (i : Fin 100) : Prop :=
  s'.files.openFiles u i = true ∧ s'.files.fdAllocArray i = true ∧
    (s'.files.fdArr i).fd = (s.files.fdArr i).fd ∧ (s'.files.fdArr i).start = (s.files.fdArr i).start ∧
    (s'.files.fdArr i).fileSize = (s.files.fdArr i).fileSize

/-- No step touches a descriptor that a task other than the running one has open. -/
theorem step_untouched (hm : Meets s op) (h : OwnInv s) (hs : step a base mem s op = some s')
    {u : Slot} {i : Fin 100} (hu : u ≠ s.sched.current) (hi : 3 ≤ i.val)
    (hopen : s.files.openFiles u i = true) : Untouched s s' u i := by
  have halloc : s.files.fdAllocArray i = true := (h.alloc i hi).mpr ⟨u, hopen⟩
  cases op with
  | opens fname =>
    simp only [step, Option.map_eq_some_iff] at hs
    obtain ⟨⟨r, files⟩, ho, rfl⟩ := hs
    rcases sysOpen_cases ho with ⟨-, rfl⟩ | ⟨w, start, j, -, -, hj, -, rfl⟩
    · exact ⟨hopen, halloc, rfl, rfl, rfl⟩
    · have hne : i ≠ j := by
        rintro rfl
        rw [(freeFd_spec hj).2] at halloc
        cases halloc
      refine ⟨?_, by simpa [openFd, hne] using halloc, by simp [openFd, hne], by simp [openFd, hne],
        by simp [openFd, hne]⟩
      change setFlag s.files.openFiles s.sched.current j true u i = true
      rw [setFlag_apply, if_neg (fun hc => hne hc.2)]
      exact hopen
  | reads fd nBytes =>
    simp only [step, Option.some.injEq] at hs
    subst hs
    obtain ⟨ha, hf⟩ := sysRead_flags mem s.files s.sched.current fd nBytes
    exact ⟨by rw [hf]; exact hopen, by rw [ha]; exact halloc,
      sysRead_fixed mem s.files s.sched.current fd nBytes i⟩
  | closes fd =>
    simp only [step, Option.some.injEq] at hs
    subst hs
    have hne : i ≠ fd := by
      rintro rfl
      rcases hm hi with hmine | hfree
      · exact hu (h.unique i hi u _ hopen hmine)
      · rw [halloc] at hfree
        cases hfree
    refine ⟨?_, by simpa [sysClose, hne] using halloc, rfl, rfl, rfl⟩
    change setFlag s.files.openFiles s.sched.current fd false u i = true
    rw [setFlag_apply, if_neg (fun hc => hne hc.2)]
    exact hopen
  | fork =>
    simp only [step, Option.bind_eq_some_iff, Option.map_eq_some_iff] at hs
    obtain ⟨child, -, sched, -, rfl⟩ := hs
    refine ⟨?_, halloc, rfl, rfl, rfl⟩
    by_cases hc : u = child
    · subst hc
      simpa [forkFiles, standardFiles_le hi] using hopen
    · simpa [forkFiles, hc] using hopen
  | exit _ | sleep _ | waitpid _ | tick =>
    simp only [step, Option.map_eq_some_iff] at hs
    obtain ⟨sched, -, rfl⟩ := hs
    exact ⟨hopen, halloc, rfl, rfl, rfl⟩

end

/-- In every run in which tasks close only their own descriptors and close them
before they exit, every descriptor has at most one owner, a live one, and it is
allocated exactly then; the next such step of one task leaves those of others alone. -/
theorem descriptor_ownership (a : List Byte) (base : Nat) (mem : Nat → Byte) (ops : List Op)
    (s : System) (hm : Transition.Along (step a base mem) Meets System.start ops)
    (hr : Transition.run (step a base mem) System.start ops = some s) :
    Owned s ∧ ∀ op s', Meets s op → step a base mem s op = some s' → ∀ u i, u ≠ s.sched.current →
      3 ≤ i.val → s.files.openFiles u i = true → Untouched s s' u i := by
  have hinv : OwnInv s := Transition.run_invariant (step a base mem) (C := Meets) (P := OwnInv)
    (fun _ _ _ hm h hs => step_inv hm h hs) start_inv hm hr
  exact ⟨hinv.owned, fun op s' hmeets hs u i hu hi ho => step_untouched hmeets hinv hs hu hi ho⟩

/-- Task 0 opens `/a` in `oneFile` and owns descriptor 3. -/
theorem descriptor_ownership_first : ∃ s,
    Transition.run (step Tarfs.oneFile.bytes 0 fun _ => 0) System.start [.opens [47, 97]] = some s ∧
      s.files.openFiles 0 3 = true ∧ Owned s := by
  have hend : (Transition.run (step Tarfs.oneFile.bytes 0 fun _ => 0) System.start [.opens [47, 97]]).map
      (fun s => s.files.openFiles 0 3) = some true := by decide +kernel
  obtain ⟨s, hrun, hopen⟩ := Option.map_eq_some_iff.mp hend
  exact ⟨s, hrun, hopen, (descriptor_ownership Tarfs.oneFile.bytes 0 (fun _ => 0) [.opens [47, 97]] s
    ⟨trivial, fun _ _ => trivial⟩ hrun).1⟩

/-- The child of the task that opened `/a` closes the descriptor without having it. -/
theorem child_closes_parents_file : ∃ s,
    Transition.run (step Tarfs.oneFile.bytes 0 fun _ => 0) System.start
      [.opens [47, 97], .fork, .tick, .closes 3] = some s ∧ ¬ Owned s := by
  have hend : (Transition.run (step Tarfs.oneFile.bytes 0 fun _ => 0) System.start
      [.opens [47, 97], .fork, .tick, .closes 3]).map
      (fun s => (s.files.openFiles 0 3, s.files.fdAllocArray 3, (s.sched.readyQueue 0).status,
        s.files.openFiles 1 3, (List.finRange 100).all fun t => t.val < 2 || !s.files.openFiles t 3)) =
      some (true, false, .ready, false, true) := by decide +kernel
  obtain ⟨s, hrun, hknown⟩ := Option.map_eq_some_iff.mp hend
  simp only [Prod.mk.injEq, List.all_eq_true, Bool.or_eq_true, decide_eq_true_eq, Bool.not_eq_true'] at hknown
  obtain ⟨h0, halloc, hready, h1, hrest⟩ := hknown
  refine ⟨s, hrun, fun howned => ?_⟩
  have hone := (howned.one 3 (by decide)).mpr ⟨0, ⟨⟨by rw [hready]; decide, by rw [hready]; decide⟩, h0⟩, ?_⟩
  · rw [halloc] at hone
    cases hone
  · rintro t ⟨-, ht⟩
    rcases hrest t (List.mem_finRange t) with hlow | hnone
    · by_cases ht1 : t = 1
      · rw [ht1, h1] at ht
        cases ht
      · have : t.val ≠ 1 := fun hv => ht1 (Fin.ext hv)
        exact Fin.ext (by simp; omega)
    · rw [hnone] at ht
      cases ht

end FileOwnership
