import DeepOS.TaskInvariant

/-!
# The idle task

`init_sh` forks, and the child execs `/bin/idle`. The scheduler knows an idle task by
its `program_name`, which is what `kexecvpe` was given as the filename. A task keeps its
name until it execs again, and the program of the idle task is an endless loop.
-/
namespace IdleTask

open RoundRobin TaskTable Scheduler TaskInvariant

/-- `idle[0]` in `init_sh`. `execvpe` and `sys_execvpe` pass the pointer on. -/
def initShIdle : String := "/bin/idle"

/-! ## Names stay -/

def Keeps (q q' : Queue) : Prop :=
  ∀ i, (q' i).programName = (q i).programName ∧ ((q' i).status = .free ↔ (q i).status = .free)

theorem Keeps.trans {q q' q'' : Queue} (h : Keeps q q') (h' : Keeps q' q'') : Keeps q q'' :=
  fun i => ⟨(h' i).1.trans (h i).1, (h' i).2.trans (h i).2⟩

theorem respected_keeps : Respected fun t t' =>
    t'.programName = t.programName ∧ (t'.status = .free ↔ t.status = .free) where
  trans := fun h h' => ⟨h'.1.trans h.1, h'.2.trans h.2⟩
  core := by
    intro t t' h
    rw [field_of_core h Task.programName fun _ => rfl, field_of_core h Task.status fun _ => rfl]
    exact ⟨rfl, Iff.rfl⟩
  slept := by
    rintro t hs n st (rfl | rfl)
    · exact ⟨rfl, by simp [hs]⟩
    · exact ⟨rfl, by simp [hs]⟩
  woken := fun hs _ _ => ⟨rfl, by simp [hs]⟩
  disowned := fun _ => ⟨rfl, Iff.rfl⟩
  resumed := fun _ => ⟨rfl, Iff.rfl⟩

theorem keeps_update {q : Queue} {i : Slot} {t : Task} (hname : t.programName = (q i).programName)
    (hfree : t.status = .free ↔ (q i).status = .free) : Keeps q (Function.update q i t) :=
  respected_keeps.update ⟨hname, hfree⟩

theorem keeps_pass (q : Queue) : Keeps q (updateWaitingAndSleepingTasks q) := respected_keeps.pass q

theorem keeps_resume (s : Sched) (n : Slot) : Keeps s.readyQueue (resume s n).readyQueue := respected_keeps.resume s n

/-- No free slot has the name of the idle task, and the running task has a slot that is
not free. -/
structure Used (s : Sched) : Prop where
  names : ∀ i, (s.readyQueue i).status = .free → (s.readyQueue i).programName ≠ idleName
  current : (s.readyQueue s.current).status ≠ .free

theorem initializeTasking_used : Used initializeTasking where
  names := by
    intro i hi
    by_cases h0 : i = 0
    · subst h0
      exact absurd hi (by decide)
    · have hname : (initializeTasking.readyQueue i).programName = "" := by simp [initializeTasking, h0, Task.zero]
      rw [hname]
      decide
  current := by decide

theorem names_of_keeps {q q' : Queue} (h : Keeps q q') (hq : ∀ i, (q i).status = .free → (q i).programName ≠ idleName) :
    ∀ i, (q' i).status = .free → (q' i).programName ≠ idleName := by
  intro i hi
  rw [(h i).1]
  exact hq i ((h i).2.mp hi)

/-- What is selected is ready, or has the name of the idle task. -/
theorem getNextReadyTask_cases {q : Queue} {current : Option Slot} {c : Slot} (h : getNextReadyTask q current = some c) :
    (q c).status = .ready ∨ (q c).programName = idleName := by
  rcases hfind : (List.range MAX_TASKS).find? (fun i => Eligible q (slot 100 (startIdx q current + i))) with _ | i
  · have hnone : ∀ i ∈ List.range MAX_TASKS, ¬ Eligible q (slot 100 (startIdx q current + i)) := by simpa using hfind
    rcases readyScan_idle q _ _ none hnone h with hname | hnever
    · exact Or.inr hname
    · cases hnever
  · have hselected := readyScan_eligible q _ _ none hfind
    rw [getNextReadyTask, hselected] at h
    obtain rfl := Option.some.inj h
    have heligible := List.find?_some hfind
    rw [decide_eq_true_eq] at heligible
    exact Or.inl heligible.2

/-- A step that changes no name and then switches. -/
theorem switch_used {s t s' : Sched} (h : Used s) (hkeeps : Keeps s.readyQueue t.readyQueue)
    (hs : switchTask t = some s') : Used s' ∧ Keeps s.readyQueue s'.readyQueue := by
  rw [switchTask, Option.map_eq_some_iff] at hs
  obtain ⟨c, hc, rfl⟩ := hs
  have hnames := names_of_keeps hkeeps h.names
  have hresume := keeps_resume t c
  have hcurrent : (resume t c).current = c := by
    rw [resume]
    split
    · rfl
    · rfl
  refine ⟨⟨names_of_keeps hresume hnames, fun hfree => ?_⟩, hkeeps.trans hresume⟩
  rw [hcurrent, (hresume c).2] at hfree
  rcases getNextReadyTask_cases hc with hready | hidle
  · rw [hfree] at hready
    cases hready
  · exact hnames c hfree hidle

theorem exec_other (s : Sched) (filename : String) (found : Bool) (i : Slot) (hi : s.current ≠ i) :
    (kexecvpe s filename found).readyQueue i = s.readyQueue i := by
  rw [kexecvpe]
  split
  · exact Function.update_of_ne hi.symm ..
  · exact Function.update_of_ne hi.symm ..

theorem exec_current (s : Sched) (filename : String) (found : Bool) :
    (kexecvpe s filename found).current = s.current := by
  rw [kexecvpe]
  split
  · rfl
  · rfl

/-- A step of a task that does not exec: the tasks keep their names, and their slots. -/
theorem step_used {s s' : Sched} {op : Op} (h : Used s) (hs : step s op = some s') :
    Used s' ∧ ∀ i, (s.readyQueue i).status ≠ .free → (s'.readyQueue i).status ≠ .free ∧
      ((s.current = i → ∀ filename found, op ≠ .exec filename found) →
        (s'.readyQueue i).programName = (s.readyQueue i).programName) := by
  have hset : ∀ t : Task, t.programName = s.currentTask.programName → t.status ≠ .free →
      Keeps s.readyQueue (s.setCurrent t).readyQueue := fun t hname hstatus =>
    keeps_update hname ⟨fun hf => absurd hf hstatus, fun hf => absurd hf h.current⟩
  have hkept : ∀ {q : Queue}, Keeps s.readyQueue q → ∀ i, (s.readyQueue i).status ≠ .free → (q i).status ≠ .free ∧
      ((s.current = i → ∀ filename found, op ≠ .exec filename found) →
        (q i).programName = (s.readyQueue i).programName) :=
    fun hkeeps i hi => ⟨fun hf => hi ((hkeeps i).2.mp hf), fun _ => (hkeeps i).1⟩
  cases op with
  | fork =>
    obtain ⟨m, hm, rfl⟩ := Option.map_eq_some_iff.mp hs
    have hfree := getNextFreeTask_free hm
    have hother : ∀ i, (s.readyQueue i).status ≠ .free → i ≠ m := by
      rintro i hi rfl
      exact hi hfree
    refine ⟨⟨fun i hi => ?_, ?_⟩, fun i hi => ?_⟩
    · by_cases him : i = m
      · subst him
        simp only [Function.update_self] at hi
        cases hi
      · simp only [Function.update_of_ne him] at hi ⊢
        exact h.names i hi
    · simp only [Function.update_of_ne (hother _ h.current)]
      exact h.current
    · simp only [Function.update_of_ne (hother i hi)]
      exact ⟨hi, fun _ => trivial⟩
  | exit status =>
    have hkeeps := hset { s.currentTask with exitStatus := status, status := .zombie, endTime := s.timerTick } rfl
      Status.noConfusion
    obtain ⟨hused, hkeeps⟩ := switch_used (t := { s.setCurrent { s.currentTask with
        exitStatus := status, status := .zombie, endTime := s.timerTick } with
      history := .exited s.current status :: s.history }) h hkeeps hs
    exact ⟨hused, hkept hkeeps⟩
  | sleep time =>
    obtain ⟨hused, hkeeps⟩ := switch_used h (hset { s.currentTask with
      sleepingTime := ((time * 18).toNat : Int), status := .sleeping } rfl Status.noConfusion) hs
    exact ⟨hused, hkept hkeeps⟩
  | waitpid pid =>
    have hkeeps := hset { s.currentTask with
      status := .waitingOnPid, pidWaitingFor := pid, timeAtWait := s.timerTick } rfl Status.noConfusion
    obtain ⟨hused, hkeeps⟩ := switch_used (t := { s.setCurrent { s.currentTask with
        status := .waitingOnPid, pidWaitingFor := pid, timeAtWait := s.timerTick } with
      inWait := Function.update s.inWait s.current (some pid) }) h hkeeps hs
    exact ⟨hused, hkept hkeeps⟩
  | exec filename found =>
    obtain rfl := Option.some.inj hs
    have hstatus : ∀ i, ((kexecvpe s filename found).readyQueue i).status = (s.readyQueue i).status := exec_status s _ _
    have hother : ∀ i, s.current ≠ i → (kexecvpe s filename found).readyQueue i = s.readyQueue i := exec_other s _ _
    have hcurrent : (kexecvpe s filename found).current = s.current := exec_current s _ _
    refine ⟨⟨fun i hi => ?_, ?_⟩, fun i hi => ⟨?_, fun hexec => ?_⟩⟩
    · rw [hstatus] at hi
      rw [hother i fun heq => h.current (heq ▸ hi)]
      exact h.names i hi
    · rw [hcurrent, hstatus]
      exact h.current
    · rw [hstatus]
      exact hi
    · by_cases heq : s.current = i
      · exact absurd rfl (hexec heq filename found)
      · rw [hother i heq]
  | tick =>
    have hkeeps := keeps_pass s.readyQueue
    simp only [step, timerHandler] at hs
    generalize updateWaitingAndSleepingTasks s.readyQueue = q at hkeeps hs
    obtain ⟨hused, hkeeps⟩ := switch_used (t := { s with timerTick := s.timerTick + 1, readyQueue := q }) h hkeeps hs
    exact ⟨hused, hkept hkeeps⟩

/-! ## The process of the idle program -/

/-- A task that has execed `/bin/idle` in a run from boot, and has not execed since. -/
structure IdleImage (s : Sched) (d : Slot) : Prop where
  run : ∃ before s₀ after, Transition.run step initializeTasking before = some s₀ ∧ s₀.current = d ∧
    Transition.run step (kexecvpe s₀ initShIdle true) after = some s ∧
    Transition.Along step (fun s op => s.current = d → ∀ filename found, op ≠ .exec filename found)
      (kexecvpe s₀ initShIdle true) after

theorem run_used {s : Sched} {ops : List Op} (h : Transition.run step initializeTasking ops = some s) : Used s :=
  Transition.run_invariant step (C := fun _ _ => True) (fun _ _ _ _ hu hs => (step_used hu hs).1)
    initializeTasking_used (Transition.along_of_forall step (fun _ _ _ => trivial) _) h

theorem IdleImage.name {s : Sched} {d : Slot} (h : IdleImage s d) : (s.readyQueue d).programName = initShIdle := by
  obtain ⟨before, s₀, after, hbefore, rfl, hafter, hnoexec⟩ := h.run
  have hused := run_used hbefore
  have hexec := (step_used hused (rfl : step s₀ (.exec initShIdle true) = some _)).1
  have hkept : Used s ∧ (s.readyQueue s₀.current).status ≠ .free ∧
      (s.readyQueue s₀.current).programName = initShIdle := by
    apply Transition.run_invariant step (P := fun s => Used s ∧ (s.readyQueue s₀.current).status ≠ .free ∧
      (s.readyQueue s₀.current).programName = initShIdle) ?_ ?_ hnoexec hafter
    · rintro s op s' hop ⟨hu, hfree, hname⟩ hs
      obtain ⟨hu', hkeeps⟩ := step_used hu hs
      obtain ⟨hfree', hname'⟩ := hkeeps _ hfree
      exact ⟨hu', hfree', (hname' hop).trans hname⟩
    · refine ⟨hexec, ?_, ?_⟩
      · rw [exec_status]
        exact hused.current
      · simp [kexecvpe, Sched.setCurrent]
  exact hkept.2.2

/-! ## Selection -/

def others (q : Queue) (d : Slot) (status : Slot → Status) : Queue :=
  fun i => if i = d then q i else { q i with status := status i }

def OnlyWhenIdle (q : Queue) (current : Option Slot) (d : Slot) : Prop :=
  getNextReadyTask q current = some d → ∀ i, i ≠ d → (q i).status ≠ .ready

/-- When the task and another one are ready, the scan meets an eligible task first. -/
def GivesWay (q : Queue) (current : Option Slot) (d : Slot) : Prop :=
  (q d).status = .ready → (∃ i, i ≠ d ∧ (q i).status = .ready) →
    ∃ k < gap (startIdx q current) d, Eligible q (slot 100 (startIdx q current + k))

theorem slot_inj (start : Nat) {i j : Nat} (hi : i < 100) (hj : j < 100) (h : slot 100 (start + i) = slot 100 (start + j)) :
    i = j := by
  have hval := congrArg Fin.val h
  rw [slot_val, slot_val] at hval
  omega

/-- With an eligible task in the table, the first one of the scan is selected. -/
theorem scan_first {q : Queue} (current : Option Slot) {k : Nat} (hk : k < MAX_TASKS)
    (h : Eligible q (slot 100 (startIdx q current + k))) : ∃ i ≤ k, Eligible q (slot 100 (startIdx q current + i)) ∧
      getNextReadyTask q current = some (slot 100 (startIdx q current + i)) := by
  rcases hfind : (List.range MAX_TASKS).find? (fun i => Eligible q (slot 100 (startIdx q current + i))) with _ | i
  · rw [List.find?_eq_none] at hfind
    exact absurd (decide_eq_true h) (hfind k (List.mem_range.mpr hk))
  · refine ⟨i, ?_, ?_, readyScan_eligible q _ _ none hfind⟩
    · rw [List.find?_range_eq_some] at hfind
      by_contra hlt
      have hnot := hfind.2.2 k (by omega)
      rw [Bool.not_eq_true', decide_eq_false_iff_not] at hnot
      exact hnot h
    · have heligible := List.find?_some hfind
      exact of_decide_eq_true heligible

/-- A task without the name of the idle task is the last choice exactly when it gives
way. -/
theorem onlyWhenIdle_iff {q : Queue} {d : Slot} (hname : (q d).programName ≠ idleName) (current : Option Slot) :
    OnlyWhenIdle q current d ↔ GivesWay q current d := by
  have hgap := gap_lt (startIdx q current) d
  constructor
  · rintro honly hready ⟨i, hi, hother⟩
    have hd : Eligible q (slot 100 (startIdx q current + gap (startIdx q current) d)) := by
      rw [slot_gap]
      exact ⟨hname, hready⟩
    obtain ⟨k, hk, heligible, hselected⟩ := scan_first current hgap hd
    refine ⟨k, lt_of_le_of_ne hk ?_, heligible⟩
    rintro rfl
    rw [slot_gap] at hselected
    exact honly hselected i hi hother
  · intro hway hselected i hi hother
    have hready : (q d).status = .ready := (getNextReadyTask_cases hselected).resolve_right hname
    obtain ⟨k, hk, heligible⟩ := hway hready ⟨i, hi, hother⟩
    obtain ⟨j, hj, -, hfirst⟩ := scan_first current (hk.trans hgap) heligible
    rw [hselected, Option.some.injEq] at hfirst
    have hsame : gap (startIdx q current) d = j := by
      apply slot_inj (startIdx q current) hgap (by omega)
      rw [slot_gap]
      exact hfirst
    omega

/-- In every state that is reached with the idle program's process in slot `d`, for all
statuses of the other tasks and whichever task runs: the process is selected only when
no other task is ready, exactly when it gives way. -/
theorem idle_task_iff (s : Sched) (d : Slot) (h : IdleImage s d) (status : Slot → Status) (current : Option Slot) :
    OnlyWhenIdle (others s.readyQueue d status) current d ↔ GivesWay (others s.readyQueue d status) current d := by
  apply onlyWhenIdle_iff
  rw [others, if_pos rfl, h.name]
  decide

/-- With the name that the scheduler looks for, the process would be the last choice. -/
theorem onlyWhenIdle_of_name {q : Queue} {d : Slot} (hname : (q d).programName = idleName)
    (hothers : ∀ i, i ≠ d → (q i).programName ≠ idleName) (current : Option Slot) : OnlyWhenIdle q current d := by
  intro hselected i hi hready
  have heligible : Eligible q (slot 100 (startIdx q current + gap (startIdx q current) i)) := by
    rw [slot_gap]
    exact ⟨hothers i hi, hready⟩
  obtain ⟨k, -, hk, hfirst⟩ := scan_first current (gap_lt _ i) heligible
  rw [hselected, Option.some.injEq] at hfirst
  rw [← hfirst] at hk
  exact hk.1 hname

theorem others_self (q : Queue) (d : Slot) : others q d (fun i => (q i).status) = q := by
  funext i
  rw [others]
  split
  · rfl
  · rfl

/-- The first task forks, and its child execs `/bin/idle`. At the next tick the first
task runs, and when it gives up the processor the idle process is selected. -/
theorem boot_idle : ∃ s, IdleImage s 1 ∧ getNextReadyTask s.readyQueue (some s.current) = some 1 ∧
    (s.readyQueue 0).status = .ready := by
  have hfork : (Transition.run step initializeTasking [.fork, .tick]).map (fun s => s.current) = some 1 := by
    decide +kernel
  have htick : (Transition.run step initializeTasking ([.fork, .tick] ++ [.exec initShIdle true, .tick])).map (fun s =>
      (getNextReadyTask s.readyQueue (some s.current), (s.readyQueue 0).status)) = some (some 1, .ready) := by
    decide +kernel
  obtain ⟨s₀, hbefore, hcurrent⟩ := Option.map_eq_some_iff.mp hfork
  obtain ⟨s, hrun, hseen⟩ := Option.map_eq_some_iff.mp htick
  rw [Transition.run_append, hbefore, Option.bind_some, Transition.run_cons_eq_some] at hrun
  obtain ⟨s₁, hexec, hrun⟩ := hrun
  obtain rfl := Option.some.inj hexec
  refine ⟨s, ⟨⟨[.fork, .tick], s₀, [.tick], hbefore, hcurrent, hrun, ?_, fun _ _ => trivial⟩⟩,
    (Prod.mk.inj hseen).1, (Prod.mk.inj hseen).2⟩
  exact fun _ _ _ h => Op.noConfusion h

/-- Among zombies. -/
theorem boot_idle_last : ∃ s, IdleImage s 1 ∧
    OnlyWhenIdle (others s.readyQueue 1 fun _ => .zombie) (some s.current) 1 := by
  obtain ⟨s, h, -, -⟩ := boot_idle
  refine ⟨s, h, (idle_task_iff s 1 h (fun _ => .zombie) (some s.current)).mpr ?_⟩
  rintro - ⟨i, hi, hready⟩
  rw [others, if_neg hi] at hready
  cases hready

/-- The idle process is selected while the first task is ready. -/
theorem idle_takes_turn : (∃ s, IdleImage s 1 ∧ getNextReadyTask s.readyQueue (some s.current) = some 1 ∧
      (s.readyQueue 0).status = .ready) ∧
    ¬ ∀ s d, IdleImage s d → ∀ status current, OnlyWhenIdle (others s.readyQueue d status) current d := by
  refine ⟨boot_idle, fun h => ?_⟩
  obtain ⟨s, himage, hselected, hready⟩ := boot_idle
  have honly := h s 1 himage (fun i => (s.readyQueue i).status) (some s.current)
  rw [others_self] at honly
  exact honly hselected 0 (by decide) hready

end IdleTask
