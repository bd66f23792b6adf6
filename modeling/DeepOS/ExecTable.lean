import DeepOS.TaskInvariant
import DeepOS.TaskRecord

/-!
# Exec and the task table

`kexecvpe` with its stores into the record of the running task. While these end in front of
`STATUS`, the table stays as sound as `TaskInvariant` has it. The 114th pointer of `argv`
lies on `STATUS`: a task that execs with 113 arguments frees itself.
-/
namespace ExecTable

open TaskTable CString TaskRecord TaskInvariant
open PhyMem (Word)
open Scheduler (Sched initializeTasking)

/-- A byte of one of the fields that the scheduler uses. The arrays and the `vma` table are
none of them; a task whose stack pointers or tables are lost is not followed any further. -/
def put (t : Task) (f : Field) (i : Nat) (b : Byte) : Option Task :=
  match f with
  | .exitStatus => some { t with exitStatus := putByte t.exitStatus i b }
  | .waitingPidExitStatus => some { t with waitingPidExitStatus := putByte t.waitingPidExitStatus i b }
  | .status => (statusOf b).map fun status => { t with status }
  | .sleepingTime => some { t with sleepingTime := (putByte (BitVec.ofInt 64 t.sleepingTime) i b).toInt }
  | .pidWaitingFor => some { t with pidWaitingFor := putByte t.pidWaitingFor i b }
  | .timeAtWait => some { t with timeAtWait := putByte t.timeAtWait i b }
  | .endTime => some { t with endTime := putByte t.endTime i b }
  | .runTime => some { t with runTime := putByte t.runTime i b }
  | .runSessionsCount => some { t with runSessionsCount := putByte t.runSessionsCount i b }
  | .rsp | .tssRsp | .uRsp | .pml4e => none
  | _ => some t

/-- The name, the blocks that `kmalloc` has given for the copies of the strings, and whether
the executable is found. -/
structure Call where
  filename : String
  argv : List Word
  envp : List Word
  found : Bool

/-- The stores before the search. -/
def storeVectors (t : Task) (c : Call) : Option Task := do
  let t ← storeBytes put ARGV (vectorBytes c.argv) t
  let t ← storeBytes put ENVP (vectorBytes c.envp) t
  storeBytes put TEMP_BUFFER (chars c.filename ++ [0]) t

def kexecvpe (s : Sched) (c : Call) : Option Sched :=
  (storeVectors s.currentTask c).map fun t => Scheduler.kexecvpe (s.setCurrent t) c.filename c.found

inductive Op where
  | fork
  | exit (status : BitVec 32)
  | sleep (time : BitVec 32)
  | waitpid (pid : Pid)
  | exec (c : Call)
  | tick

def step (s : Sched) : Op → Option Sched
  | .fork => Scheduler.kfork s
  | .exit status => Scheduler.kexit s status
  | .sleep time => Scheduler.ksleep s time
  | .waitpid pid => Scheduler.kwaitpid s pid
  | .exec c => kexecvpe s c
  | .tick => Scheduler.timerHandler s

def Op.plain : Op → Scheduler.Op
  | .fork => .fork
  | .exit status => .exit status
  | .sleep time => .sleep time
  | .waitpid pid => .waitpid pid
  | .exec c => .exec c.filename c.found
  | .tick => .tick

structure Call.EndsBefore (c : Call) (limit : Nat) : Prop where
  argv : ARGV + 8 * (c.argv.length + 1) ≤ limit
  envp : ENVP + 8 * (c.envp.length + 1) ≤ limit
  filename : TEMP_BUFFER + c.filename.length + 1 ≤ limit

theorem length_chars (text : String) : (chars text).length = text.length := by
  rw [chars, List.length_map, String.length_toList]

/-- Stores in front of a limit keep what each of them keeps. -/
theorem storeVectors_keeps {P : Task → Prop} {limit : Nat} {c : Call} {t : Task} (hc : c.EndsBefore limit)
    (hput : ∀ off b t, off < limit → P t → ∃ f i t', fieldAt layout off = some (f, i) ∧ put t f i b = some t' ∧ P t')
    (h : P t) : ∃ t', storeVectors t c = some t' ∧ P t' := by
  obtain ⟨hargv, henvp, hname⟩ := hc
  rw [← length_vectorBytes] at hargv henvp
  have hend : TEMP_BUFFER + (chars c.filename ++ [0]).length ≤ limit := by
    rw [List.length_append, length_chars, List.length_singleton, ← add_assoc]
    exact hname
  obtain ⟨t₁, h₁, hP₁⟩ := storeBytes_keeps hput _ hargv h
  obtain ⟨t₂, h₂, hP₂⟩ := storeBytes_keeps hput _ henvp hP₁
  obtain ⟨t₃, h₃, hP₃⟩ := storeBytes_keeps hput _ hend hP₂
  refine ⟨t₃, ?_, hP₃⟩
  simp only [storeVectors, bind, h₁, h₂, h₃, Option.bind_some]

/-! ## Vectors that stay in the arrays -/

theorem put_array {f : Field} (h : f ∈ arrays.map Prod.fst) (t : Task) (i : Nat) (b : Byte) : put t f i b = some t := by
  revert f
  simp only [arrays, List.map_cons, List.map_nil, List.forall_mem_cons]
  exact ⟨rfl, rfl, rfl, rfl, rfl, rfl, rfl, rfl, fun _ h => absurd h List.not_mem_nil⟩

/-- A call whose stores end in front of `exit_status` is the one without the vectors. -/
theorem kexecvpe_arrays {c : Call} (h : c.EndsBefore EXIT_STATUS) (s : Sched) :
    kexecvpe s c = some (Scheduler.kexecvpe s c.filename c.found) := by
  have hput : ∀ off b t, off < EXIT_STATUS → t = s.currentTask →
      ∃ f i t', fieldAt layout off = some (f, i) ∧ put t f i b = some t' ∧ t' = s.currentTask := by
    rintro off b t hoff rfl
    obtain ⟨f, i, hfield, hmem⟩ := fieldAt_arrays hoff
    exact ⟨f, i, _, hfield, put_array hmem _ i b, rfl⟩
  obtain ⟨t, ht, rfl⟩ := storeVectors_keeps h hput rfl
  have hsame : s.setCurrent s.currentTask = s := by
    rw [Sched.setCurrent, Sched.currentTask, Function.update_eq_self]
  rw [kexecvpe, ht, Option.map_some, hsame]

/-- So the runs of `Scheduler` are those of calls that stay in the arrays. -/
theorem run_plain {s : Sched} {ops : List Op} (h : ∀ c, .exec c ∈ ops → c.EndsBefore EXIT_STATUS) :
    Transition.run step s ops = Transition.run Scheduler.step s (ops.map Op.plain) := by
  refine Transition.run_map step (C := fun _ op => ∀ c, op = .exec c → c.EndsBefore EXIT_STATUS) ?_ ?_
  · intro s op hop
    cases op with
    | exec c => exact kexecvpe_arrays (hop c rfl) s
    | fork | exit | sleep | waitpid | tick => rfl
  · refine Transition.along_of_forall step (fun op hmem _ c hc => h c ?_) s
    rw [← hc]
    exact hmem

/-! ## Vectors that end in front of `STATUS` -/

/-- Nobody execs under the literal name of the idle task. -/
def NotIdle : Op → Prop
  | .exec c => c.filename ≠ idleName
  | _ => True

/-- Nor with vectors that reach `STATUS` or a name that reaches `envp`. -/
def Meets (op : Op) : Prop :=
  NotIdle op ∧ ∀ c, op = .exec c → c.argv.length ≤ 112 ∧ c.envp.length ≤ 80 ∧ c.filename.length ≤ 329

theorem put_exit {f : Field} (h : f ∈ exitFields.map Prod.fst) (t : Task) (i : Nat) (b : Byte) :
    ∃ e w, put t f i b = some { t with exitStatus := e, waitingPidExitStatus := w } := by
  simp only [exitFields, List.map_cons, List.map_nil, List.mem_cons, List.not_mem_nil, or_false] at h
  rcases h with rfl | rfl
  · exact ⟨_, t.waitingPidExitStatus, rfl⟩
  · exact ⟨t.exitStatus, _, rfl⟩

/-- Such a call touches at most the two exit codes of the caller. -/
theorem storeVectors_exit {c : Call} (h : c.EndsBefore STATUS) (t : Task) :
    ∃ e w, storeVectors t c = some { t with exitStatus := e, waitingPidExitStatus := w } := by
  have hput : ∀ off b u, off < STATUS →
      (∃ e w, u = { t with exitStatus := e, waitingPidExitStatus := w }) →
      ∃ f i u', fieldAt layout off = some (f, i) ∧ put u f i b = some u' ∧
        ∃ e w, u' = { t with exitStatus := e, waitingPidExitStatus := w } := by
    rintro off b _ hoff ⟨e, w, rfl⟩
    by_cases harrays : off < EXIT_STATUS
    · obtain ⟨f, i, hfield, hmem⟩ := fieldAt_arrays harrays
      exact ⟨f, i, _, hfield, put_array hmem _ i b, e, w, rfl⟩
    · obtain ⟨f, i, hfield, hmem⟩ := fieldAt_exit (not_lt.mp harrays) hoff
      obtain ⟨e', w', hstore⟩ := put_exit hmem { t with exitStatus := e, waitingPidExitStatus := w } i b
      exact ⟨f, i, _, hfield, hstore, e', w', rfl⟩
  obtain ⟨t', ht', e, w, rfl⟩ := storeVectors_keeps h hput ⟨t.exitStatus, t.waitingPidExitStatus, rfl⟩
  exact ⟨e, w, ht'⟩

theorem endsBefore_status {c : Call} (h : c.argv.length ≤ 112 ∧ c.envp.length ≤ 80 ∧ c.filename.length ≤ 329) :
    c.EndsBefore STATUS where
  argv := by rw [ARGV, STATUS]; omega
  envp := by rw [ENVP, STATUS]; omega
  filename := by rw [TEMP_BUFFER, STATUS]; omega

/-- A change of the running task that the table allows. -/
theorem setCurrent_inv {s : Sched} {t : Task} (h : SchedInv s) (ht : Evolves s.currentTask t) (hr : t.status = .ready) :
    SchedInv (s.setCurrent t) where
  table := h.table.evolve (qevolves_setCurrent ht)
  pids := h.pids
  current := by
    have hself : (s.setCurrent t).readyQueue s.current = t := Function.update_self _ _ _
    exact (congrArg Task.status hself).trans hr

theorem Meets.allowed {op : Op} (h : Meets op) : Scheduler.Allowed op.plain := by
  intro found heq
  cases op with
  | exec c => exact h.1 (Scheduler.Op.exec.inj heq).1
  | fork | exit | sleep | waitpid | tick => exact Scheduler.Op.noConfusion heq

theorem step_inv {s s' : Sched} {op : Op} (h : SchedInv s) (hop : Meets op) (hs : step s op = some s') :
    SchedInv s' ∧ KeepsZombies s.readyQueue s'.readyQueue := by
  have hallowed := hop.allowed
  cases op with
  | exec c =>
    obtain ⟨t, ht, rfl⟩ := Option.map_eq_some_iff.mp hs
    obtain ⟨e, w, hstore⟩ := storeVectors_exit (endsBefore_status (hop.2 c rfl)) s.currentTask
    obtain rfl := Option.some.inj (hstore.symm.trans ht)
    have hready : s.currentTask.status = .ready := h.current
    have hev : Evolves s.currentTask { s.currentTask with exitStatus := e, waitingPidExitStatus := w } :=
      ⟨rfl, rfl, id, Iff.rfl, Or.inl rfl, by simp [hready], id⟩
    obtain ⟨hinv, hkeeps⟩ := TaskInvariant.step_inv (setCurrent_inv h hev hready) hallowed rfl
    exact ⟨hinv, (qevolves_setCurrent hev).keepsZombies.trans hkeeps⟩
  | fork | exit | sleep | waitpid | tick => exact TaskInvariant.step_inv h hallowed hs

/-! ## Runs -/

/-- The states reached from boot by such runs. -/
def Reachable (s : Sched) : Prop := ∃ ops, (∀ op ∈ ops, Meets op) ∧ Transition.run step initializeTasking ops = some s

theorem run_inv {s s' : Sched} {ops : List Op} (h : SchedInv s) (hops : ∀ op ∈ ops, Meets op)
    (hr : Transition.run step s ops = some s') : SchedInv s' ∧ KeepsZombies s.readyQueue s'.readyQueue := by
  refine Transition.run_invariant step (C := fun _ op => Meets op)
    (P := fun t => SchedInv t ∧ KeepsZombies s.readyQueue t.readyQueue) ?_
    ⟨h, (QEvolves.refl s.readyQueue).keepsZombies⟩
    (Transition.along_of_forall step (fun op hop _ => hops op hop) _) hr
  rintro t op u hop ⟨hinv, hkeeps⟩ hs
  obtain ⟨hinv', hkeeps'⟩ := step_inv hinv hop hs
  exact ⟨hinv', hkeeps.trans hkeeps'⟩

/-- The table is sound in every state reached, and zombies stay as they are from there on. -/
theorem task_table_sound (s : Sched) (h : Reachable s) :
    Sound s ∧ ∀ ops s', (∀ op ∈ ops, Meets op) → Transition.run step s ops = some s' →
      KeepsZombies s.readyQueue s'.readyQueue := by
  obtain ⟨ops, hops, hr⟩ := h
  have hinv := (run_inv initializeTasking_inv hops hr).1
  exact ⟨hinv.sound, fun _ _ hops' hr' => (run_inv hinv hops' hr').2⟩

/-- `init` forks twice, execs with 112 arguments and exits; its record stays a zombie. -/
theorem task_table_sound_init_exits :
    ∃ s, Reachable s ∧ (s.readyQueue 0).status = .zombie ∧ (s.readyQueue 0).exitStatus = 3 ∧ Sound s ∧
      ∀ ops s', (∀ op ∈ ops, Meets op) → Transition.run step s ops = some s' →
        KeepsZombies s.readyQueue s'.readyQueue := by
  have hrun : (Transition.run step initializeTasking
      [.fork, .fork, .exec ⟨"x", List.replicate 112 0xFFFFFFFFF0009000, [], false⟩, .exit 3]).map
      (fun s => ((s.readyQueue 0).status, (s.readyQueue 0).exitStatus)) = some (.zombie, 3) := by
    decide +kernel
  obtain ⟨s, hs, hz⟩ := Option.map_eq_some_iff.mp hrun
  obtain ⟨hz, he⟩ := Prod.mk.inj hz
  have hname : "x".length ≤ 329 := by decide
  have hr : Reachable s := ⟨_, by simp [Meets, NotIdle, idleName, hname], hs⟩
  exact ⟨s, hr, hz, he, task_table_sound s hr⟩

/-- The 113 pointers end with a null pointer on `STATUS`: `init` is free, and the fork that
follows takes its slot and makes the task its own parent. -/
theorem own_parent :
    ¬ ∀ ops s, (∀ op ∈ ops, NotIdle op) → Transition.run step initializeTasking ops = some s → Sound s := by
  have hrun : (Transition.run step initializeTasking
      [.exec ⟨"x", List.replicate 113 0xFFFFFFFFF0009000, [], false⟩, .fork]).map
      (fun s => (s.readyQueue 0).parent) = some (some 0) := by
    decide +kernel
  obtain ⟨s, hs, hp⟩ := Option.map_eq_some_iff.mp hrun
  intro h
  exact lt_irrefl _ ((h _ s (by simp [NotIdle, idleName]) hs).parent 0 0 hp).2

end ExecTable
