import DeepOS.KernelInvariant
import DeepOS.TaskRecord

/-!
# Exec and the memory of a task

`kexecvpe` and `kfork` with their stores into the records of the tasks. The pointer behind
118 arguments is the first one that lies on the `vma` table. While the stores end in front of
`STATUS`, the memory of the tasks is as `Process` has it, and the invariant is kept.
-/
namespace ExecMemory

open TaskTable PageTable TaskRecord KernelInvariant
open PhyMem (Word)
open CString (Byte)
open Process (ExecCall modifyTask)

/-- A byte of one of the fields that the memory manager uses. -/
def put (s : TaskMem) (f : Field) (i : Nat) (b : Byte) : Option TaskMem :=
  match f with
  | .status => (statusOf b).map fun status => { s with status }
  | .vmaStart n => some { s with
      vma := Function.update s.vma n { s.vma n with startAddr := putByte (s.vma n).startAddr i b } }
  | .vmaEnd n => some { s with vma := Function.update s.vma n { s.vma n with endAddr := putByte (s.vma n).endAddr i b } }
  | .heapEnd => some { s with heapEnd := putByte s.heapEnd i b }
  | .curPtr => some { s with curPtr := putByte s.curPtr i b }
  | .rsp => some { s with rsp := putByte s.rsp i b }
  | .tssRsp => some { s with tssRsp := putByte s.tssRsp i b }
  | .uRsp => some { s with uRsp := putByte s.uRsp i b }
  | .pml4e => some { s with pml4e := putByte s.pml4e i b }
  | _ => some s

def storeRecord (owner : Slot) (off : Nat) (bs : List Byte) (k : Kernel) : Option Kernel :=
  (storeBytes put off bs (k.tasks owner)).map fun s => modifyTask k owner fun _ => s

/-- Strings are copied to the heap of `t`, and the pointers go into the record of `owner`
from `off` on, with a null pointer at the end. -/
def copyVector (t owner : Slot) : Nat → List (BitVec 32) → Kernel → Option Kernel
  | off, [], k => storeRecord owner off (bytesOf 0) k
  | off, size :: sizes, k => do
    let (pointer, k) ← Process.kmalloc k t size
    let k ← storeRecord owner off (bytesOf pointer) k
    copyVector t owner (off + 8) sizes k

def searchSizes (c : ExecCall) : List (BitVec 32) := if c.direct.isNone then 64 * 8 :: c.joined else []

def kexecvpe (k : Kernel) (t : Slot) (c : ExecCall) (filename : List Byte) : Option Kernel := do
  let k ← copyVector t t ARGV c.argv k
  let k ← copyVector t t ENVP c.envp k
  let k ← storeRecord t TEMP_BUFFER (filename ++ [0]) k
  let k ← Process.copyStrings k t (searchSizes c)
  match c.image with
  | some image => Process.loadImage k t image
  | none => some k

/-- The strings are those of `envp` of the caller. The name that goes into `temp_buffer` of
the child has stood in that of the caller. -/
def kfork (k : Kernel) (parent : Slot) (env : List (BitVec 32)) (regs : Word) : Option Kernel := do
  let child ← Process.getNextFreeTask k
  let k ← copyVector parent child ENVP env k
  let k ← Process.cloneTables k parent child
  let k ← Transition.run (Process.copyVma parent child) k (List.range Process.VMA_SCANNED)
  some (modifyTask k child (Process.becomeChild (k.tasks parent) regs))

inductive Op where
  | alloc
  | brk
  | kmalloc (size : BitVec 32)
  | exec (call : ExecCall) (filename : List Byte)
  | fork (env : List (BitVec 32)) (regs : Word)
  | store (v : Word) (b : Byte)
  | switch (t : Slot)

def step (k : Kernel) (op : Op) : Option Kernel :=
  k.currentTask.bind fun t =>
    match op with
    | .alloc => (VirtAlloc.iVirtAlloc k).map Prod.snd
    | .brk => (Process.brk k t).map Prod.snd
    | .kmalloc size => (Process.kmalloc k t size).map Prod.snd
    | .exec call filename => kexecvpe k t call filename
    | .fork env regs => kfork k t env regs
    | .store v b => Process.storeByte k v b
    | .switch t => Process.switchTask k t

def Op.plain : Op → Process.Op
  | .alloc => .alloc
  | .brk => .brk
  | .kmalloc size => .kmalloc size
  | .exec call _ => .exec call
  | .fork env regs => .fork env regs
  | .store v b => .store v b
  | .switch t => .switch t

/-! ## Stores in front of `STATUS` -/

theorem put_front {f : Field} (h : f ∈ (arrays ++ exitFields).map Prod.fst) (s : TaskMem) (i : Nat) (b : Byte) :
    put s f i b = some s := by
  revert f
  simp only [arrays, exitFields, List.cons_append, List.nil_append, List.map_cons, List.map_nil, List.forall_mem_cons]
  exact ⟨rfl, rfl, rfl, rfl, rfl, rfl, rfl, rfl, rfl, rfl, fun _ h => absurd h List.not_mem_nil⟩

theorem fieldAt_front {off : Nat} (h : off < STATUS) :
    ∃ f i, fieldAt layout off = some (f, i) ∧ f ∈ (arrays ++ exitFields).map Prod.fst := by
  rw [List.map_append]
  by_cases harrays : off < EXIT_STATUS
  · obtain ⟨f, i, hfield, hmem⟩ := fieldAt_arrays harrays
    exact ⟨f, i, hfield, List.mem_append_left _ hmem⟩
  · obtain ⟨f, i, hfield, hmem⟩ := fieldAt_exit (not_lt.mp harrays) h
    exact ⟨f, i, hfield, List.mem_append_right _ hmem⟩

theorem storeRecord_front {owner : Slot} {off : Nat} {bs : List Byte} (h : off + bs.length ≤ STATUS) (k : Kernel) :
    storeRecord owner off bs k = some k := by
  have hput : ∀ off b s, off < STATUS → s = k.tasks owner →
      ∃ f i s', fieldAt layout off = some (f, i) ∧ put s f i b = some s' ∧ s' = k.tasks owner := by
    rintro off b s hoff rfl
    obtain ⟨f, i, hfield, hmem⟩ := fieldAt_front hoff
    exact ⟨f, i, _, hfield, put_front hmem _ i b, rfl⟩
  obtain ⟨s, hs, rfl⟩ := storeBytes_keeps hput bs h rfl
  rw [storeRecord, hs, Option.map_some, modifyTask, Function.update_eq_self]

theorem copyVector_front {t owner : Slot} (sizes : List (BitVec 32)) : ∀ {off : Nat} {k : Kernel},
    off + 8 * (sizes.length + 1) ≤ STATUS → copyVector t owner off sizes k = Process.copyStrings k t sizes := by
  induction sizes with
  | nil => exact fun h => storeRecord_front h _
  | cons size sizes ih =>
    intro off k h
    rw [List.length_cons] at h
    rw [copyVector, Process.copyStrings, Transition.run]
    cases hk : Process.kmalloc k t size with
    | none => rfl
    | some r =>
      have hstore : storeRecord owner off (bytesOf r.1) r.2 = some r.2 :=
        storeRecord_front (by rw [length_bytesOf]; omega) r.2
      simp only [bind, Option.bind_some, hstore, Option.map_some]
      exact ih (by omega)

/-- The vectors end in front of `STATUS`, and the name in front of `envp`. -/
def Op.Fits : Op → Prop
  | .exec call filename => call.argv.length ≤ 112 ∧ call.envp.length ≤ 80 ∧ filename.length ≤ 329
  | .fork env _ => env.length ≤ 80
  | _ => True

theorem kexecvpe_front {c : ExecCall} {filename : List Byte} (h : (Op.exec c filename).Fits) (k : Kernel) (t : Slot) :
    kexecvpe k t c filename = Process.kexecvpe k t c := by
  obtain ⟨hargv, henvp, hname⟩ := h
  have hargv' : ARGV + 8 * (c.argv.length + 1) ≤ STATUS := by rw [ARGV, STATUS]; omega
  have henvp' : ENVP + 8 * (c.envp.length + 1) ≤ STATUS := by rw [ENVP, STATUS]; omega
  have hname' : TEMP_BUFFER + (filename ++ [0]).length ≤ STATUS := by
    rw [List.length_append, List.length_singleton, TEMP_BUFFER, STATUS]
    omega
  have hsizes : Process.copyStrings k t c.sizes = (Process.copyStrings k t c.argv).bind fun k =>
      (Process.copyStrings k t c.envp).bind fun k => Process.copyStrings k t (searchSizes c) := by
    rw [Process.copyStrings, ExecCall.sizes, List.append_assoc, Transition.run_append]
    refine Option.bind_congr fun k _ => ?_
    rw [Transition.run_append]
    rfl
  cases hi : c.image with
  | none =>
    simp only [kexecvpe, Process.kexecvpe, bind, copyVector_front _ hargv', copyVector_front _ henvp',
      storeRecord_front hname', hsizes, hi, Option.bind_assoc, Option.bind_some]
  | some image =>
    simp only [kexecvpe, Process.kexecvpe, bind, copyVector_front _ hargv', copyVector_front _ henvp',
      storeRecord_front hname', hsizes, hi, Option.bind_assoc, Option.bind_some]

theorem kfork_front {env : List (BitVec 32)} (h : env.length ≤ 80) (k : Kernel) (parent : Slot) (regs : Word) :
    kfork k parent env regs = Process.kfork k parent env regs := by
  have henv : ENVP + 8 * (env.length + 1) ≤ STATUS := by rw [ENVP, STATUS]; omega
  simp only [kfork, Process.kfork, bind, copyVector_front _ henv]

theorem step_plain {op : Op} (h : op.Fits) (k : Kernel) : step k op = Process.step k op.plain := by
  cases op with
  | exec call filename => exact Option.bind_congr fun t _ => kexecvpe_front h k t
  | fork env regs => exact Option.bind_congr fun t _ => kfork_front h k t regs
  | alloc | brk | kmalloc | store | switch => rfl

theorem step_fork {env : List (BitVec 32)} (h : env.length ≤ 80) (k : Kernel) (regs : Word) :
    step k (.fork env regs) = Process.step k (.fork env regs) := @step_plain (.fork env regs) h k

/-! ## Runs -/

/-- What the runs considered promise about each step: images below the window with at most 99
segments with contents, stores to pages of the storing task, and vectors that fit. -/
def Meets (k : Kernel) (op : Op) : Prop := KernelInvariant.Meets k op.plain ∧ op.Fits

variable {k k' : Kernel}

/-- Runs whose vectors fit are runs of `Process`. -/
theorem run_plain {C : Kernel → Process.Op → Prop} {ops : List Op}
    (hm : Transition.Along step (fun k op => C k op.plain ∧ op.Fits) k ops) (hr : Transition.run step k ops = some k') :
    Transition.Along Process.step C k (ops.map Op.plain) ∧
      Transition.run Process.step k (ops.map Op.plain) = some k' :=
  ⟨Transition.along_map step (fun s _ h => step_plain h.2 s) (fun _ _ h => h.1) hm,
    (Transition.run_map step (fun s _ h => step_plain h.2 s) hm).symm.trans hr⟩

theorem kinv_step {op : Op} (h : KInv k) (hm : Meets k op) (hs : step k op = some k') : KInv k' ∧ Proceeds k k' :=
  h.step hm.1 ((step_plain hm.2 k).symm.trans hs)

theorem kinv_run {ops : List Op} (h : KInv k) (hm : Transition.Along step Meets k ops)
    (hr : Transition.run step k ops = some k') : KInv k' ∧ Proceeds k k' := by
  obtain ⟨hm', hr'⟩ := run_plain hm hr
  exact h.run hm' hr'

end ExecMemory
