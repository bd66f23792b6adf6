import DeepOS.Clone

/-!
# Processes and their memory

The calls by which a task gets pages: `brk`, `kmalloc`, `kexecvpe` with
`map_exe_format`, and `kfork`. Addresses are read and written through the tables
in use; an access that the processor refuses ends the call without a result, as
the handler spins. Strings that `kexecvpe` and `kfork` copy are known by the
sizes asked of `kmalloc`.
-/
namespace Process

open PhyMem TaskTable PageTable VirtAlloc Clone

def VMA_USER_STACK_IDX : Nat := 0
def VMA_KERNEL_STACK_IDX : Nat := 1
def VMA_SEGMENT_START : Nat := 3
def VMA_DEF_COUNT : Nat := 100
def EXE_MAX_SEGMENTS : Nat := 100

def VMA_SCANNED : Nat := 10

def modifyTask (k : Kernel) (t : Slot) (change : TaskMem → TaskMem) : Kernel :=
  { k with tasks := Function.update k.tasks t (change (k.tasks t)) }

def gain (k : Kernel) (t : Slot) (v : Word) : Kernel :=
  modifyTask k t fun s => { s with pages := v :: s.pages }

/-! ## The heap -/

def freeVma (vma : Nat → Vma) : Option Nat :=
  (List.range VMA_SCANNED).find? fun i => (vma i).startAddr = 0

/-- `add_to_vma`, and the loop of `brk`: nothing is written when no slot is free. -/
def addToVma (k : Kernel) (t : Slot) (first last : Word) : Kernel :=
  match freeVma (k.tasks t).vma with
  | some i => modifyTask k t fun s => { s with vma := Function.update s.vma i ⟨first, last⟩ }
  | none => k

def brk (k : Kernel) (t : Slot) : Option (Word × Kernel) :=
  if k.currentMemUsage t + 4096 > (k.tasks t).memLimit then some (0, k)
  else (iVirtAlloc k).map fun r =>
    (r.1, charge (addToVma (gain r.2 t r.1) t r.1 (r.1 + 4095)) (some t))

/-- A page from `brk` as the new heap page. The page, or `NULL`, is put down in
the `vma` table a second time. -/
def growHeap (k : Kernel) (t : Slot) : Option (Word × Word × Kernel) :=
  (brk k t).map fun r => (r.1, r.1 + 4095, addToVma r.2 t r.1 (r.1 + 4095))

/-- The heap page to use: the current one, or a new one when it has no room. -/
def heapPage (k : Kernel) (t : Slot) (size : BitVec 32) : Option (Word × Word × Kernel) :=
  let s := k.tasks t
  if s.curPtr = 0 ∨ s.curPtr + size.setWidth 64 > s.heapEnd then growHeap k t
  else some (s.curPtr, s.heapEnd, k)

def kmalloc (k : Kernel) (t : Slot) (size : BitVec 32) : Option (Word × Kernel) :=
  (heapPage k t size).map fun r =>
    if r.1 = 0 then (0, r.2.2)
    else (r.1, modifyTask r.2.2 t fun s =>
      { s with curPtr := r.1 + size.setWidth 64, heapEnd := r.2.1 })

def copyStrings (k : Kernel) (t : Slot) (sizes : List (BitVec 32)) : Option Kernel :=
  Transition.run (fun k size => (kmalloc k t size).map Prod.snd) k sizes

/-! ## Memory seen by the processor -/

def Canonical (v : Word) : Prop := v.toNat < 2 ^ 47 ∨ 2 ^ 64 - 2 ^ 47 ≤ v.toNat

instance (v : Word) : Decidable (Canonical v) := inferInstanceAs (Decidable (_ ∨ _))

def access (k : Kernel) (v : Word) : Option Nat :=
  if Canonical v then translate k k.cr3 v else none

def wordIndex (v : Word) : Fin 512 := index 3 v

def setByte (w : Word) (i : Nat) (b : BitVec 8) : Word :=
  (w &&& ~~~((0xFF : Word) <<< (8 * i))) ||| (b.setWidth 64 <<< (8 * i))

def storeByte (k : Kernel) (v : Word) (b : BitVec 8) : Option Kernel :=
  (access k v).map fun f =>
    let w := setByte (k.mem f (wordIndex v)) (v.toNat % 8) b
    { k with mem := RadixForest.put k.mem f (wordIndex v) w }

def memcpyPage (k : Kernel) (dst src : Word) : Option Kernel := do
  let g ← access k dst
  let f ← access k src
  some { k with mem := Function.update k.mem g (k.mem f) }

/-! ## Loading a program -/

structure Segment where
  vaddr : Word
  sizeInMemory : Word
  /-- The bytes from `offsetInFile` on. -/
  onDisk : Nat → BitVec 8

/-- What `Parse_ELF_Executable` accepts. -/
structure Image where
  segments : List Segment
  bounded : segments.length ≤ EXE_MAX_SEGMENTS

def Segment.leastStart (s : Segment) : Word := s.vaddr / 0x1000 * 0x1000

def Segment.maxEnd (s : Segment) : Word := (s.vaddr + s.sizeInMemory) / 0x1000 * 0x1000 + 0x1000

def Segment.pageNeeded (s : Segment) : Word :=
  if s.vaddr + s.sizeInMemory - s.vaddr ≠ 0 then (s.maxEnd - s.leastStart) / 0x1000 else 0

/-- `vma[i].start_addr = first; vma[i].end_addr = last`. Entries have 24 bytes,
so the three entries behind the array lie on the fields that follow it. -/
def setVma (s : TaskMem) (i : Nat) (first last : Word) : TaskMem :=
  if i < VMA_DEF_COUNT then { s with vma := Function.update s.vma i ⟨first, last⟩ }
  else if i = VMA_DEF_COUNT then { s with heapEnd := first, curPtr := last }
  else if i = VMA_DEF_COUNT + 1 then { s with rsp := first, tssRsp := last }
  else { s with pml4e := first }

/-- One page of a segment, on a frame that is not cleared. -/
def mapPage (t : Slot) (k : Kernel) (v : Word) : Option Kernel := do
  let (physicalAddress, k) ← k.pageAlloc
  let k ← mapProcess k v physicalAddress
  some (gain k t v)

def pagesFrom (first : Word) (n : Nat) : List Word :=
  (List.range n).map fun i => first + BitVec.ofNat 64 (i * 0x1000)

def copyOnDisk (s : Segment) (k : Kernel) (i : Nat) : Option Kernel :=
  storeByte k (s.vaddr + BitVec.ofNat 64 i) (s.onDisk i)

/-- One turn of `map_exe_format`, with `cur_vma_idx`. -/
def mapSegment (t : Slot) (r : Kernel × Nat) (s : Segment) : Option (Kernel × Nat) :=
  if s.pageNeeded ≠ 0 then do
    let k := modifyTask r.1 t fun task => setVma task r.2 s.leastStart s.maxEnd
    let k ← Transition.run (mapPage t) k (pagesFrom s.leastStart s.pageNeeded.toNat)
    let k ← Transition.run (copyOnDisk s) k (List.range s.sizeInMemory.toNat)
    some (k, r.2 + 1)
  else some r

def mapExeFormat (k : Kernel) (t : Slot) (segments : List Segment) : Option Kernel :=
  (Transition.run (mapSegment t) (k, VMA_SEGMENT_START) segments).map Prod.fst

/-- The sizes of the copied arguments and environment, the file found under the
given name, the sizes of the names joined by `strcat` for the search along `PATH`,
and the results of that search. -/
structure ExecCall where
  argv : List (BitVec 32)
  envp : List (BitVec 32)
  direct : Option Image
  joined : List (BitVec 32)
  path : List (Option Image)

/-- The search does not stop at the first hit: the last name decides. -/
def ExecCall.image (c : ExecCall) : Option Image :=
  match c.direct with
  | some image => some image
  | none => c.path.getLast?.join

/-- `getPath` asks for 64 pointers when the given name was not found, and the names
to search for are built from its result. -/
def ExecCall.sizes (c : ExecCall) : List (BitVec 32) :=
  c.argv ++ c.envp ++ if c.direct.isNone then 64 * 8 :: c.joined else []

/-- The first ten slots are emptied, the two stacks entered and the ends of the
first three slots set. -/
def stackAreas (vma : Nat → Vma) (uStack kStack : Word) (i : Nat) : Vma :=
  if i = VMA_USER_STACK_IDX then ⟨uStack, uStack + 4095⟩
  else if i = VMA_KERNEL_STACK_IDX then ⟨kStack, kStack + 4095⟩
  else if i < VMA_SEGMENT_START then ⟨0, 4095⟩
  else if i < VMA_SCANNED then ⟨0, (vma i).endAddr⟩
  else vma i

def setStacks (s : TaskMem) (uStack kStack : Word) : TaskMem :=
  { s with vma := stackAreas s.vma uStack kStack, pages := kStack :: uStack :: s.pages }

def setRsp (s : TaskMem) : TaskMem :=
  { s with
    uRsp := (s.vma VMA_USER_STACK_IDX).endAddr
    rsp := (s.vma VMA_KERNEL_STACK_IDX).endAddr
    tssRsp := (s.vma VMA_KERNEL_STACK_IDX).endAddr }

def loadImage (k : Kernel) (t : Slot) (image : Image) : Option Kernel := do
  let (uStack, k) ← iVirtAlloc k
  let (kStack, k) ← iVirtAlloc k
  let k ← mapExeFormat (modifyTask k t fun s => setStacks s uStack kStack) t image.segments
  some (modifyTask k t setRsp)

/-- Nothing is loaded when the file is not found. The pointers that go into the record of the
task are in `ExecMemory`. -/
def kexecvpe (k : Kernel) (t : Slot) (c : ExecCall) : Option Kernel := do
  let k ← copyStrings k t c.sizes
  match c.image with
  | some image => loadImage k t image
  | none => some k

/-! ## Forking -/

def getNextFreeTask (k : Kernel) : Option Slot :=
  (List.finRange 100).find? fun i => (k.tasks i).status = .free

/-- One turn of the copy loop of `kfork`. -/
def copyPage (child : Slot) (k : Kernel) (curAddr : Word) : Option Kernel := do
  let (parVirt, k) ← iVirtAlloc k
  let k ← mapProcessSpecific k curAddr (iVirtToPhy parVirt) (k.tasks child).pml4e (some child)
  memcpyPage k parVirt curAddr

/-- The copy loop over one area. Every turn takes frames, so more turns than
there are frames end in a failing `page_alloc`. -/
def copyPages (child : Slot) (stop : Word) : Nat → Word → Kernel → Option Kernel
  | 0, _, _ => none
  | fuel + 1, curAddr, k =>
    if curAddr < stop then
      (copyPage child k curAddr).bind fun k => copyPages child stop fuel (curAddr + 4096) k
    else some k

def copyVma (parent child : Slot) (k : Kernel) (i : Nat) : Option Kernel :=
  let area := (k.tasks parent).vma i
  if area.startAddr = 0 then some k
  else copyPages child area.endAddr (FRAMES + 1) area.startAddr
    (modifyTask k child fun s => { s with vma := Function.update s.vma i area })

/-- The fields of the child that are set after the copy. -/
def becomeChild (parent : TaskMem) (regs : Word) (s : TaskMem) : TaskMem :=
  { s with
    memLimit := parent.memLimit
    rsp := regs
    uRsp := parent.uRsp
    tssRsp := parent.tssRsp
    status := .ready
    pages := parent.pages }

def cloneTables (k : Kernel) (parent child : Slot) : Option Kernel :=
  (clonePageDirectory 4 (k.tasks parent).pml4e k).map fun r =>
    modifyTask r.2 child fun s => { s with pml4e := r.1 }

def kfork (k : Kernel) (parent : Slot) (env : List (BitVec 32)) (regs : Word) : Option Kernel := do
  let child ← getNextFreeTask k
  let k ← copyStrings k parent env
  let k ← cloneTables k parent child
  let k ← Transition.run (copyVma parent child) k (List.range VMA_SCANNED)
  some (modifyTask k child (becomeChild (k.tasks parent) regs))

/-! ## Runs -/

def Live (k : Kernel) (t : Slot) : Prop := (k.tasks t).status ≠ .free

instance (k : Kernel) (t : Slot) : Decidable (Live k t) := inferInstanceAs (Decidable (¬ _))

/-- The end of `switch_task`, for the task the scheduler has chosen. -/
def switchTask (k : Kernel) (t : Slot) : Option Kernel :=
  if Live k t then some { k with currentTask := some t, curPml4eVirt := (k.tasks t).pml4e } else none

/-- A call of the running task, a store by it, or a switch to another task. -/
inductive Op where
  | alloc
  | brk
  | kmalloc (size : BitVec 32)
  | exec (call : ExecCall)
  | fork (env : List (BitVec 32)) (regs : Word)
  | store (v : Word) (b : BitVec 8)
  | switch (t : Slot)

def step (k : Kernel) (op : Op) : Option Kernel :=
  k.currentTask.bind fun t =>
    match op with
    | .alloc => (iVirtAlloc k).map Prod.snd
    | .brk => (brk k t).map Prod.snd
    | .kmalloc size => (kmalloc k t size).map Prod.snd
    | .exec call => kexecvpe k t call
    | .fork env regs => kfork k t env regs
    | .store v b => storeByte k v b
    | .switch t => switchTask k t

end Process
