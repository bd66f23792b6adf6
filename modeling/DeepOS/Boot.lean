import DeepOS.BootMap
import DeepOS.KernelInvariant

/-!
# Booting

`init_kernel` from the BIOS memory map to the exec of `init_sh`: the kernel's own
tables, the window, the first task and its program. Until the tables are in use,
page tables are reached by their physical addresses.
-/
namespace Boot

open PhyMem TaskTable PageTable PageMap VirtAlloc Process AddressSpace TaskPages LoadImage
  KernelInvariant
open BootMap (Smap initMemMgmt kerPhysfree)
open RadixForest (follow leaf nodes Forest TreeIn put)

def PHYSBASE_OFFSET : Word := 0x4800
def VGA_BUFFER : Word := 0xB8000

/-- The address the kernel is linked at. -/
def kernmem : Word := 0xFFFFFFFF80200000

def DEFAULT_MEM_LIMIT : BitVec 32 := 4096 * 4096

/-- What the machine starts from: where the loader put the kernel, the memory
map, the contents of memory, the boot stack, and the file `init_sh`. -/
structure Start where
  physbase : Word
  physfree : Word
  entries : List Smap
  memory : MemMap
  mem : Nat → Fin 512 → Word
  stack : Word
  rsp : Word
  initSh : Image

/-! ## The kernel's tables -/

/-- `table->entries[i] = e` by physical address. -/
def putPhys (k : Kernel) (table : Word) (i : Fin 512) (e : Word) : Kernel :=
  { k with mem := put k.mem (frameOf table) i e }

def newTable (k : Kernel) (table : Word) (i : Fin 512) : Option (Word × Kernel) :=
  k.pageAlloc.map fun r => (r.1, putPhys r.2 table i (mkEntry r.1))

/-- The pages from `physbase` up to `physfree`, which the loop of `map_kernel` visits. With
`physfree` in the last page of the address space `physbase` would wrap and the loop go on;
the physical addresses of a start are far below. -/
def kernelPages (physbase physfree : Word) : Nat :=
  ((PHYSBASE_OFFSET + physfree).toNat - physbase.toNat + 4095) / 4096

def mapKernelPage (pt physbase : Word) (k : Kernel) (i : Nat) : Kernel :=
  putPhys k pt (ptIndex (kernmem + BitVec.ofNat 64 (i * 0x1000)))
    (mkEntry (physbase + BitVec.ofNat 64 (i * 0x1000)))

/-- `map_kernel`; the result is `kern_pml4e_phy`. -/
def mapKernel (k : Kernel) (physbase physfree : Word) : Option (Word × Kernel) := do
  let (pml4e, k) ← k.pageAlloc
  let (pdpt, k) ← newTable k pml4e (pml4eIndex kernmem)
  let (pdt, k) ← newTable k pdpt (pdpeIndex kernmem)
  let (pt, k) ← newTable k pdt (pdeIndex kernmem)
  some (pml4e, (List.range (kernelPages physbase physfree)).foldl (mapKernelPage pt physbase) k)

/-- `temp_virtual_adderss_vga`, the first page behind the kernel. -/
def vgaVirt (physbase physfree : Word) : Word :=
  kernmem + BitVec.ofNat 64 (kernelPages physbase physfree * 0x1000)

def kernStackVirt (physbase physfree : Word) : Word := vgaVirt physbase physfree + 0x5000

/-! ## The window -/

def bootTable (k : Kernel) (table : Word) (i : Fin 512) : Option (Word × Kernel) :=
  let entry := k.mem (frameOf table) i
  if isPresent entry then some (getAddress entry, k) else newTable k table i

def map (pml4e : Word) (k : Kernel) (virtualAddress physicalAddress : Word) : Option Kernel := do
  let (pdpt, k) ← bootTable k pml4e (pml4eIndex virtualAddress)
  let (pdt, k) ← bootTable k pdpt (pdpeIndex virtualAddress)
  let (pt, k) ← bootTable k pdt (pdeIndex virtualAddress)
  some (putPhys k pt (ptIndex virtualAddress) (mkEntry physicalAddress))

def mapWindow (pml4e : Word) (k : Kernel) (i : Nat) : Option Kernel :=
  map pml4e k (DUMB_MAPPING_VIRT + BitVec.ofNat 64 (i * 0x1000)) (BitVec.ofNat 64 (i * 0x1000))

def mapVga (pml4e vga : Word) (k : Kernel) (i : Nat) : Option Kernel :=
  map pml4e k (vga + BitVec.ofNat 64 (i * 0x1000)) (VGA_BUFFER + BitVec.ofNat 64 (i * 0x1000))

/-- The window covers the frames up to the one that holds `max_phys`. -/
def identityMapping (pml4e vga maxPhys : Word) (k : Kernel) : Option Kernel := do
  let k ← Transition.run (mapWindow pml4e) k (List.range (maxPhys.toNat / 0x1000 + 1))
  let k ← Transition.run (mapVga pml4e vga) k (List.range (23 * 80 * 2 * 4 / 0x1000 + 1))
  some { k with curPml4eVirt := pml4e ||| DUMB_MAPPING_VIRT }

def setupKernelStack (k : Kernel) (kernStack : Word) : Option Kernel := do
  let (stack, k) ← k.pageAlloc
  mapProcess k kernStack stack

/-! ## The first task -/

def setLimits (k : Kernel) : Kernel :=
  { k with tasks := fun t => { k.tasks t with memLimit := DEFAULT_MEM_LIMIT } }

def enterTask (k : Kernel) (t : Slot) : Kernel :=
  let k' := modifyTask k t fun s => { s with pml4e := k.curPml4eVirt, status := .ready }
  { k' with currentTask := some t }

/-- The stacks of the first task; the user stack is the one the kernel booted on. -/
def setBootStacks (s : TaskMem) (stack kStack rsp : Word) : TaskMem :=
  { s with
    vma := stackAreas s.vma stack kStack
    rsp := kStack + 4095
    uRsp := rsp
    pages := kStack :: s.pages }

def initializeTasking (k : Kernel) (stack rsp : Word) : Option Kernel := do
  let t ← Process.getNextFreeTask (setLimits k)
  let (kStack, k) ← iVirtAlloc (enterTask (setLimits k) t)
  some (modifyTask k t fun s => setBootStacks s stack kStack rsp)

def shellSizes : List (BitVec 32) := [12, 64 * 8, 128, 64 * 8]

/-- `kexecvpe("/bin/init_sh", 1, {"bin/init_sh"}, {"PATH=bin"})`. -/
def shellCall (initSh : Image) : ExecCall where
  argv := [12]
  envp := [9]
  direct := some initSh
  joined := []
  path := []

def createShell (k : Kernel) (initSh : Image) : Option Kernel :=
  k.currentTask.bind fun t =>
    (copyStrings k t shellSizes).bind fun k => kexecvpe k t (shellCall initSh)

/-! ## The whole boot -/

def Start.bootMap (c : Start) : BootMap.MapState := initMemMgmt c.physbase c.physfree c.entries c.memory

def Start.kernel (c : Start) : Kernel where
  mem := c.mem
  memMap := c.bootMap.memMap
  tasks := fun _ => TaskMem.zero
  currentMemUsage := fun _ => 0
  currentTask := none
  curPml4eVirt := 0

/-- `init_mem_mgmt` behind the loop over the memory map. -/
def initTables (c : Start) : Option Kernel := do
  let physfree := kerPhysfree c.physfree
  let (pml4e, k) ← mapKernel c.kernel c.physbase physfree
  let k ← identityMapping pml4e (vgaVirt c.physbase physfree) c.bootMap.maxPhys k
  setupKernelStack k (kernStackVirt c.physbase physfree)

/-- The state in which `init_sh` starts. -/
def boot (c : Start) : Option Kernel := do
  let k ← initTables c
  let k ← initializeTasking k c.stack c.rsp
  createShell k c.initSh

end Boot
