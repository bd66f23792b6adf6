import DeepOS.PhyMem
import DeepOS.RadixForest
import DeepOS.TaskTable

/-!
# Page tables

The four-level tables of `sys/virt_mem.c` in physical memory. The kernel reaches
a table through the window at `DUMB_MAPPING_VIRT`: a window address is read here
as the frame it stands for. A `page_alloc` that returns `NULL` ends an operation
without a result.
-/
namespace PageTable

open PhyMem TaskTable
open RadixForest (follow leaf nodes Forest put)

def PRESENT : Word := 0x1
def WRITABLE : Word := 0x2
def USER_MODE : Word := 0x4

def MEM_FLAG_MASK : Word := 0xFFFFFFFFFFFFF000

def DUMB_MAPPING_VIRT : Word := 0xFFFFFFFFF0000000

theorem dumb_toNat : DUMB_MAPPING_VIRT.toNat = 18446744073441116160 := rfl

def WINDOW_FRAMES : Nat := 65536

structure Vma where
  startAddr : Word
  endAddr : Word
  deriving DecidableEq, Repr

/-- The memory fields of `task_t`. `pages` is not part of the record: it lists
the pages the task has obtained as stack, heap or segment, and no call reads it. -/
structure TaskMem where
  status : Status
  memLimit : BitVec 32
  vma : Nat → Vma
  heapEnd : Word
  curPtr : Word
  rsp : Word
  tssRsp : Word
  uRsp : Word
  pml4e : Word
  pages : List Word

def TaskMem.zero : TaskMem where
  status := .free
  memLimit := 0
  vma := fun _ => ⟨0, 0⟩
  heapEnd := 0
  curPtr := 0
  rsp := 0
  tssRsp := 0
  uRsp := 0
  pml4e := 0
  pages := []

/-- The state of the memory manager: physical memory as tables of 512 words, the
bitmap, the tasks and the two globals that say whose tables are in use. -/
structure Kernel where
  mem : Nat → Fin 512 → Word
  memMap : MemMap
  tasks : Slot → TaskMem
  currentMemUsage : Slot → BitVec 32
  currentTask : Option Slot
  curPml4eVirt : Word

def iVirtToPhy (virt : Word) : Word := virt - DUMB_MAPPING_VIRT

def iPhyToVirt (phy : Word) : Word := phy + DUMB_MAPPING_VIRT

/-- The frame a window address stands for. -/
def frameAt (virt : Word) : Nat := frameOf (iVirtToPhy virt)

def isPresent (entry : Word) : Bool := entry &&& PRESENT != 0

def getAddress (entry : Word) : Word := entry &&& MEM_FLAG_MASK

instance neZero_entries : NeZero 512 := ⟨by decide⟩

/-- The nine bits of an address from `shift` on. -/
def index (shift : Nat) (x : Word) : Fin 512 := Fin.ofNat 512 (x >>> shift).toNat

def pml4eIndex (x : Word) : Fin 512 := index 39 x
def pdpeIndex (x : Word) : Fin 512 := index 30 x
def pdeIndex (x : Word) : Fin 512 := index 21 x
def ptIndex (x : Word) : Fin 512 := index 12 x

/-- The three attributes added to an address. -/
def mkEntry (address : Word) : Word := address ||| PRESENT ||| WRITABLE ||| USER_MODE

/-- `table->entries[i]`. -/
def Kernel.entry (k : Kernel) (table : Word) (i : Fin 512) : Word := k.mem (frameAt table) i

def Kernel.setEntry (k : Kernel) (table : Word) (i : Fin 512) (e : Word) : Kernel :=
  { k with mem := put k.mem (frameAt table) i e }

def Kernel.pageAlloc (k : Kernel) : Option (Word × Kernel) :=
  let r := PhyMem.pageAlloc k.memMap
  if r.1 = 0 then none else some (r.1, { k with memMap := r.2 })

/-- One level of `map_process_specific`: the table below `table` at index `i`,
taken from the allocator and linked in when it is missing. -/
def nextTable (k : Kernel) (table : Word) (i : Fin 512) : Option (Word × Kernel) :=
  let entry := k.entry table i
  if isPresent entry then some (getAddress entry ||| DUMB_MAPPING_VIRT, k)
  else k.pageAlloc.map fun r =>
    (r.1 ||| DUMB_MAPPING_VIRT, r.2.setEntry table i (mkEntry r.1))

/-- `task->current_mem_usage += 4096`. -/
def charge (k : Kernel) : Option Slot → Kernel
  | some t =>
    { k with currentMemUsage := Function.update k.currentMemUsage t (k.currentMemUsage t + 4096) }
  | none => k

def mapProcessSpecific (k : Kernel) (virtualAddress physicalAddress pml4e : Word)
    (task : Option Slot) : Option Kernel := do
  let (pdpt, k) ← nextTable (charge k task) pml4e (pml4eIndex virtualAddress)
  let (pdt, k) ← nextTable k pdpt (pdpeIndex virtualAddress)
  let (pt, k) ← nextTable k pdt (pdeIndex virtualAddress)
  some (k.setEntry pt (ptIndex virtualAddress) (mkEntry physicalAddress))

def mapProcess (k : Kernel) (virtualAddress physicalAddress : Word) : Option Kernel :=
  mapProcessSpecific k virtualAddress physicalAddress k.curPml4eVirt k.currentTask

def getPhyAddr (k : Kernel) (addr pml4e : Word) : Word :=
  let pdpe := iPhyToVirt (k.entry pml4e (index 39 addr) &&& MEM_FLAG_MASK)
  let pde := iPhyToVirt (k.entry pdpe (index 30 addr) &&& MEM_FLAG_MASK)
  let pt := iPhyToVirt (k.entry pde (index 21 addr) &&& MEM_FLAG_MASK)
  k.entry pt (index 12 addr) &&& MEM_FLAG_MASK

/-! ## Words as links -/

/-- The table a present entry leads to. -/
def next (e : Word) : Option Nat := if isPresent e then some (frameOf e) else none

def pathOf (v : Word) : List (Fin 512) := [pml4eIndex v, pdpeIndex v, pdeIndex v]

/-- The leaf entry the hardware finds for an address, if all four levels are present. -/
def walk (k : Kernel) (root : Nat) (v : Word) : Option Word :=
  leaf next k.mem root (pathOf v) (ptIndex v)

def translate (k : Kernel) (root : Nat) (v : Word) : Option Nat := (walk k root v).map frameOf

/-- The root of the tables in use, which `cr3` points at. -/
def Kernel.cr3 (k : Kernel) : Nat := frameAt k.curPml4eVirt

theorem frameOf_eq_shift (e : Word) : frameOf e = (e >>> 12).toNat := by
  rw [frameOf, PHYS_PAGE_SIZE, BitVec.toNat_ushiftRight, Nat.shiftRight_eq_div_pow]

@[simp] theorem frameOf_mkEntry (p : Word) : frameOf (mkEntry p) = frameOf p := by
  simp only [frameOf_eq_shift, mkEntry, BitVec.ushiftRight_or_distrib]
  simp [PRESENT, WRITABLE, USER_MODE]

@[simp] theorem frameOf_getAddress (e : Word) : frameOf (getAddress e) = frameOf e := by
  simp only [frameOf_eq_shift, getAddress, BitVec.ushiftRight_and_distrib]
  congr 1
  apply BitVec.eq_of_getLsbD_eq
  intro i hi
  rw [BitVec.getLsbD_and, BitVec.getLsbD_ushiftRight, BitVec.getLsbD_ushiftRight]
  by_cases h : 12 + i < 64
  · have hmask : ∀ j : Fin 52, MEM_FLAG_MASK.getLsbD (12 + j.val) = true := by decide
    rw [hmask ⟨i, by omega⟩, Bool.and_true]
  · rw [BitVec.getLsbD_of_ge _ _ (by omega), Bool.false_and]

@[simp] theorem isPresent_mkEntry (p : Word) : isPresent (mkEntry p) = true := by
  simp only [isPresent, bne_iff_ne, ne_eq]
  intro h
  have h0 := congrArg (fun w => w.getLsbD 0) h
  simp [mkEntry, PRESENT] at h0

theorem mkEntry_eq (p : Word) : mkEntry p = p ||| 7 := by
  rw [mkEntry, BitVec.or_assoc, BitVec.or_assoc]
  rfl

theorem mkEntry_flags (p : Word) : mkEntry p &&& 7 = 7 := by
  rw [mkEntry_eq]
  apply BitVec.eq_of_getLsbD_eq
  intro i hi
  rw [BitVec.getLsbD_and, BitVec.getLsbD_or]
  cases p.getLsbD i <;> cases (7 : Word).getLsbD i <;> rfl

/-- For a page address the flags come off again. -/
theorem mkEntry_address {p : Word} (hp : p &&& 0xFFF = 0) : mkEntry p &&& MEM_FLAG_MASK = p := by
  rw [mkEntry_eq]
  apply BitVec.eq_of_getLsbD_eq
  intro i hi
  have hpi := congrArg (fun w => w.getLsbD i) hp
  simp only [BitVec.getLsbD_and, BitVec.getLsbD_or] at hpi ⊢
  have hbits : ∀ j : Fin 64, (7 : Word).getLsbD j = true → MEM_FLAG_MASK.getLsbD j = false := by
    decide
  have hmask : ∀ j : Fin 64, MEM_FLAG_MASK.getLsbD j = !(0xFFF : Word).getLsbD j := by decide
  have h7 := hbits ⟨i, hi⟩
  have hm := hmask ⟨i, hi⟩
  simp only at h7 hm
  rw [hm] at h7 ⊢
  cases hb : (0xFFF : Word).getLsbD i with
  | false =>
    rw [hb] at h7
    cases h : (7 : Word).getLsbD i with
    | false => simp
    | true => exact absurd (h7 h) (by decide)
  | true =>
    rw [hb] at hpi
    simpa using hpi.symm

@[simp] theorem next_mkEntry (p : Word) : next (mkEntry p) = some (frameOf p) := by
  rw [next, isPresent_mkEntry, frameOf_mkEntry, if_pos rfl]

@[simp] theorem frameAt_iPhyToVirt (p : Word) : frameAt (iPhyToVirt p) = frameOf p := by
  rw [frameAt, iVirtToPhy, iPhyToVirt, BitVec.add_sub_cancel]

/-- Below 256 MB the window address made with `|` is the one made with `+`. -/
theorem or_window {p : Word} (hp : frameOf p < WINDOW_FRAMES) :
    p ||| DUMB_MAPPING_VIRT = iPhyToVirt p := by
  rw [iPhyToVirt, BitVec.add_eq_or_of_and_eq_zero]
  apply BitVec.eq_of_getLsbD_eq
  intro i hi
  rw [BitVec.getLsbD_and]
  by_cases h : i < 28
  · have hlow : ∀ j : Fin 28, DUMB_MAPPING_VIRT.getLsbD j = false := by decide
    rw [hlow ⟨i, h⟩, Bool.and_false]
    simp
  · have hlt : p.toNat < 2 ^ i := by
      have : p.toNat < 2 ^ 28 := by
        rw [frameOf, PHYS_PAGE_SIZE, WINDOW_FRAMES] at hp
        omega
      exact this.trans_le (Nat.pow_le_pow_right (by decide) (by omega))
    rw [BitVec.getLsbD, Nat.testBit_lt_two_pow hlt, Bool.false_and]
    simp

/-- The window has 256 MB, so the window addresses of frames begin again above. -/
theorem frameAt_or_mod (p : Word) : frameAt (p ||| DUMB_MAPPING_VIRT) = frameOf p % WINDOW_FRAMES := by
  have hmask : ∀ i : Fin 64, DUMB_MAPPING_VIRT.getLsbD i = !(0xFFFFFFF : Word).getLsbD i := by decide
  have hor : p ||| DUMB_MAPPING_VIRT = iPhyToVirt (p &&& 0xFFFFFFF) := by
    rw [iPhyToVirt, BitVec.add_eq_or_of_and_eq_zero]
    · apply BitVec.eq_of_getLsbD_eq
      intro i hi
      rw [BitVec.getLsbD_or, BitVec.getLsbD_or, BitVec.getLsbD_and, hmask ⟨i, hi⟩]
      cases p.getLsbD i <;> cases (0xFFFFFFF : Word).getLsbD i <;> rfl
    · apply BitVec.eq_of_getLsbD_eq
      intro i hi
      rw [BitVec.getLsbD_and, BitVec.getLsbD_and, hmask ⟨i, hi⟩, Bool.and_assoc, Bool.and_not_self, Bool.and_false]
      simp
  have hlow : (p &&& 0xFFFFFFF).toNat = p.toNat % 2 ^ 28 := by
    rw [BitVec.toNat_and]
    exact Nat.and_two_pow_sub_one_eq_mod p.toNat 28
  rw [hor, frameAt_iPhyToVirt, frameOf, frameOf, hlow, PHYS_PAGE_SIZE, WINDOW_FRAMES]
  omega

theorem frameAt_or {p : Word} (hp : frameOf p < WINDOW_FRAMES) :
    frameAt (p ||| DUMB_MAPPING_VIRT) = frameOf p := by
  rw [frameAt_or_mod, Nat.mod_eq_of_lt hp]

/-! ## Pages -/

/-- The number of the page of an address: the 36 bits the four indices read. -/
def vpn (v : Word) : Nat := v.toNat / 4096 % 2 ^ 36

theorem index_val (shift : Nat) (v : Word) : (index shift v).val = v.toNat / 2 ^ shift % 512 := by
  rw [index, Fin.val_ofNat, BitVec.toNat_ushiftRight, Nat.shiftRight_eq_div_pow]

/-- Two addresses take the same way through the tables exactly when they lie in
the same page. -/
theorem path_eq_iff (a v : Word) : pathOf a = pathOf v ∧ ptIndex a = ptIndex v ↔ vpn a = vpn v := by
  simp only [pathOf, List.cons.injEq, and_true, pml4eIndex, pdpeIndex, pdeIndex, ptIndex,
    Fin.ext_iff, index_val, vpn]
  omega

theorem pathOf_length (v : Word) : (pathOf v).length = 3 := rfl

/-- `get_phy_addr` reads the address of the leaf the hardware finds. -/
theorem getPhyAddr_eq {k : Kernel} {a pml4e e : Word} (h : walk k (frameAt pml4e) a = some e) :
    getPhyAddr k a pml4e = e &&& MEM_FLAG_MASK := by
  obtain ⟨f, hf, -, rfl⟩ := RadixForest.leaf_eq_some.mp h
  simp only [pathOf, follow, Option.bind_eq_some_iff] at hf
  obtain ⟨f₁, h₁, f₂, h₂, f₃, h₃, hf⟩ := hf
  have hnext : ∀ {e : Word} {g : Nat}, next e = some g → frameOf e = g := by
    intro e g he
    rw [next] at he
    split at he
    · exact Option.some.inj he
    · cases he
  have haddr : ∀ e : Word, frameOf (e &&& MEM_FLAG_MASK) = frameOf e := frameOf_getAddress
  simp only [getPhyAddr, Kernel.entry, frameAt_iPhyToVirt, haddr]
  rw [show frameOf (k.mem (frameAt pml4e) (index 39 a)) = f₁ from hnext h₁,
    show frameOf (k.mem f₁ (index 30 a)) = f₂ from hnext h₂,
    show frameOf (k.mem f₂ (index 21 a)) = f₃ from hnext h₃, Option.some.inj hf]
  rfl

end PageTable
