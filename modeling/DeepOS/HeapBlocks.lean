import DeepOS.BumpHeap
import DeepOS.MemLimit
import DeepOS.BootTables

/-!
# The blocks of a heap

`kmalloc` cuts its blocks from pages of `brk`. A block that does not fit into a whole
page reaches into memory that was not obtained, and so does one for which no frame
was left, as `i_virt_alloc` goes on with address 0 when `page_alloc` returns `NULL`.
-/
namespace HeapBlocks

open PhyMem TaskTable PageTable PageMap VirtAlloc Process AddressSpace TaskPages KernelInvariant
  Supply MemLimit
open BumpHeap (Block Layout)

/-! ## The calls, with the failure of `page_alloc` ignored -/

def pageAlloc (k : Kernel) : Word × Kernel :=
  let r := PhyMem.pageAlloc k.memMap
  (r.1, { k with memMap := r.2 })

def allocPage (k : Kernel) : Option (Word × Kernel) := do
  let (phyAdd, k) := pageAlloc k
  let virtAdd := iPhyToVirt phyAdd
  let k ← mapProcess k virtAdd phyAdd
  let k ← memsetPage k virtAdd
  some (virtAdd, k)

def iVirtAlloc (k : Kernel) : Option (Word × Kernel) := do
  let (_, k) ← allocPage k
  allocPage k

def brk (k : Kernel) (t : Slot) : Option (Word × Kernel) :=
  if k.currentMemUsage t + 4096 > (k.tasks t).memLimit then some (0, k)
  else (iVirtAlloc k).map fun r =>
    (r.1, charge (addToVma (gain r.2 t r.1) t r.1 (r.1 + 4095)) (some t))

def growHeap (k : Kernel) (t : Slot) : Option (Word × Word × Kernel) :=
  (brk k t).map fun r => (r.1, r.1 + 4095, addToVma r.2 t r.1 (r.1 + 4095))

def heapPage (k : Kernel) (t : Slot) (size : BitVec 32) : Option (Word × Word × Kernel) :=
  if NeedsPage k t size then growHeap k t
  else some ((k.tasks t).curPtr, (k.tasks t).heapEnd, k)

def kmalloc (k : Kernel) (t : Slot) (size : BitVec 32) : Option (Word × Kernel) :=
  (heapPage k t size).map fun r =>
    if r.1 = 0 then (0, r.2.2)
    else (r.1, modifyTask r.2.2 t fun s =>
      { s with curPtr := r.1 + size.setWidth 64, heapEnd := r.2.1 })

/-- One of the two `page_alloc` calls of `i_virt_alloc` returns `NULL`. -/
def noFrame (k : Kernel) : Bool := (pageAlloc (pageAlloc k).2).1 = 0

/-! ## Runs -/

/-- The kernel with what one task was given: `blocks` are the results of its `kmalloc`
calls that are not `NULL`, `pages` those of `brk`, and `starved` the results of the
`kmalloc` calls that needed a page when no frame was left. -/
structure Heap where
  kernel : Kernel
  blocks : List Block
  pages : List Nat
  starved : List Word

def Heap.start (k : Kernel) : Heap := ⟨k, [], [], []⟩

inductive Op where
  | alloc
  | brk
  | kmalloc (size : BitVec 32)
  | switch (t : Slot)

def obtained (v : Word) : List Nat := if v = 0 then [] else [v.toNat]

def Heap.noteBrk (h : Heap) (r : Word × Kernel) : Heap :=
  { h with kernel := r.2, pages := obtained r.1 ++ h.pages }

def Heap.noteKmalloc (t : Slot) (h : Heap) (size : BitVec 32) (r : Word × Kernel) : Heap where
  kernel := r.2
  blocks := if r.1 = 0 then h.blocks else (r.1.toNat, size.toNat) :: h.blocks
  pages := if NeedsPage h.kernel t size then obtained r.1 ++ h.pages else h.pages
  starved := if NeedsPage h.kernel t size ∧ noFrame h.kernel then r.1 :: h.starved else h.starved

/-- The heap of `t`; calls of other tasks only change the kernel. -/
def step (t : Slot) (h : Heap) (op : Op) : Option Heap :=
  h.kernel.currentTask.bind fun u =>
    match op with
    | .alloc => (iVirtAlloc h.kernel).map fun r => { h with kernel := r.2 }
    | .brk => (brk h.kernel u).map fun r =>
        if u = t then h.noteBrk r else { h with kernel := r.2 }
    | .kmalloc size => (kmalloc h.kernel u size).map fun r =>
        if u = t then h.noteKmalloc t size r else { h with kernel := r.2 }
    | .switch s => (switchTask h.kernel s).map fun k => { h with kernel := k }

/-- Two frames are left, which is what `i_virt_alloc` takes. -/
def Fed (k : Kernel) : Prop := 2 ≤ supply k

def Fits (k : Kernel) (t : Slot) (size : BitVec 32) : Prop :=
  if NeedsPage k t size then Granted k t → size.toNat ≤ 4096
  else (k.tasks t).curPtr.toNat + size.toNat < 2 ^ 64

instance decidableFits (k : Kernel) (t : Slot) (size : BitVec 32) : Decidable (Fits k t size) :=
  inferInstanceAs (Decidable (ite _ _ _))

/-- `page_alloc` does not fail, and the blocks of `t` fit. -/
def Meets (t : Slot) (h : Heap) : Op → Prop
  | .alloc => Fed h.kernel
  | .brk => ∀ u, h.kernel.currentTask = some u → Granted h.kernel u → Fed h.kernel
  | .kmalloc size => ∀ u, h.kernel.currentTask = some u →
      (NeedsPage h.kernel u size → Granted h.kernel u → Fed h.kernel) ∧
      (u = t → Fits h.kernel t size)
  | .switch _ => True

variable {k k' : Kernel} {t : Slot}

/-! ## While frames are left -/

theorem allocPage_of_some {r : Word × Kernel} (h : VirtAlloc.allocPage k = some r) :
    allocPage k = some r := by
  simp only [VirtAlloc.allocPage, bind, Option.bind_eq_some_iff] at h
  obtain ⟨⟨p, k₁⟩, halloc, k₂, hmap, k₃, hset, hres⟩ := h
  rw [Kernel.pageAlloc] at halloc
  rw [allocPage, pageAlloc]
  generalize PhyMem.pageAlloc k.memMap = q at halloc ⊢
  split at halloc
  · cases halloc
  · obtain ⟨rfl, rfl⟩ := Prod.mk.inj (Option.some.inj halloc)
    simp only [bind, hmap, Option.bind_some, hset]
    exact hres

theorem iVirtAlloc_of_some {r : Word × Kernel} (h : VirtAlloc.iVirtAlloc k = some r) :
    iVirtAlloc k = some r := by
  simp only [VirtAlloc.iVirtAlloc, bind, Option.bind_eq_some_iff] at h
  obtain ⟨⟨v, k₁⟩, h₁, h₂⟩ := h
  simp only [iVirtAlloc, bind, allocPage_of_some h₁, Option.bind_some]
  exact allocPage_of_some h₂

theorem kmalloc_of_some {size : BitVec 32} {r : Word × Kernel} (h : Process.kmalloc k t size = some r) :
    kmalloc k t size = some r := by
  have hbrk : ∀ {r}, Process.brk k t = some r → brk k t = some r := by
    intro r hr
    rw [Process.brk] at hr
    rw [brk]
    split at hr
    · rwa [if_pos ‹_›]
    · rw [if_neg ‹_›]
      obtain ⟨q, halloc, hq⟩ := Option.map_eq_some_iff.mp hr
      rw [iVirtAlloc_of_some halloc, Option.map_some, hq]
  rw [Process.kmalloc, Option.map_eq_some_iff] at h
  obtain ⟨p, hpage, hres⟩ := h
  have hheap : heapPage k t size = some p := by
    rw [Process.heapPage] at hpage
    rw [heapPage]
    split at hpage
    · rename_i hneed
      obtain ⟨q, hq, hp⟩ := Option.map_eq_some_iff.mp hpage
      rw [if_pos (show NeedsPage k t size from hneed), growHeap, hbrk hq, Option.map_some, hp]
    · rename_i hroom
      rwa [if_neg (show ¬ NeedsPage k t size from hroom)]
  rw [kmalloc, hheap, Option.map_some, hres]

theorem cr3_mem_liveRoots (h : KInv k) : k.cr3 ∈ liveRoots k := by
  obtain ⟨u, -, hlive, hvirt⟩ := h.current
  rw [Kernel.cr3, hvirt]
  exact mem_liveRoots hlive

theorem iVirtAlloc_eq (h : KInv k) (hfed : Fed k) : iVirtAlloc k = VirtAlloc.iVirtAlloc k := by
  obtain ⟨v, k', hs, -⟩ := Supply.iVirtAlloc_isSome h.sound (cr3_mem_liveRoots h) hfed
  rw [hs]
  exact iVirtAlloc_of_some hs

theorem brk_eq (h : KInv k) (hfed : Granted k t → Fed k) : brk k t = Process.brk k t := by
  rw [brk, Process.brk]
  split
  · rfl
  · rename_i hg
    rw [iVirtAlloc_eq h (hfed hg)]

theorem kmalloc_eq {size : BitVec 32} (h : KInv k) (hfed : NeedsPage k t size → Granted k t → Fed k) :
    kmalloc k t size = Process.kmalloc k t size := by
  have hpage : heapPage k t size = Process.heapPage k t size := by
    rw [heapPage, Process.heapPage]
    split
    · rename_i hneed
      rw [growHeap, Process.growHeap, brk_eq h (hfed hneed)]
      exact (if_pos hneed).symm
    · rename_i hroom
      exact (if_neg hroom).symm
  rw [kmalloc, Process.kmalloc, hpage]

/-! ## What a call does to the heap of a task -/

structure SameCursor (t : Slot) (k k' : Kernel) : Prop where
  curPtr : (k'.tasks t).curPtr = (k.tasks t).curPtr
  heapEnd : (k'.tasks t).heapEnd = (k.tasks t).heapEnd

theorem SameCursor.trans {k₁ : Kernel} (h : SameCursor t k k₁) (h' : SameCursor t k₁ k') :
    SameCursor t k k' :=
  ⟨h'.curPtr.trans h.curPtr, h'.heapEnd.trans h.heapEnd⟩

theorem sameCursor_of_tasks (h : k'.tasks t = k.tasks t) : SameCursor t k k' :=
  ⟨by rw [h], by rw [h]⟩

theorem addToVma_cursor (first last : Word) : SameCursor t k (addToVma k t first last) := by
  rw [addToVma]
  split
  · constructor
    · rw [modifyTask_self]
    · rw [modifyTask_self]
  · exact ⟨rfl, rfl⟩

structure NewPage (k k' : Kernel) (v : Word) (g : Nat) : Prop where
  addr : v = window g
  low : g < WINDOW_FRAMES
  before : g ∈ freeFrames k.memMap
  after : g ∉ freeFrames k'.memMap

theorem brk_granted {v : Word} (h : KInv k) (hs : Process.brk k t = some (v, k')) (hg : Granted k t) :
    (∃ g, NewPage k k' v g) ∧ SameCursor t k k' := by
  rw [Process.brk, if_neg hg, Option.map_eq_some_iff] at hs
  obtain ⟨⟨v₁, k₁⟩, halloc, hres⟩ := hs
  obtain ⟨rfl, rfl⟩ := Prod.mk.inj hres
  obtain ⟨g, hfree, hv, hlow, hfresh, hused, -⟩ := iVirtAlloc_page h.sound (cr3_mem_liveRoots h) halloc
  have hgain : SameCursor t k₁ (gain k₁ t v₁) := by
    rw [gain]
    constructor
    · rw [modifyTask_self]
    · rw [modifyTask_self]
  have hcharge : SameCursor t (addToVma (gain k₁ t v₁) t v₁ (v₁ + 4095))
      (charge (addToVma (gain k₁ t v₁) t v₁ (v₁ + 4095)) (some t)) := ⟨rfl, rfl⟩
  refine ⟨⟨g, hv, hlow, hfree, ?_⟩, ?_⟩
  · show g ∉ freeFrames (addToVma (gain k₁ t v₁) t v₁ (v₁ + 4095)).memMap
    rcases addToVma_cases (gain k₁ t v₁) t v₁ (v₁ + 4095) with heq | ⟨i, -, -, heq⟩
    · rw [heq]
      exact hused
    · rw [heq]
      exact hused
  · have hsame : SameCursor t k k₁ := sameCursor_of_tasks (by rw [hfresh.same.tasks])
    exact ((hsame.trans hgain).trans (addToVma_cursor _ _)).trans hcharge

/-- The heap page is refused, new, or the one in use. -/
inductive Kmalloc (t : Slot) (size : BitVec 32) (k : Kernel) (v : Word) (k' : Kernel) : Prop
  | refused : NeedsPage k t size → ¬ Granted k t → v = 0 → SameCursor t k k' → Kmalloc t size k v k'
  | refilled (g : Nat) : NeedsPage k t size → Granted k t → NewPage k k' v g →
      (k'.tasks t).curPtr = v + size.setWidth 64 → (k'.tasks t).heapEnd = v + 4095 →
      Kmalloc t size k v k'
  | room : ¬ NeedsPage k t size → v = (k.tasks t).curPtr →
      (k'.tasks t).curPtr = v + size.setWidth 64 → (k'.tasks t).heapEnd = (k.tasks t).heapEnd →
      Kmalloc t size k v k'

theorem kmalloc_cases {size : BitVec 32} {v : Word} (h : KInv k)
    (hs : Process.kmalloc k t size = some (v, k')) : Kmalloc t size k v k' := by
  rw [Process.kmalloc, Option.map_eq_some_iff] at hs
  obtain ⟨⟨first, last, k₁⟩, hpage, hres⟩ := hs
  rw [Process.heapPage] at hpage
  split at hpage
  · rename_i hneed
    rw [Process.growHeap, Option.map_eq_some_iff] at hpage
    obtain ⟨⟨v₂, k₂⟩, hbrk, hp⟩ := hpage
    simp only [Prod.mk.injEq] at hp
    obtain ⟨rfl, rfl, rfl⟩ := hp
    by_cases hg : Granted k t
    · obtain ⟨⟨g, hnew⟩, -⟩ := brk_granted h hbrk hg
      have hne : v₂ ≠ 0 := hnew.addr ▸ window_ne_zero hnew.low
      rw [if_neg hne] at hres
      obtain ⟨rfl, rfl⟩ := Prod.mk.inj hres
      refine .refilled g hneed hg ⟨hnew.addr, hnew.low, hnew.before, ?_⟩ ?_ ?_
      · show g ∉ freeFrames (addToVma k₂ t v₂ (v₂ + 4095)).memMap
        rcases addToVma_cases k₂ t v₂ (v₂ + 4095) with heq | ⟨i, -, -, heq⟩
        · rw [heq]
          exact hnew.after
        · rw [heq]
          exact hnew.after
      · rw [modifyTask_self]
      · rw [modifyTask_self]
    · obtain ⟨rfl, rfl⟩ := brk_refused hbrk hg
      rw [if_pos rfl] at hres
      obtain ⟨rfl, rfl⟩ := Prod.mk.inj hres
      exact .refused hneed hg rfl (addToVma_cursor _ _)
  · rename_i hroom
    simp only [Option.some.injEq, Prod.mk.injEq] at hpage
    obtain ⟨rfl, rfl, rfl⟩ := hpage
    have hne : (k.tasks t).curPtr ≠ 0 := fun h0 => hroom (Or.inl h0)
    rw [if_neg hne] at hres
    obtain ⟨rfl, rfl⟩ := Prod.mk.inj hres
    refine .room hroom rfl ?_ ?_
    · rw [modifyTask_self]
    · rw [modifyTask_self]

/-! ## The invariant -/

def cursorOf (s : TaskMem) : Option (Nat × Nat) :=
  if s.curPtr = 0 then none else some (s.heapEnd.toNat - 4095, s.curPtr.toNat)

/-- The pages are window pages of frames that are not free, and the blocks lie in them. -/
structure HeapOk (t : Slot) (h : Heap) : Prop where
  kinv : KInv h.kernel
  layout : Layout 4096 h.pages h.blocks (cursorOf (h.kernel.tasks t))
  last : (h.kernel.tasks t).curPtr ≠ 0 → 4095 ≤ (h.kernel.tasks t).heapEnd.toNat
  frames : ∀ p ∈ h.pages, ∃ g, g < WINDOW_FRAMES ∧ p = (window g).toNat ∧
    g ∉ freeFrames h.kernel.memMap
  starved : ∀ v ∈ h.starved, v = 0

theorem heapOk_start (h : KInv k) (hcur : (k.tasks t).curPtr = 0) : HeapOk t (Heap.start k) where
  kinv := h
  layout := by
    have hnone : cursorOf (k.tasks t) = none := if_pos hcur
    show Layout 4096 [] [] (cursorOf (k.tasks t))
    rw [hnone]
    exact BumpHeap.layout_nil
  last := fun hne => absurd hcur hne
  frames := fun _ hp => by cases hp
  starved := fun _ hv => by cases hv

variable {H : Heap}

theorem cursorOf_same (h : SameCursor t k k') : cursorOf (k'.tasks t) = cursorOf (k.tasks t) := by
  rw [cursorOf, cursorOf, h.curPtr, h.heapEnd]

/-- A call that leaves the cursor alone, and takes frames only. -/
theorem HeapOk.call (h : HeapOk t H) (hk : KInv k') (hfree : freeFrames k'.memMap ⊆ freeFrames H.kernel.memMap)
    (hcur : SameCursor t H.kernel k') : HeapOk t { H with kernel := k' } where
  kinv := hk
  layout := by
    rw [cursorOf_same hcur]
    exact h.layout
  last := by
    rw [hcur.curPtr, hcur.heapEnd]
    exact h.last
  frames := by
    intro p hp
    obtain ⟨g, hlow, hpg, hused⟩ := h.frames p hp
    exact ⟨g, hlow, hpg, fun hg => hused (hfree hg)⟩
  starved := h.starved

/-- A new page is none of those before. -/
theorem HeapOk.notMem {v : Word} {g : Nat} (h : HeapOk t H) (hnew : NewPage H.kernel k' v g) :
    v.toNat ∉ H.pages := by
  intro hp
  obtain ⟨g', hlow, hv, hused⟩ := h.frames _ hp
  have hgg : g' = g := by
    rw [hnew.addr, window_toNat hnew.low, window_toNat hlow] at hv
    omega
  exact hused (hgg ▸ hnew.before)

theorem NewPage.aligned {v : Word} {g : Nat} (hnew : NewPage k k' v g) : v.toNat % 4096 = 0 := by
  rw [hnew.addr]
  exact window_aligned hnew.low

theorem HeapOk.frames_cons {v : Word} {g : Nat} (h : HeapOk t H) (hnew : NewPage H.kernel k' v g)
    (hfree : freeFrames k'.memMap ⊆ freeFrames H.kernel.memMap) :
    ∀ p ∈ v.toNat :: H.pages, ∃ g, g < WINDOW_FRAMES ∧ p = (window g).toNat ∧
      g ∉ freeFrames k'.memMap := by
  intro p hp
  rcases List.mem_cons.mp hp with rfl | hp
  · exact ⟨g, hnew.low, by rw [hnew.addr], hnew.after⟩
  · obtain ⟨g', hlow, hpg, hused⟩ := h.frames p hp
    exact ⟨g', hlow, hpg, fun hg => hused (hfree hg)⟩

theorem HeapOk.brk {v : Word} (h : HeapOk t H) (hk : KInv k')
    (hfree : freeFrames k'.memMap ⊆ freeFrames H.kernel.memMap)
    (hs : Process.brk H.kernel t = some (v, k')) : HeapOk t (H.noteBrk (v, k')) := by
  by_cases hg : Granted H.kernel t
  · obtain ⟨⟨g, hnew⟩, hcur⟩ := brk_granted h.kinv hs hg
    have hpages : obtained v = [v.toNat] := if_neg (hnew.addr ▸ window_ne_zero hnew.low)
    rw [Heap.noteBrk, hpages]
    have hcall := h.call hk hfree hcur
    exact ⟨hk, hcall.layout.page hnew.aligned, hcall.last, h.frames_cons hnew hfree, h.starved⟩
  · obtain ⟨rfl, rfl⟩ := brk_refused hs hg
    exact h

theorem toNat_size (size : BitVec 32) : (size.setWidth 64 : Word).toNat = size.toNat := by
  rw [BitVec.toNat_setWidth]
  have := size.isLt
  omega

/-- Without a page the call returns `NULL`, and the heap is as it was. -/
theorem HeapOk.refused {size : BitVec 32} (h : HeapOk t H) (hk : KInv k')
    (hfree : freeFrames k'.memMap ⊆ freeFrames H.kernel.memMap) (hneed : NeedsPage H.kernel t size)
    (hcur : SameCursor t H.kernel k') : HeapOk t (H.noteKmalloc t size (0, k')) := by
  have hcall := h.call hk hfree hcur
  rw [Heap.noteKmalloc, if_pos rfl, if_pos hneed]
  refine ⟨hk, hcall.layout, hcall.last, hcall.frames, fun v hv => ?_⟩
  dsimp only at hv
  split at hv
  · rcases List.mem_cons.mp hv with rfl | hv
    · rfl
    · exact h.starved v hv
  · exact h.starved v hv

/-- The block is put at the beginning of a new page. -/
theorem HeapOk.refilled {size : BitVec 32} {v : Word} {g : Nat} (h : HeapOk t H) (hk : KInv k')
    (hfree : freeFrames k'.memMap ⊆ freeFrames H.kernel.memMap) (hle : size.toNat ≤ 4096)
    (hneed : NeedsPage H.kernel t size) (hfed : noFrame H.kernel = false) (hnew : NewPage H.kernel k' v g)
    (hptr : (k'.tasks t).curPtr = v + size.setWidth 64) (hend : (k'.tasks t).heapEnd = v + 4095) :
    HeapOk t (H.noteKmalloc t size (v, k')) := by
  have hne : v ≠ 0 := hnew.addr ▸ window_ne_zero hnew.low
  have hnot : ¬(NeedsPage H.kernel t size ∧ noFrame H.kernel = true) := by
    rintro ⟨-, hno⟩
    rw [hfed] at hno
    cases hno
  have hv : v.toNat = 18446744073441116160 + g * 4096 := by rw [hnew.addr, window_toNat hnew.low]
  have hlow := hnew.low
  rw [WINDOW_FRAMES] at hlow
  have hsum : (v + size.setWidth 64).toNat = (v.toNat + size.toNat) % 2 ^ 64 := by
    rw [BitVec.toNat_add, toNat_size]
  have hlast : (v + 4095 : Word).toNat = v.toNat + 4095 := by
    rw [BitVec.toNat_add, show (4095 : Word).toNat = 4095 from rfl]
    omega
  have hlayout := h.layout.refill hnew.aligned (h.notMem hnew) (by decide) hle
  rw [Heap.noteKmalloc, if_neg hne, if_pos hneed, if_neg hnot,
    show obtained v = [v.toNat] from if_neg hne]
  refine ⟨hk, ?_, fun _ => ?_, h.frames_cons hnew hfree, h.starved⟩
  · dsimp only
    rw [cursorOf, hptr, hend]
    split
    · -- the block ends with the last byte of the address space
      exact hlayout.close
    · rename_i hcur
      have hcur' : (v + size.setWidth 64).toNat ≠ 0 := fun h0 => hcur (BitVec.eq_of_toNat_eq h0)
      rw [hlast, Nat.add_sub_cancel, show (v + size.setWidth 64).toNat = v.toNat + size.toNat by omega]
      exact hlayout
  · dsimp only
    rw [hend, hlast]
    omega

/-- The block is put behind the others of the current page. -/
theorem HeapOk.room {size : BitVec 32} (h : HeapOk t H) (hk : KInv k')
    (hfree : freeFrames k'.memMap ⊆ freeFrames H.kernel.memMap) (hroom : ¬ NeedsPage H.kernel t size)
    (hlt : (H.kernel.tasks t).curPtr.toNat + size.toNat < 2 ^ 64)
    (hptr : (k'.tasks t).curPtr = (H.kernel.tasks t).curPtr + size.setWidth 64)
    (hend : (k'.tasks t).heapEnd = (H.kernel.tasks t).heapEnd) :
    HeapOk t (H.noteKmalloc t size ((H.kernel.tasks t).curPtr, k')) := by
  have hne : (H.kernel.tasks t).curPtr ≠ 0 := fun h0 => hroom (Or.inl h0)
  have hle : (H.kernel.tasks t).curPtr + size.setWidth 64 ≤ (H.kernel.tasks t).heapEnd :=
    BitVec.not_lt.mp fun hgt => hroom (Or.inr hgt)
  have hsum : ((H.kernel.tasks t).curPtr + size.setWidth 64).toNat =
      (H.kernel.tasks t).curPtr.toNat + size.toNat := by
    rw [BitVec.toNat_add, toNat_size]
    exact Nat.mod_eq_of_lt hlt
  have hpos : (H.kernel.tasks t).curPtr.toNat ≠ 0 := fun h0 => hne (BitVec.eq_of_toNat_eq h0)
  rw [BitVec.le_def, hsum] at hle
  have hlast := h.last hne
  have hlayout := h.layout
  rw [cursorOf, if_neg hne] at hlayout
  have htake := hlayout.take (n := size.toNat) (by omega) (by omega)
  rw [Heap.noteKmalloc, if_neg hne, if_neg hroom, if_neg fun hboth => hroom hboth.1]
  have hcur : (k'.tasks t).curPtr ≠ 0 := by
    intro h0
    rw [hptr] at h0
    rw [h0, show (0 : Word).toNat = 0 from rfl] at hsum
    omega
  refine ⟨hk, ?_, fun _ => ?_, ?_, h.starved⟩
  · dsimp only
    rw [cursorOf, if_neg hcur, hptr, hend, hsum]
    exact htake
  · dsimp only
    rw [hend]
    exact hlast
  · intro p hp
    obtain ⟨g, hlow, hpg, hused⟩ := h.frames p hp
    exact ⟨g, hlow, hpg, fun hg => hused (hfree hg)⟩

/-- The page of a heap is large enough for its cursor to stand behind it. -/
theorem HeapOk.kmalloc {size : BitVec 32} {v : Word} (h : HeapOk t H) (hk : KInv k')
    (hfree : freeFrames k'.memMap ⊆ freeFrames H.kernel.memMap) (hfits : Fits H.kernel t size)
    (hfed : NeedsPage H.kernel t size → Granted H.kernel t → noFrame H.kernel = false)
    (hs : Process.kmalloc H.kernel t size = some (v, k')) : HeapOk t (H.noteKmalloc t size (v, k')) := by
  rw [Fits] at hfits
  rcases kmalloc_cases h.kinv hs with
    ⟨hneed, hg, rfl, hcur⟩ | ⟨g, hneed, hg, hnew, hptr, hend⟩ | ⟨hroom, rfl, hptr, hend⟩
  · exact h.refused hk hfree hneed hcur
  · rw [if_pos hneed] at hfits
    exact h.refilled hk hfree (hfits hg) hneed (hfed hneed hg) hnew hptr hend
  · rw [if_neg hroom] at hfits
    exact h.room hk hfree hroom hfits hptr hend

/-! ## Whole runs -/

theorem pageAlloc_fst {r : Word × Kernel} (h : k.pageAlloc = some r) : pageAlloc k = r ∧ r.1 ≠ 0 := by
  rw [Kernel.pageAlloc] at h
  rw [pageAlloc]
  generalize PhyMem.pageAlloc k.memMap = q at h ⊢
  split at h
  · cases h
  · rename_i hne
    obtain rfl := Option.some.inj h
    exact ⟨rfl, hne⟩

/-- With two frames left `page_alloc` succeeds twice. -/
theorem noFrame_of_fed (h : KInv k) (hfed : Fed k) : noFrame k = false := by
  rw [Fed] at hfed
  obtain ⟨g, hg, h₁⟩ := Supply.pageAlloc_isSome h.sound (by omega)
  have hleft := supply_unset (k := k) hg
  have hsound : Sound (liveRoots k) { k with memMap := mmapUnset k.memMap g } :=
    (h.sound.evolves_fresh (fresh_unset k g)).sound
  obtain ⟨g', hg', h₂⟩ := Supply.pageAlloc_isSome hsound (by omega)
  obtain ⟨hfirst, -⟩ := pageAlloc_fst h₁
  obtain ⟨hsecond, hne⟩ := pageAlloc_fst h₂
  rw [noFrame, hfirst]
  dsimp only
  rw [hsecond]
  exact decide_eq_false hne

theorem heapOk_step {op : Op} {H' : Heap} (h : HeapOk t H) (hm : Meets t H op)
    (hs : step t H op = some H') : HeapOk t H' := by
  obtain ⟨u, hu, -, -⟩ := h.kinv.current
  rw [step, hu, Option.bind_some] at hs
  cases op with
  | alloc =>
    simp only [iVirtAlloc_eq h.kinv hm, Option.map_eq_some_iff] at hs
    obtain ⟨⟨v, k'⟩, halloc, rfl⟩ := hs
    have hstep : Process.step H.kernel .alloc = some k' := by
      rw [Process.step, hu, Option.bind_some, halloc]
      rfl
    obtain ⟨hk, hp⟩ := h.kinv.step (show KernelInvariant.Meets H.kernel .alloc from trivial) hstep
    obtain ⟨-, -, -, -, hfresh, -⟩ := iVirtAlloc_page h.kinv.sound (cr3_mem_liveRoots h.kinv) halloc
    exact h.call hk hp.evolves.free (sameCursor_of_tasks (by rw [hfresh.same.tasks]))
  | brk =>
    simp only [brk_eq h.kinv (hm u hu), Option.map_eq_some_iff] at hs
    obtain ⟨⟨v, k'⟩, hbrk, hres⟩ := hs
    have hstep : Process.step H.kernel .brk = some k' := by
      rw [Process.step, hu, Option.bind_some, hbrk]
      rfl
    obtain ⟨hk, hp⟩ := h.kinv.step (show KernelInvariant.Meets H.kernel .brk from trivial) hstep
    split at hres
    · rename_i hut
      subst hut hres
      exact h.brk hk hp.evolves.free hbrk
    · rename_i hut
      subst hres
      have hcall := brk_spec h.kinv.sound (cr3_mem_liveRoots h.kinv) hbrk
      exact h.call hk hp.evolves.free (sameCursor_of_tasks (hcall.1.others t fun he => hut he.symm))
  | kmalloc size =>
    obtain ⟨hfed, hfits⟩ := hm u hu
    simp only [kmalloc_eq h.kinv hfed, Option.map_eq_some_iff] at hs
    obtain ⟨⟨v, k'⟩, hkm, hres⟩ := hs
    have hstep : Process.step H.kernel (.kmalloc size) = some k' := by
      simp only [Process.step, hu, Option.bind_some, hkm, Option.map_some]
    obtain ⟨hk, hp⟩ := h.kinv.step (show KernelInvariant.Meets H.kernel (.kmalloc size) from trivial) hstep
    split at hres
    · rename_i hut
      subst hut hres
      exact h.kmalloc hk hp.evolves.free (hfits rfl)
        (fun hneed hg => noFrame_of_fed h.kinv (hfed hneed hg)) hkm
    · rename_i hut
      subst hres
      have hcall := kmalloc_spec h.kinv.sound (cr3_mem_liveRoots h.kinv) hkm
      exact h.call hk hp.evolves.free (sameCursor_of_tasks (hcall.others t fun he => hut he.symm))
  | switch s =>
    simp only [Option.map_eq_some_iff] at hs
    obtain ⟨k', hsw, rfl⟩ := hs
    have hstep : Process.step H.kernel (.switch s) = some k' := by
      rw [Process.step, hu, Option.bind_some]
      exact hsw
    obtain ⟨hk, hp⟩ := h.kinv.step (show KernelInvariant.Meets H.kernel (.switch s) from trivial) hstep
    rw [switchTask] at hsw
    split at hsw
    · obtain rfl := Option.some.inj hsw
      exact h.call hk hp.evolves.free ⟨rfl, rfl⟩
    · cases hsw

/-- In every run in which `page_alloc` does not fail and the blocks of a task fit, they
are pairwise disjoint and lie in its pages from `brk`, and `NULL` is returned when no
frame is left. -/
theorem heap_blocks_apart (h : KInv k) (hcur : (k.tasks t).curPtr = 0) {ops : List Op}
    (hops : Transition.Along (step t) (Meets t) (Heap.start k) ops)
    (hr : Transition.run (step t) (Heap.start k) ops = some H) :
    H.blocks.Pairwise BumpHeap.Apart ∧ (∀ b ∈ H.blocks, ∃ p ∈ H.pages, BumpHeap.Inside 4096 p b) ∧
      ∀ v ∈ H.starved, v = 0 := by
  have hok : HeapOk t H := Transition.run_invariant (step t) (C := Meets t)
    (fun s op s' hm hs hstep => heapOk_step hs hm hstep) (heapOk_start h hcur) hops hr
  exact ⟨hok.layout.apart, hok.layout.inside, hok.starved⟩

def heapMachine : Kernel :=
  { Elf.smallMachine with
    tasks := fun t => if t = 0 then
        { TaskMem.zero with status := .ready, memLimit := 0x100000, pml4e := window 1 }
      else TaskMem.zero
    currentTask := some 0 }

theorem heapMachine_kinv : KInv heapMachine := by
  have hcr3 : heapMachine.cr3 = 1 := frameAt_window (by decide)
  have hfirst : BootTables.FirstTask 0 heapMachine := by
    refine ⟨?_, rfl, ?_, rfl, ?_, fun s hs => ?_⟩
    · have hev : Evolves {1} {1} Elf.smallMachine heapMachine := Elf.small_sound.evolves_same rfl rfl
      rw [hcr3]
      exact hev.sound
    · exact (by decide : Status.ready ≠ Status.free)
    · intro a ha
      cases ha
    · rw [show heapMachine.tasks s = TaskMem.zero from if_neg hs]
      exact ⟨rfl, fun _ => rfl⟩
  exact hfirst.kinv fun i _ h0 => absurd rfl h0

theorem heapMachine_fed : Fed heapMachine := by
  have hset : freeFrames heapMachine.memMap = ↑(Finset.Ico 8 16) := by
    ext f
    rw [show heapMachine.memMap = Elf.smallMachine.memMap from rfl, Elf.small_free, Finset.coe_Ico,
      Set.mem_Ico]
  rw [Fed, supply, hset, Set.ncard_coe_finset]
  decide

/-- Two blocks from one page. -/
theorem heap_blocks_two : ∃ H, Transition.run (step 0) (Heap.start heapMachine) [.kmalloc 100, .kmalloc 50] =
      some H ∧ H.blocks = [(0xFFFFFFFFF0009064, 50), (0xFFFFFFFFF0009000, 100)] ∧
      H.blocks.Pairwise BumpHeap.Apart := by
  have hrun : (Transition.run (step 0) (Heap.start heapMachine) [.kmalloc 100, .kmalloc 50]).map Heap.blocks =
      some [(0xFFFFFFFFF0009064, 50), (0xFFFFFFFFF0009000, 100)] := by decide +kernel
  obtain ⟨H, hr, hblocks⟩ := Option.map_eq_some_iff.mp hrun
  have hops : Transition.Along (step 0) (Meets 0) (Heap.start heapMachine) [.kmalloc 100, .kmalloc 50] := by
    refine ⟨fun u _ => ⟨fun _ _ => heapMachine_fed, fun _ => ?_⟩, fun H₁ h₁ => ⟨fun u hu => ?_, fun _ _ => trivial⟩⟩
    · have hneed : NeedsPage heapMachine 0 100 := Or.inl rfl
      show Fits heapMachine 0 100
      rw [Fits, if_pos hneed]
      exact fun _ => (by decide : (100 : BitVec 32).toNat ≤ 4096)
    · -- the page that the first call took has room
      have hroom : (step 0 (Heap.start heapMachine) (.kmalloc 100)).map (fun H => (H.kernel.currentTask,
          decide (NeedsPage H.kernel 0 50), decide (Fits H.kernel 0 50))) = some (some 0, false, true) := by
        decide +kernel
      rw [h₁, Option.map_some, Option.some.injEq, Prod.mk.injEq, Prod.mk.injEq, decide_eq_false_iff_not,
        decide_eq_true_eq] at hroom
      obtain ⟨hcur, hno, hfits⟩ := hroom
      obtain rfl : (0 : Slot) = u := Option.some.inj (hcur.symm.trans hu)
      exact ⟨fun hneed => absurd hneed hno, fun _ => hfits⟩
  exact ⟨H, hr, hblocks, (heap_blocks_apart heapMachine_kinv rfl hops hr).1⟩

/-- With no frame left `page_alloc` returns 0. -/
theorem pageAlloc_empty (h : freeFrames k.memMap = ∅) : pageAlloc k = (0, k) := by
  rw [pageAlloc, PhyMem.pageAlloc_empty h]

/-- The usage is counted and frame 0 cleared. -/
def afterStarved (k : Kernel) : Kernel :=
  { charge k k.currentTask with
    mem := Function.update (charge k k.currentTask).mem 0 (fun _ => 0) }

theorem afterStarved_evolves {R : Set Nat} (h : Sound R k) : Evolves R R k (afterStarved k) := by
  obtain ⟨hm, hb, -⟩ := charge_spec k k.currentTask
  refine h.evolves_outside (fun f hf => ?_) hb
  have hne : f ≠ 0 := fun h0 => h.zero (h0 ▸ hf)
  show Function.update (charge k k.currentTask).mem 0 (fun _ => 0) f = k.mem f
  rw [Function.update_of_ne hne, hm]

theorem afterStarved_cr3 (k : Kernel) : (afterStarved k).cr3 = k.cr3 := by
  obtain ⟨-, -, hsame⟩ := charge_spec k k.currentTask
  have hcr3 : (afterStarved k).cr3 = (charge k k.currentTask).cr3 := rfl
  rw [hcr3, SameTasks.cr3_eq hsame]

theorem afterStarved_memMap (k : Kernel) : (afterStarved k).memMap = k.memMap :=
  (charge_spec k k.currentTask).2.1

/-- Frame 0 is none of the tables, so its window page is still there. -/
theorem afterStarved_windowed {R : Set Nat} (h : Sound R k) (hr : k.cr3 ∈ R) (hw : Windowed k k.cr3 0) :
    Windowed (afterStarved k) (afterStarved k).cr3 0 := by
  obtain ⟨hm, -, -⟩ := charge_spec k k.currentTask
  have hout : ∀ f ∈ RadixForest.nodes next 3 k.mem R, (afterStarved k).mem f = k.mem f := by
    intro f hf
    have hne : f ≠ 0 := fun h0 => h.zero (h0 ▸ Or.inr hf)
    show Function.update (charge k k.currentTask).mem 0 (fun _ => 0) f = k.mem f
    rw [Function.update_of_ne hne, hm]
  rw [Windowed, afterStarved_cr3]
  exact (RadixForest.leaf_outside hout hr (pathOf_length (window 0)).le (ptIndex (window 0))).trans hw

/-- The page of frame 0 is mapped to itself once more and cleared. -/
theorem allocPage_starved {R : Set Nat} (h : Sound R k) (hr : k.cr3 ∈ R) (hw : Windowed k k.cr3 0)
    (hempty : freeFrames k.memMap = ∅) : allocPage k = some (window 0, afterStarved k) := by
  obtain ⟨hm, -, hsame⟩ := charge_spec k k.currentTask
  have hnoop : mapProcess k (iPhyToVirt 0) 0 = some (charge k k.currentTask) :=
    mapProcessSpecific_noop (MemInv.mono h.inv (Set.singleton_subset_iff.mpr hr)) rfl hw
  have hwalk : walk (charge k k.currentTask) k.cr3 (iPhyToVirt 0) = some (mkEntry (frameAddr 0)) := by
    rw [walk, hm]
    exact hw
  have htrans : translate (charge k k.currentTask) (charge k k.currentTask).cr3 (iPhyToVirt 0) = some 0 := by
    rw [SameTasks.cr3_eq hsame, PageTable.translate, hwalk, Option.map_some, frameOf_mkEntry]
    rfl
  rw [allocPage, pageAlloc_empty hempty]
  simp only [bind, hnoop, Option.bind_some, memsetPage, htrans, Option.map_some]
  rfl

/-- A page that is needed when no frame is left is the window page of frame 0. -/
theorem kmalloc_starved {R : Set Nat} {size : BitVec 32} (h : Sound R k) (hr : k.cr3 ∈ R)
    (hw : Windowed k k.cr3 0) (hempty : freeFrames k.memMap = ∅) (hneed : NeedsPage k t size)
    (hg : Granted k t) : ∃ k', kmalloc k t size = some (window 0, k') := by
  have h₁ := allocPage_starved h hr hw hempty
  have h₂ := allocPage_starved (afterStarved_evolves h).sound (by rw [afterStarved_cr3]; exact hr)
    (afterStarved_windowed h hr hw) (by rw [afterStarved_memMap]; exact hempty)
  have halloc : iVirtAlloc k = some (window 0, afterStarved (afterStarved k)) := by
    simp only [iVirtAlloc, bind, h₁, Option.bind_some, h₂]
  obtain ⟨k₃, hbrk⟩ : ∃ k₃, brk k t = some (window 0, k₃) := by
    rw [brk, if_neg hg, halloc]
    exact ⟨_, rfl⟩
  rw [kmalloc, heapPage, if_pos hneed, growHeap, hbrk, Option.map_some, Option.map_some,
    if_neg (window_ne_zero (by decide))]
  exact ⟨_, rfl⟩

def emptyMachine : Kernel := { heapMachine with memMap := fun _ => 0 }

theorem emptyMachine_free : freeFrames emptyMachine.memMap = ∅ := by
  refine Set.eq_empty_of_forall_notMem fun f hf => ?_
  have htest : BitArray.test (fun _ => (0 : Word)) f = true := hf.2
  have hzero : (0 : Word).getLsbD (f % 64) = false := BitVec.getLsbD_zero
  rw [BitArray.test_eq, hzero] at htest
  cases htest

/-- Two blocks of three pages overlap, and when no frame is left the window address of
frame 0 is returned. -/
theorem large_blocks_overlap :
    (Transition.run (step 0) (Heap.start heapMachine) [.kmalloc 12288, .kmalloc 12288]).map
      (fun H => (H.blocks, decide (H.blocks.Pairwise BumpHeap.Apart))) =
      some ([(0xFFFFFFFFF000B000, 12288), (0xFFFFFFFFF0009000, 12288)], false) ∧
    freeFrames emptyMachine.memMap = ∅ ∧
    ∃ k', kmalloc emptyMachine 0 4096 = some (0xFFFFFFFFF0000000, k') := by
  have hcr3 : emptyMachine.cr3 = 1 := frameAt_window (by decide)
  have hfresh : Fresh Elf.smallMachine { Elf.smallMachine with memMap := fun _ => 0 } := by
    refine ⟨fun _ _ => rfl, fun f hf => ?_, fun _ _ => rfl, ⟨rfl, rfl, rfl⟩⟩
    exact absurd hf (Set.eq_empty_iff_forall_notMem.mp emptyMachine_free f)
  have hev : Evolves {1} {1} { Elf.smallMachine with memMap := fun _ => 0 } emptyMachine :=
    (Elf.small_sound.evolves_fresh hfresh).sound.evolves_same rfl rfl
  refine ⟨by decide +kernel, emptyMachine_free, ?_⟩
  exact kmalloc_starved hev.sound hcr3 (by rw [hcr3]; exact Elf.small_walk (by decide)) emptyMachine_free
    (Or.inl rfl) (by decide)

end HeapBlocks
