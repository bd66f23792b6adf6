import DeepOS.HeapBlocks

/-!
# Where strings are copied to

`kexecvpe` asks `kmalloc` for a block for each string. Where the blocks lie, and what the
`vma` table looks like afterwards, is settled by the heap of the task, its usage and the free
frames before the call.
-/
namespace BlockPlaces

open PhyMem TaskTable PageTable AddressSpace TaskPages
open PageMap (SameTasks)
open VirtAlloc (window Windowed)
open Process (modifyTask gain addToVma freeVma VMA_SCANNED)
open MemLimit (NeedsPage Granted Counts)
open HeapBlocks (kmalloc iVirtAlloc allocPage)

/-- A block for each size. A null block would be written through, which has no result. -/
def copyBlocks (t : Slot) : Kernel → List (BitVec 32) → Option (List Word × Kernel)
  | k, [] => some ([], k)
  | k, size :: rest =>
    (kmalloc k t size).bind fun r =>
      if r.1 = 0 then none else (copyBlocks t r.2 rest).map fun q => (r.1 :: q.1, q.2)

/-! ## Places -/

/-- What settles where the next block lies. -/
structure HeapView where
  usage : BitVec 32
  limit : BitVec 32
  free : Set Nat
  curPtr : Word
  heapEnd : Word

def heapView (k : Kernel) (t : Slot) : HeapView where
  usage := k.currentMemUsage t
  limit := (k.tasks t).memLimit
  free := freeFrames k.memMap
  curPtr := (k.tasks t).curPtr
  heapEnd := (k.tasks t).heapEnd

/-- The frame that `page_alloc` returns: the lowest free one, or its `NULL`, which is frame 0. -/
def Given (free : Set Nat) (g : Nat) : Prop := IsLeast free g ∨ free = ∅ ∧ g = 0

theorem Given.unique {free : Set Nat} {g g' : Nat} (h : Given free g) (h' : Given free g') : g = g' := by
  rcases h with h | ⟨hempty, rfl⟩
  · rcases h' with h' | ⟨hempty, -⟩
    · exact h.unique h'
    · exact absurd hempty (Set.nonempty_iff_ne_empty.mp ⟨g, h.1⟩)
  · rcases h' with h' | ⟨-, rfl⟩
    · exact absurd hempty (Set.nonempty_iff_ne_empty.mp ⟨g', h'.1⟩)
    · rfl

def HeapView.Full (h : HeapView) (size : BitVec 32) : Prop := h.curPtr = 0 ∨ h.curPtr + size.setWidth 64 > h.heapEnd

instance decidableHeapFull (h : HeapView) (size : BitVec 32) : Decidable (h.Full size) :=
  inferInstanceAs (Decidable (_ ∨ _))

def HeapView.cut (h : HeapView) (size : BitVec 32) : HeapView := { h with curPtr := h.curPtr + size.setWidth 64 }

/-- A block in a new page. Two frames are taken, of which the second becomes the page, and
it counts three times. -/
def HeapView.grow (h : HeapView) (g₁ g : Nat) (size : BitVec 32) : HeapView where
  usage := h.usage + 12288
  limit := h.limit
  free := (h.free \ {g₁}) \ {g}
  curPtr := window g + size.setWidth 64
  heapEnd := window g + 4095

/-- Blocks of these sizes have these addresses. -/
inductive Placed : HeapView → List (BitVec 32) → List Word → Prop
  | nil (h : HeapView) : Placed h [] []
  | here {h : HeapView} {size : BitVec 32} {sizes : List (BitVec 32)} {ps : List Word} :
    ¬ h.Full size → Placed (h.cut size) sizes ps → Placed h (size :: sizes) (h.curPtr :: ps)
  | page {h : HeapView} {size : BitVec 32} {sizes : List (BitVec 32)} {ps : List Word} {g₁ g : Nat} :
    h.Full size → ¬ h.usage + 4096 > h.limit → Given h.free g₁ → Given (h.free \ {g₁}) g →
    Placed (h.grow g₁ g size) sizes ps → Placed h (size :: sizes) (window g :: ps)

def Room (curPtr heapEnd : Word) : List (BitVec 32) → Prop
  | [] => True
  | size :: rest => ¬ (curPtr = 0 ∨ curPtr + size.setWidth 64 > heapEnd) ∧ Room (curPtr + size.setWidth 64) heapEnd rest

section

variable {R : Set Nat} {t : Slot} {k k' : Kernel}

theorem copyBlocks_cons {size : BitVec 32} {rest : List (BitVec 32)} {ps : List Word}
    (h : copyBlocks t k (size :: rest) = some (ps, k')) : ∃ p k₁ qs, kmalloc k t size = some (p, k₁) ∧
      p ≠ 0 ∧ copyBlocks t k₁ rest = some (qs, k') ∧ ps = p :: qs := by
  rw [copyBlocks, Option.bind_eq_some_iff] at h
  obtain ⟨⟨p, k₁⟩, hp, h⟩ := h
  simp only at h
  split at h
  · cases h
  · rename_i hne
    rw [Option.map_eq_some_iff] at h
    obtain ⟨⟨qs, k₂⟩, hrest, he⟩ := h
    obtain ⟨rfl, rfl⟩ := Prod.mk.inj he
    exact ⟨p, k₁, qs, hp, hne, hrest, rfl⟩

theorem copyBlocks_of_cons {size : BitVec 32} {rest : List (BitVec 32)} {p : Word} {k₁ : Kernel} {qs : List Word}
    (hp : kmalloc k t size = some (p, k₁)) (hne : p ≠ 0) (hrest : copyBlocks t k₁ rest = some (qs, k')) :
    copyBlocks t k (size :: rest) = some (p :: qs, k') := by
  rw [copyBlocks, hp, Option.bind_some, if_neg hne, hrest]
  rfl

theorem copyBlocks_append (k : Kernel) (as bs : List (BitVec 32)) : copyBlocks t k (as ++ bs) =
    (copyBlocks t k as).bind fun r => (copyBlocks t r.2 bs).map fun q => (r.1 ++ q.1, q.2) := by
  induction as generalizing k with
  | nil => simp [copyBlocks]
  | cons size as ih =>
    rw [List.cons_append, copyBlocks, copyBlocks, Option.bind_assoc]
    refine congrArg _ (funext fun r => ?_)
    by_cases h0 : r.1 = 0
    · simp [h0]
    · rw [if_neg h0, if_neg h0, ih, Option.map_bind]
      cases copyBlocks t r.2 as with
      | none => rfl
      | some q => simp [Option.map_map, Function.comp_def]

theorem copyBlocks_length {sizes : List (BitVec 32)} {ps : List Word}
    (h : copyBlocks t k sizes = some (ps, k')) : ps.length = sizes.length := by
  induction sizes generalizing k ps with
  | nil =>
    obtain ⟨rfl, -⟩ := Prod.mk.inj (Option.some.inj h)
    rfl
  | cons size rest ih =>
    obtain ⟨p, k₁, qs, -, -, hrest, rfl⟩ := copyBlocks_cons h
    rw [List.length_cons, List.length_cons, ih hrest]

/-- While frames are left, the blocks are those of `copyStrings`. -/
theorem copyBlocks_strings {sizes : List (BitVec 32)} {ps : List Word} {k₂ : Kernel}
    (h : copyBlocks t k sizes = some (ps, k')) (hs : Process.copyStrings k t sizes = some k₂) : k₂ = k' := by
  induction sizes generalizing k ps with
  | nil =>
    obtain ⟨-, rfl⟩ := Prod.mk.inj (Option.some.inj h)
    exact (Option.some.inj hs).symm
  | cons size rest ih =>
    obtain ⟨p, k₁, qs, hp, -, hrest, -⟩ := copyBlocks_cons h
    rw [Process.copyStrings, Transition.run, Option.bind_eq_some_iff] at hs
    obtain ⟨k₃, hfirst, hs⟩ := hs
    obtain ⟨⟨p', k₄⟩, hmalloc, rfl⟩ := Option.map_eq_some_iff.mp hfirst
    obtain ⟨-, rfl⟩ := Prod.mk.inj (Option.some.inj (hp.symm.trans (HeapBlocks.kmalloc_of_some hmalloc)))
    exact ih hrest hs

/-! ## The `vma` table -/

/-- What `add_to_vma` makes of the table. -/
def fillVma (vma : Nat → Vma) (first : Word) : Nat → Vma :=
  match freeVma vma with
  | some i => Function.update vma i ⟨first, first + 4095⟩
  | none => vma

theorem addToVma_task (k : Kernel) (t : Slot) (first : Word) :
    (addToVma k t first (first + 4095)).tasks t =
      { k.tasks t with vma := fillVma (k.tasks t).vma first } := by
  rw [addToVma, fillVma]
  cases freeVma (k.tasks t).vma with
  | none => rfl
  | some i => exact modifyTask_self k t _

def Full (vma : Nat → Vma) : Prop := ∀ i < VMA_SCANNED, (vma i).startAddr ≠ 0

theorem fillVma_full {vma : Nat → Vma} (h : Full vma) (first : Word) : fillVma vma first = vma := by
  have hnone : freeVma vma = none := by
    rw [freeVma, List.find?_eq_none]
    intro i hi
    simpa using h i (List.mem_range.mp hi)
  rw [fillVma, hnone]

/-- The slot that is filled. -/
theorem fillVma_some {vma : Nat → Vma} (h : ¬ Full vma) (first : Word) : ∃ i < VMA_SCANNED, (vma i).startAddr = 0 ∧
    fillVma vma first = Function.update vma i ⟨first, first + 4095⟩ := by
  cases hfind : freeVma vma with
  | none =>
    refine absurd (fun i hi => ?_) h
    rw [freeVma, List.find?_eq_none] at hfind
    simpa using hfind i (List.mem_range.mpr hi)
  | some i =>
    refine ⟨i, List.mem_range.mp (List.mem_of_find?_eq_some hfind),
      by simpa using List.find?_some hfind, ?_⟩
    rw [fillVma, hfind]

/-- A slot in use is kept. -/
theorem fillVma_used {vma : Nat → Vma} {i : Nat} (h : (vma i).startAddr ≠ 0) (first : Word) :
    fillVma vma first i = vma i := by
  by_cases hfull : Full vma
  · rw [fillVma_full hfull]
  · obtain ⟨j, -, hzero, heq⟩ := fillVma_some hfull first
    have hij : i ≠ j := by
      rintro rfl
      exact h hzero
    rw [heq]
    exact Function.update_of_ne hij _ _

/-! ## What a call keeps -/

/-- The task `t` runs on sound tables, which also map the window page of frame 0. -/
structure Running (R : Set Nat) (t : Slot) (k : Kernel) : Prop where
  sound : Sound R k
  root : k.cr3 ∈ R
  zero : Windowed k k.cr3 0
  current : k.currentTask = some t

/-- The fields that an exec sets at its end. -/
structure SameStacks (s s' : TaskMem) : Prop where
  rsp : s'.rsp = s.rsp
  tssRsp : s'.tssRsp = s.tssRsp
  uRsp : s'.uRsp = s.uRsp
  pml4e : s'.pml4e = s.pml4e

theorem SameStacks.trans {s s' s'' : TaskMem} (h : SameStacks s s') (h' : SameStacks s' s'') :
    SameStacks s s'' :=
  ⟨h'.rsp.trans h.rsp, h'.tssRsp.trans h.tssRsp, h'.uRsp.trans h.uRsp, h'.pml4e.trans h.pml4e⟩

structure SameTables (R : Set Nat) (k k' : Kernel) : Prop where
  sound : Sound R k'
  cr3 : k'.cr3 = k.cr3
  current : k'.currentTask = k.currentTask
  walks : ∀ r ∈ R, ∀ a, walk k' r a = walk k r a

theorem SameTables.trans {k'' : Kernel} (h : SameTables R k k') (h' : SameTables R k' k'') : SameTables R k k'' where
  sound := h'.sound
  cr3 := h'.cr3.trans h.cr3
  current := h'.current.trans h.current
  walks := fun r hr a => (h'.walks r hr a).trans (h.walks r hr a)

theorem Running.same (h : Running R t k) (hs : SameTables R k k') : Running R t k' where
  sound := hs.sound
  root := hs.cr3.symm ▸ h.root
  zero := by
    rw [Windowed, hs.cr3, hs.walks _ h.root]
    exact h.zero
  current := hs.current.trans h.current

/-- The tables map as before, and slots in use are kept. -/
structure Kept (R : Set Nat) (t : Slot) (k k' : Kernel) : Prop extends SameTables R k k' where
  pointers : SameStacks (k.tasks t) (k'.tasks t)
  used : ∀ i, ((k.tasks t).vma i).startAddr ≠ 0 → (k'.tasks t).vma i = (k.tasks t).vma i

theorem Kept.trans {k'' : Kernel} (h : Kept R t k k') (h' : Kept R t k' k'') : Kept R t k k'' where
  toSameTables := h.toSameTables.trans h'.toSameTables
  pointers := h.pointers.trans h'.pointers
  used := fun i hi => by
    have hsame := h.used i hi
    exact (h'.used i (by rwa [hsame])).trans hsame

theorem Kept.refl (h : Running R t k) : Kept R t k k :=
  ⟨⟨h.sound, rfl, rfl, fun _ _ _ => rfl⟩, ⟨rfl, rfl, rfl, rfl⟩, fun _ _ => rfl⟩

/-! ## One page -/

/-- The page on `g` has been taken for the task `t`. -/
structure Takes (R : Set Nat) (t : Slot) (k k' : Kernel) (g : Nat) : Prop extends SameTables R k k' where
  given : Given (freeFrames k.memMap) g
  low : g < WINDOW_FRAMES
  free : freeFrames k'.memMap = freeFrames k.memMap \ {g}
  counts : Counts t 4096 k k'

theorem sameTables_of_nodes (h : Sound R k')
    (hm : ∀ f ∈ RadixForest.nodes next 3 k.mem R, k'.mem f = k.mem f) (hs : SameTasks k k') : SameTables R k k' where
  sound := h
  cr3 := VirtAlloc.SameTasks.cr3_eq hs
  current := hs.currentTask
  walks := fun _ hr a => RadixForest.leaf_outside hm hr (pathOf_length a).le _

theorem allocPage_takes (hk : Running R t k) :
    ∃ g k', allocPage k = some (window g, k') ∧ Takes R t k k' g := by
  by_cases hempty : freeFrames k.memMap = ∅
  · -- `page_alloc` returns `NULL`, and frame 0 is cleared
    have hsome := HeapBlocks.allocPage_starved hk.sound hk.root hk.zero hempty
    have hsame : SameTasks k (HeapBlocks.afterStarved k) := by
      obtain ⟨-, -, hsame⟩ := PageMap.charge_spec k k.currentTask
      exact ⟨hsame.tasks, hsame.currentTask, hsame.curPml4eVirt⟩
    refine ⟨0, _, hsome, ?_, Or.inr ⟨hempty, rfl⟩, by decide, ?_, ?_, hsame⟩
    · refine sameTables_of_nodes (HeapBlocks.afterStarved_evolves hk.sound).sound (fun f hf => ?_) hsame
      have hne : f ≠ 0 := fun h0 => hk.sound.zero (h0 ▸ Or.inr hf)
      show Function.update (charge k k.currentTask).mem 0 (fun _ => 0) f = k.mem f
      rw [Function.update_of_ne hne, (PageMap.charge_spec k k.currentTask).1]
    · rw [HeapBlocks.afterStarved_memMap, hempty, Set.empty_sdiff]
    · show (charge k k.currentTask).currentMemUsage t = _
      rw [hk.current]
      exact Function.update_self ..
  · obtain ⟨g, hg⟩ := exists_least hempty
    have hlow := hk.sound.low g hg.1
    have hsome := VirtAlloc.allocPage_eq (hk.sound.ready hk.root) hg hlow
    have hfresh := VirtAlloc.afterAlloc_fresh hg.1
    refine ⟨g, _, HeapBlocks.allocPage_of_some hsome, ?_, Or.inl hg, hlow, VirtAlloc.afterAlloc_free k g,
      MemLimit.allocPage_counts hk.current hsome⟩
    exact sameTables_of_nodes (hk.sound.evolves_fresh hfresh).sound (hfresh.nodes_eq hk.sound.inv) hfresh.same

/-- `i_virt_alloc` takes two frames, and the second is the page. -/
theorem iVirtAlloc_takes (hk : Running R t k) : ∃ g₁ g k', iVirtAlloc k = some (window g, k') ∧
    Given (freeFrames k.memMap) g₁ ∧ Given (freeFrames k.memMap \ {g₁}) g ∧ window g ≠ 0 ∧
    freeFrames k'.memMap = (freeFrames k.memMap \ {g₁}) \ {g} ∧ SameTables R k k' ∧ Counts t 8192 k k' := by
  obtain ⟨g₁, k₁, h₁, hfirst⟩ := allocPage_takes hk
  obtain ⟨g, k₂, h₂, hsecond⟩ := allocPage_takes (hk.same hfirst.toSameTables)
  refine ⟨g₁, g, k₂, ?_, hfirst.given, ?_, window_ne_zero hsecond.low, ?_,
    hfirst.toSameTables.trans hsecond.toSameTables, hfirst.counts.trans hsecond.counts⟩
  · simp only [iVirtAlloc, bind, h₁, Option.bind_some]
    exact h₂
  · rw [← hfirst.free]
    exact hsecond.given
  · rw [hsecond.free, hfirst.free]

/-! ## One block -/

/-- The current heap page is used. -/
theorem kmalloc_room {size : BitVec 32} (h : ¬ NeedsPage k t size) :
    kmalloc k t size = some ((k.tasks t).curPtr, modifyTask k t fun s =>
      { s with curPtr := (k.tasks t).curPtr + size.setWidth 64, heapEnd := (k.tasks t).heapEnd }) := by
  have hpage : HeapBlocks.heapPage k t size = some ((k.tasks t).curPtr, (k.tasks t).heapEnd, k) := if_neg h
  have hne : (k.tasks t).curPtr ≠ 0 := fun h0 => h (Or.inl h0)
  rw [kmalloc, hpage, Option.map_some, if_neg hne]

/-- Over the limit the result is the null pointer. -/
theorem kmalloc_refused {size : BitVec 32} (h : NeedsPage k t size) (hg : ¬ Granted k t) :
    ∃ k', kmalloc k t size = some (0, k') := by
  rw [kmalloc, HeapBlocks.heapPage, if_pos h, HeapBlocks.growHeap, HeapBlocks.brk, if_pos (not_not.mp hg)]
  exact ⟨_, rfl⟩

/-- A block in a new page, which is put down twice in the `vma` table. -/
structure Grown (R : Set Nat) (t : Slot) (size : BitVec 32) (k : Kernel) (g₁ g : Nat) (k' : Kernel) : Prop
    extends Kept R t k k' where
  first : Given (freeFrames k.memMap) g₁
  second : Given (freeFrames k.memMap \ {g₁}) g
  view : heapView k' t = (heapView k t).grow g₁ g size
  vma : (k'.tasks t).vma = fillVma (fillVma (k.tasks t).vma (window g)) (window g)

/-- Memory, the free frames and the running task are as they were. -/
structure SameMachine (k k' : Kernel) : Prop where
  mem : k'.mem = k.mem
  memMap : k'.memMap = k.memMap
  currentTask : k'.currentTask = k.currentTask
  curPml4eVirt : k'.curPml4eVirt = k.curPml4eVirt

theorem SameMachine.trans {k'' : Kernel} (h : SameMachine k k') (h' : SameMachine k' k'') : SameMachine k k'' :=
  ⟨h'.mem.trans h.mem, h'.memMap.trans h.memMap, h'.currentTask.trans h.currentTask,
    h'.curPml4eVirt.trans h.curPml4eVirt⟩

theorem SameMachine.tables (h : SameMachine k k') (hs : Sound R k) : SameTables R k k' where
  sound := (hs.evolves_same h.mem h.memMap).sound
  cr3 := by rw [Kernel.cr3, Kernel.cr3, h.curPml4eVirt]
  current := h.currentTask
  walks := fun r _ a => by rw [walk, walk, h.mem]

theorem addToVma_machine (k : Kernel) (t : Slot) (first last : Word) : SameMachine k (addToVma k t first last) := by
  rw [addToVma]
  split
  · exact ⟨rfl, rfl, rfl, rfl⟩
  · exact ⟨rfl, rfl, rfl, rfl⟩

theorem addToVma_usage (k : Kernel) (t : Slot) (first last : Word) :
    (addToVma k t first last).currentMemUsage = k.currentMemUsage := by
  rw [addToVma]
  split
  · rfl
  · rfl

theorem kmalloc_grows {size : BitVec 32} (hk : Running R t k) (h : NeedsPage k t size) (hg : Granted k t) :
    ∃ g₁ g k', kmalloc k t size = some (window g, k') ∧ window g ≠ 0 ∧ Grown R t size k g₁ g k' := by
  obtain ⟨g₁, g, k₁, halloc, hfirst, hsecond, hne, hfree, hsame, hcount⟩ := iVirtAlloc_takes hk
  have htasks := hcount.same.tasks
  -- the task once the page is put down for the second time
  let k₂ := charge (addToVma (gain k₁ t (window g)) t (window g) (window g + 4095)) (some t)
  have htask : (addToVma k₂ t (window g) (window g + 4095)).tasks t =
      { k.tasks t with
        vma := fillVma (fillVma (k.tasks t).vma (window g)) (window g)
        pages := window g :: (k.tasks t).pages } := by
    have hcharge : k₂.tasks t = (addToVma (gain k₁ t (window g)) t (window g) (window g + 4095)).tasks t := rfl
    rw [addToVma_task, hcharge, addToVma_task, gain, modifyTask_self, htasks]
  have hput := addToVma_machine (gain k₁ t (window g)) t (window g) (window g + 4095)
  have hmachine : SameMachine k₁ (addToVma k₂ t (window g) (window g + 4095)) :=
    (show SameMachine k₁ k₂ from ⟨hput.mem, hput.memMap, hput.currentTask, hput.curPml4eVirt⟩).trans
      (addToVma_machine k₂ t _ _)
  have husage : (addToVma k₂ t (window g) (window g + 4095)).currentMemUsage t = k.currentMemUsage t + 12288 := by
    have hpage : k₂.currentMemUsage t = k₁.currentMemUsage t + 4096 := by
      have hsum : k₂.currentMemUsage t =
          (addToVma (gain k₁ t (window g)) t (window g) (window g + 4095)).currentMemUsage t + 4096 :=
        Function.update_self ..
      rw [hsum, addToVma_usage]
      rfl
    rw [addToVma_usage, hpage, hcount.usage, BitVec.add_assoc]
    rfl
  refine ⟨g₁, g, modifyTask (addToVma k₂ t (window g) (window g + 4095)) t fun s =>
    { s with curPtr := window g + size.setWidth 64, heapEnd := window g + 4095 }, ?_, hne, ?_⟩
  · rw [kmalloc, HeapBlocks.heapPage, if_pos h, HeapBlocks.growHeap, HeapBlocks.brk, if_neg hg, halloc]
    simp only [Option.map_some, if_neg hne]
    rfl
  · have htables : SameTables R k₁ (modifyTask (addToVma k₂ t (window g) (window g + 4095)) t fun s =>
        { s with curPtr := window g + size.setWidth 64, heapEnd := window g + 4095 }) := SameMachine.tables
      ⟨hmachine.mem, hmachine.memMap, hmachine.currentTask, hmachine.curPml4eVirt⟩ hsame.sound
    refine ⟨⟨hsame.trans htables, ?_, fun i hi => ?_⟩, hfirst, hsecond, ?_, ?_⟩
    · rw [modifyTask_self, htask]
      exact ⟨rfl, rfl, rfl, rfl⟩
    · rw [modifyTask_self, htask]
      have hused := fillVma_used hi (window g)
      show fillVma _ _ i = _
      rw [fillVma_used (by rwa [hused]), hused]
    · rw [heapView, modifyTask_self, htask]
      show HeapView.mk _ _ (freeFrames (addToVma k₂ t (window g) (window g + 4095)).memMap) _ _ = _
      rw [hmachine.memMap, hfree]
      exact congrArg (fun usage => HeapView.mk usage _ _ _ _) husage
    · rw [modifyTask_self, htask]

theorem granted_of_kmalloc {size : BitVec 32} {p : Word} (hneed : NeedsPage k t size)
    (hp : kmalloc k t size = some (p, k')) (hne : p ≠ 0) : Granted k t := by
  by_contra hg
  obtain ⟨k₁, hp₁⟩ := kmalloc_refused hneed hg
  exact hne (Prod.mk.inj (Option.some.inj (hp.symm.trans hp₁))).1

/-! A block in the current page. -/

theorem kept_cut (hk : Running R t k) (cur : Word) :
    Kept R t k (modifyTask k t fun s => { s with curPtr := cur, heapEnd := (k.tasks t).heapEnd }) where
  toSameTables := SameMachine.tables ⟨rfl, rfl, rfl, rfl⟩ hk.sound
  pointers := by
    rw [modifyTask_self]
    exact ⟨rfl, rfl, rfl, rfl⟩
  used := fun i _ => by rw [modifyTask_self]

theorem heapView_cut (size : BitVec 32) : heapView (modifyTask k t fun s =>
    { s with curPtr := (k.tasks t).curPtr + size.setWidth 64, heapEnd := (k.tasks t).heapEnd }) t =
      (heapView k t).cut size := by
  rw [heapView, modifyTask_self]
  rfl

theorem kmalloc_kept {size : BitVec 32} {v : Word} (hk : Running R t k) (hs : kmalloc k t size = some (v, k'))
    (hv : v ≠ 0) : Kept R t k k' := by
  by_cases hneed : NeedsPage k t size
  · obtain ⟨g₁, g, k₁, hp, -, hgrown⟩ := kmalloc_grows hk hneed (granted_of_kmalloc hneed hs hv)
    obtain ⟨-, rfl⟩ := Prod.mk.inj (Option.some.inj (hs.symm.trans hp))
    exact hgrown.toKept
  · rw [kmalloc_room hneed, Option.some.injEq] at hs
    obtain ⟨-, rfl⟩ := Prod.mk.inj hs
    exact kept_cut hk _

/-! ## All blocks -/

/-- Each block is cut, grown, or refused. -/
theorem copyBlocks_iff (hk : Running R t k) (sizes : List (BitVec 32)) (ps : List Word) :
    (∃ k', copyBlocks t k sizes = some (ps, k')) ↔ Placed (heapView k t) sizes ps := by
  induction sizes generalizing k ps with
  | nil =>
    constructor
    · rintro ⟨k', h⟩
      obtain ⟨rfl, -⟩ := Prod.mk.inj (Option.some.inj h)
      exact .nil _
    · intro h
      cases h
      exact ⟨k, rfl⟩
  | cons size sizes ih =>
    by_cases hneed : NeedsPage k t size
    · by_cases hg : Granted k t
      · obtain ⟨g₁, g, k₁, hp, hne, hgrown⟩ := kmalloc_grows hk hneed hg
        have hih := ih (hk.same hgrown.toSameTables)
        rw [hgrown.view] at hih
        constructor
        · rintro ⟨k', h⟩
          obtain ⟨p, k₂, qs, hp', -, hrest, rfl⟩ := copyBlocks_cons h
          obtain ⟨rfl, rfl⟩ := Prod.mk.inj (Option.some.inj (hp.symm.trans hp'))
          exact .page hneed hg hgrown.first hgrown.second ((hih qs).mp ⟨k', hrest⟩)
        · intro h
          cases h with
          | here hroom _ => exact absurd hneed hroom
          | page _ _ hfirst hsecond hrest =>
            obtain rfl := hfirst.unique hgrown.first
            obtain rfl := hsecond.unique hgrown.second
            obtain ⟨k', hrest'⟩ := (hih _).mpr hrest
            exact ⟨k', copyBlocks_of_cons hp hne hrest'⟩
      · obtain ⟨k₁, hp⟩ := kmalloc_refused hneed hg
        refine iff_of_false ?_ fun h => ?_
        · rintro ⟨k', h⟩
          obtain ⟨p, k₂, qs, hp', hne, -, -⟩ := copyBlocks_cons h
          exact hne (Prod.mk.inj (Option.some.inj (hp.symm.trans hp'))).1.symm
        · cases h with
          | here hroom _ => exact hroom hneed
          | page _ hgranted => exact hg hgranted
    · have hp := kmalloc_room hneed
      have hne : (k.tasks t).curPtr ≠ 0 := fun h0 => hneed (Or.inl h0)
      have hih := ih (hk.same (kept_cut hk ((k.tasks t).curPtr + size.setWidth 64)).toSameTables)
      rw [heapView_cut] at hih
      constructor
      · rintro ⟨k', h⟩
        obtain ⟨p, k₂, qs, hp', -, hrest, rfl⟩ := copyBlocks_cons h
        obtain ⟨rfl, rfl⟩ := Prod.mk.inj (Option.some.inj (hp.symm.trans hp'))
        exact .here hneed ((hih qs).mp ⟨k', hrest⟩)
      · intro h
        cases h with
        | here _ hrest =>
          obtain ⟨k', hrest'⟩ := (hih _).mpr hrest
          exact ⟨k', copyBlocks_of_cons hp hne hrest'⟩
        | page hfull => exact absurd hfull hneed

theorem copyBlocks_kept {sizes : List (BitVec 32)} {ps : List Word} (hk : Running R t k)
    (hs : copyBlocks t k sizes = some (ps, k')) : Kept R t k k' := by
  induction sizes generalizing k ps with
  | nil =>
    obtain ⟨-, rfl⟩ := Prod.mk.inj (Option.some.inj hs)
    exact Kept.refl hk
  | cons size rest ih =>
    obtain ⟨p, k₁, qs, hp, hne, hrest, -⟩ := copyBlocks_cons hs
    have hkept := kmalloc_kept hk hp hne
    exact hkept.trans (ih (hk.same hkept.toSameTables) hrest)

/-- The table stays as it is exactly when no new page is needed, or no slot is free. -/
theorem copyBlocks_vma {sizes : List (BitVec 32)} {ps : List Word} (hk : Running R t k)
    (hs : copyBlocks t k sizes = some (ps, k')) : (k'.tasks t).vma = (k.tasks t).vma ↔
      Room (k.tasks t).curPtr (k.tasks t).heapEnd sizes ∨ Full (k.tasks t).vma := by
  induction sizes generalizing k ps with
  | nil =>
    obtain ⟨-, rfl⟩ := Prod.mk.inj (Option.some.inj hs)
    simp [Room]
  | cons size rest ih =>
    obtain ⟨p, k₁, qs, hp, hne, hrest, -⟩ := copyBlocks_cons hs
    have hk₁ := hk.same (kmalloc_kept hk hp hne).toSameTables
    have hih := ih hk₁ hrest
    by_cases hneed : NeedsPage k t size
    · have hno : ¬ Room (k.tasks t).curPtr (k.tasks t).heapEnd (size :: rest) := fun hroom => hroom.1 hneed
      obtain ⟨g₁, g, k₂, hp₂, -, hgrown⟩ := kmalloc_grows hk hneed (granted_of_kmalloc hneed hp hne)
      obtain ⟨rfl, rfl⟩ := Prod.mk.inj (Option.some.inj (hp.symm.trans hp₂))
      have hvma := hgrown.vma
      by_cases hfull : Full (k.tasks t).vma
      · rw [fillVma_full hfull, fillVma_full hfull] at hvma
        rw [hvma] at hih
        exact iff_of_true (hih.mpr (Or.inr hfull)) (Or.inr hfull)
      · -- the slot that was filled is in use for good
        obtain ⟨i, -, hzero, heq⟩ := fillVma_some hfull (window g)
        have hused : (fillVma (k.tasks t).vma (window g) i).startAddr ≠ 0 := by
          rw [heq, Function.update_self]
          exact hne
        have hkept : (k₁.tasks t).vma i = fillVma (k.tasks t).vma (window g) i := by
          rw [hvma, fillVma_used hused]
        have hend := (copyBlocks_kept hk₁ hrest).used i (by rwa [hkept])
        refine iff_of_false ?_ (by simp [hno, hfull])
        intro hsame
        rw [hsame, hkept] at hend
        rw [hend] at hzero
        exact hused hzero
    · rw [kmalloc_room hneed, Option.some.injEq] at hp
      obtain ⟨-, rfl⟩ := Prod.mk.inj hp
      simp only [modifyTask_self] at hih
      rw [hih, Room]
      exact or_congr_left (and_iff_right hneed).symm

end

end BlockPlaces
