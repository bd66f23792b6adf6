import DeepOS.Confinement

/-!
# The kernel stacks

The processor enters the kernel on the stack at the end of the page in slot 1 of the task's
`vma` table. In every run from the boot each live task has that page on a frame that no
other task has a page on.
-/
namespace KernelStacks

open PhyMem TaskTable PageTable PageMap VirtAlloc Clone AddressSpace TaskPages LoadImage Fork Boot BootRun ForkLaw
  Confinement
open Process hiding Op step
open KernelInvariant hiding Meets
open ExecMemory (Op step Meets kexecvpe_front step_fork kinv_step)
open BootTables (StartOk FirstTask initTables_spec initializeTasking_spec boot_kinv)

variable {R : Set Nat} {t c w : Slot} {k₀ k k' : Kernel} {a v : Word} {f : Nat}

def stackOf (s : TaskMem) : Word := (s.vma VMA_KERNEL_STACK_IDX).startAddr

/-- The area of the kernel stack is one page of the window, and the interrupts start at its end. -/
structure StackArea (s : TaskMem) : Prop where
  area : ∃ g < WINDOW_FRAMES, s.vma VMA_KERNEL_STACK_IDX = ⟨window g, window g + 4095⟩
  rsp : s.tssRsp = (s.vma VMA_KERNEL_STACK_IDX).endAddr
  page : stackOf s ∈ s.pages

/-- Each live task has different pages on different frames, and its kernel stack to itself. -/
structure StacksInv (k : Kernel) : Prop where
  frames : ∀ t, Live k t → OnFrames (liveRoots k) (root k t) (pagesOf k t) k
  areas : ∀ t, Live k t → StackArea (k.tasks t)
  own : ∀ t, Live k t → ¬ Shared k t (stackOf (k.tasks t))

theorem Alone.not_shared (h : Alone k w a f) : ¬ Shared k w a := by
  rintro ⟨f', s, hf', hs, hsw, hreach⟩
  obtain rfl : f' = f := Option.some.inj (hf'.symm.trans h.page)
  exact h.others s hs hsw hreach

theorem alone_of_not_shared (h : KInv k) (hw : Live k w) (ha : a ∈ (k.tasks w).pages) (hno : ¬ Shared k w a) :
    ∃ f, Alone k w a f := by
  obtain ⟨f, hf, hfc⟩ := h.data w hw a ha
  exact ⟨f, hw, hf, hfc, fun s hs hsw hreach => hno ⟨f, s, hf, hs, hsw, hreach⟩⟩

theorem StackArea.startAddr_ne_zero {s : TaskMem} (h : StackArea s) :
    (s.vma VMA_KERNEL_STACK_IDX).startAddr ≠ 0 := by
  obtain ⟨g, hg, heq⟩ := h.area
  rw [heq]
  exact window_ne_zero hg

/-! ## The fields of the stack -/

def SameStacks (s s' : TaskMem) : Prop :=
  s'.tssRsp = s.tssRsp ∧ ((s.vma VMA_KERNEL_STACK_IDX).startAddr ≠ 0 →
    s'.vma VMA_KERNEL_STACK_IDX = s.vma VMA_KERNEL_STACK_IDX)

theorem SameStacks.trans {s s' s'' : TaskMem} (h : SameStacks s s') (h' : SameStacks s' s'') : SameStacks s s'' := by
  refine ⟨h'.1.trans h.1, fun hne => ?_⟩
  have heq := h.2 hne
  rw [h'.2 (by rw [heq]; exact hne), heq]

theorem SameStacks.stackArea {s s' : TaskMem} (h : SameStacks s s') (hs : StackArea s)
    (hkept : ∀ a ∈ s.pages, a ∈ s'.pages) : StackArea s' := by
  have heq := h.2 hs.startAddr_ne_zero
  refine ⟨by rw [heq]; exact hs.area, by rw [h.1, heq]; exact hs.rsp, ?_⟩
  rw [stackOf, heq]
  exact hkept _ hs.page

theorem addToVma_stacks (k : Kernel) (t : Slot) (first last : Word) :
    SameStacks (k.tasks t) ((addToVma k t first last).tasks t) := by
  rcases addToVma_cases k t first last with heq | ⟨i, -, hfree, heq⟩
  · rw [heq]
    exact ⟨rfl, fun _ => rfl⟩
  · rw [heq, modifyTask_self]
    refine ⟨rfl, fun hne => Function.update_of_ne ?_ _ _⟩
    rintro rfl
    exact hne hfree

theorem brk_stacks (h : Sound R k) (hr : k.cr3 ∈ R) (hs : brk k t = some (v, k')) :
    SameStacks (k.tasks t) (k'.tasks t) := by
  rw [brk] at hs
  split at hs
  · obtain ⟨-, rfl⟩ := Prod.mk.inj (Option.some.inj hs)
    exact ⟨rfl, fun _ => rfl⟩
  · rw [Option.map_eq_some_iff] at hs
    obtain ⟨⟨p, k₁⟩, halloc, hres⟩ := hs
    obtain ⟨-, rfl⟩ := Prod.mk.inj hres
    obtain ⟨-, -, -, -, hfresh, -⟩ := iVirtAlloc_page h hr halloc
    obtain ⟨-, -, hsame⟩ := charge_spec (addToVma (gain k₁ t p) t p (p + 4095)) (some t)
    rw [hsame.tasks]
    have hgain : SameStacks (k.tasks t) ((gain k₁ t p).tasks t) := by
      rw [gain, modifyTask_self, hfresh.same.tasks]
      exact ⟨rfl, fun _ => rfl⟩
    exact hgain.trans (addToVma_stacks _ t p (p + 4095))

theorem kmalloc_stacks {size : BitVec 32} (h : Sound R k) (hr : k.cr3 ∈ R) (hs : kmalloc k t size = some (v, k')) :
    SameStacks (k.tasks t) (k'.tasks t) := by
  rw [kmalloc, Option.map_eq_some_iff] at hs
  obtain ⟨⟨curPtr, heapEnd, k₁⟩, hpage, hs⟩ := hs
  have h₁ : SameStacks (k.tasks t) (k₁.tasks t) := by
    rw [heapPage] at hpage
    split at hpage
    · rw [growHeap, Option.map_eq_some_iff] at hpage
      obtain ⟨⟨p, k₂⟩, hbrk, hres⟩ := hpage
      simp only [Prod.mk.injEq] at hres
      obtain ⟨-, -, rfl⟩ := hres
      exact (brk_stacks h hr hbrk).trans (addToVma_stacks k₂ t p (p + 4095))
    · simp only [Option.some.injEq, Prod.mk.injEq] at hpage
      obtain ⟨-, -, rfl⟩ := hpage
      exact ⟨rfl, fun _ => rfl⟩
  simp only at hs
  split at hs
  · obtain ⟨-, rfl⟩ := Prod.mk.inj hs
    exact h₁
  · obtain ⟨-, rfl⟩ := Prod.mk.inj hs
    rw [modifyTask_self]
    exact h₁

theorem copyStrings_stacks {sizes : List (BitVec 32)} (h : Sound R k) (hr : k.cr3 ∈ R)
    (hs : copyStrings k t sizes = some k') : SameStacks (k.tasks t) (k'.tasks t) := by
  have hloop := Transition.run_loop (P := fun _ k' => HeapCall R t k k' ∧ SameStacks (k.tasks t) (k'.tasks t)) _ ?_
    ⟨heapCall_of_vma (works_refl h) rfl, rfl, fun _ => rfl⟩ hs
  · exact hloop.2
  · rintro done size rest k₁ k₂ _ ⟨hcall, hsame⟩ hstep
    rw [Option.map_eq_some_iff] at hstep
    obtain ⟨⟨v, k₂⟩, hstep, rfl⟩ := hstep
    have hr₁ : k₁.cr3 ∈ R := hcall.cr3.symm ▸ hr
    exact ⟨hcall.trans (kmalloc_spec hcall.evolves.sound hr₁ hstep) hr,
      hsame.trans (kmalloc_stacks hcall.evolves.sound hr₁ hstep)⟩

/-! ## The stack of a loaded program -/

/-- Segments go to the slots from the third on. -/
theorem mapSegment_stack {s : Segment} {i j : Nat} (h : Sound R k) (hr : k.cr3 ∈ R) (hl : Linked s)
    (hi : VMA_SEGMENT_START ≤ i) (hs : mapSegment t (k, i) s = some (k', j)) :
    VMA_SEGMENT_START ≤ j ∧ (k'.tasks t).vma VMA_KERNEL_STACK_IDX = (k.tasks t).vma VMA_KERNEL_STACK_IDX ∧
      ∀ a ∈ (k.tasks t).pages, a ∈ (k'.tasks t).pages := by
  rw [mapSegment] at hs
  split at hs
  · rename_i hn
    simp only [bind, Option.bind_eq_some_iff] at hs
    obtain ⟨k₂, hmap, k₃, hcopy, hs⟩ := hs
    obtain ⟨rfl, rfl⟩ := Prod.mk.inj (Option.some.inj hs)
    have h₁ := (evolves_modify h t fun task => setVma task i s.leastStart s.maxEnd).sound
    have hoff : ∀ a ∈ pagesFrom s.leastStart s.pageNeeded.toNat, OffWindow a :=
      fun a ha => offWindow_of_canonical hl hn (copyOnDisk_canonical hcopy) ha
    obtain ⟨hw, htaken, hvma⟩ := mapPages_spec h₁ hr hoff hmap
    obtain ⟨-, htasks⟩ := works_copyOnDisk hl hn hw hr (fun a ha => (htaken a ha).1) hcopy
    have hne : VMA_KERNEL_STACK_IDX ≠ i := by
      rw [VMA_KERNEL_STACK_IDX]
      rw [VMA_SEGMENT_START] at hi
      omega
    refine ⟨by omega, ?_, fun a ha => ?_⟩
    · rw [htasks, hvma, modifyTask_self, setVma_scanned (by decide), if_neg hne]
    · rw [htasks]
      refine hw.kept a ?_
      rw [modifyTask_self, setVma_pages]
      exact ha
  · obtain ⟨rfl, rfl⟩ := Prod.mk.inj (Option.some.inj hs)
    exact ⟨hi, rfl, fun a ha => ha⟩

theorem loadImage_stack {image : Image} (h : Sound R k) (hr : k.cr3 ∈ R) (hok : ImageOk image)
    (hs : loadImage k t image = some k') :
    StackArea (k'.tasks t) ∧ Taken R k k' k.cr3 (stackOf (k'.tasks t)) := by
  simp only [loadImage, bind, Option.bind_eq_some_iff] at hs
  obtain ⟨⟨u, k₁⟩, hu, ⟨v, k₂⟩, hv, k₃, hmap, hs⟩ := hs
  have hconf₁ := ((confined_refl (t := t) h).alloc hr hu).1
  have hr₁ : k₁.cr3 ∈ R := hconf₁.cr3 ▸ hr
  obtain ⟨g, -, hvg, hlt, -⟩ := iVirtAlloc_page hconf₁.evolves.sound hr₁ hv
  obtain ⟨hw, -⟩ := works_setStacks (t := t) h hr hu hv
  have htaken : Evolves R R k k₂ ∧ Taken R k k₂ k.cr3 v := ⟨(hconf₁.alloc hr hv).1.evolves, (hconf₁.alloc hr hv).2⟩
  rw [mapExeFormat, Option.map_eq_some_iff] at hmap
  obtain ⟨⟨k₄, j⟩, hmap, rfl⟩ := hmap
  have hr₂ : (modifyTask k₂ t fun s => setStacks s u v).cr3 ∈ R := hw.cr3.symm ▸ hr
  have hloop := Transition.run_loop (P := fun _ r => Confined R t (modifyTask k₂ t fun s => setStacks s u v) r.1 ∧
    VMA_SEGMENT_START ≤ r.2 ∧ (r.1.tasks t).vma VMA_KERNEL_STACK_IDX = ⟨v, v + 4095⟩ ∧ v ∈ (r.1.tasks t).pages) _ ?_
    ⟨confined_refl hw.evolves.sound, le_refl _, by rw [modifyTask_self]; rfl,
      by rw [modifyTask_self]; exact List.mem_cons_self ..⟩ hmap
  · obtain ⟨hconf, -, hvma, hpage⟩ := hloop
    rw [Option.some.injEq] at hs
    rw [← hs, modifyTask_self]
    have hstack : stackOf (setRsp (k₄.tasks t)) = v := by
      rw [stackOf, setRsp, hvma]
    refine ⟨⟨⟨g, hlt, ?_⟩, rfl, ?_⟩, ?_⟩
    · rw [← hvg]
      exact hvma
    · rw [hstack]
      exact hpage
    · rw [hstack]
      have hev₂ : Evolves R R k₂ (modifyTask k₂ t fun s => setStacks s u v) :=
        evolves_modify htaken.1.sound t _
      have hev := hev₂.trans (hconf.evolves.trans (evolves_modify hconf.evolves.sound t setRsp))
      exact hev.taken htaken.1.free hr htaken.2
  · rintro done s rest ⟨k₅, i⟩ ⟨k₆, i'⟩ hsegments ⟨hconf, hi, hvma, hpage⟩ hstep
    have hl := hok.1 s (hsegments ▸ List.mem_append_right _ (List.mem_cons_self ..))
    obtain ⟨hi', hvma', hkept⟩ := mapSegment_stack hconf.evolves.sound (hconf.cr3 ▸ hr₂) hl hi hstep
    exact ⟨hconf.mapSegment hr₂ hl hstep, hi', hvma'.trans hvma, hkept v hpage⟩

theorem kexecvpe_stack {call : ExecCall} (h : Sound R k) (hr : k.cr3 ∈ R)
    (hok : ∀ image, call.image = some image → ImageOk image) (hs : kexecvpe k t call = some k') :
    call.image = none ∧ SameStacks (k.tasks t) (k'.tasks t) ∨
      StackArea (k'.tasks t) ∧ Taken R k k' k.cr3 (stackOf (k'.tasks t)) := by
  simp only [kexecvpe, bind, Option.bind_eq_some_iff] at hs
  obtain ⟨k₁, hcopy, hs⟩ := hs
  have hcall := copyStrings_spec call.sizes h hr hcopy
  cases himage : call.image with
  | none =>
    rw [himage, Option.some.injEq] at hs
    rw [← hs]
    exact Or.inl ⟨rfl, copyStrings_stacks h hr hcopy⟩
  | some image =>
    rw [himage] at hs
    obtain ⟨harea, g, hg, htr, hgc⟩ := loadImage_stack hcall.evolves.sound (hcall.cr3.symm ▸ hr) (hok image himage) hs
    rw [hcall.cr3] at htr
    exact Or.inr ⟨harea, g, hcall.evolves.free hg, htr, hgc⟩

/-! ## What a step preserves -/

/-- The area of the kernel stack lists the page of the stack. -/
theorem StackArea.covered {s : TaskMem} (h : StackArea s) : Covered s (stackOf s) := by
  obtain ⟨g, hg, heq⟩ := h.area
  have hstack : stackOf s = window g := by rw [stackOf, heq]
  rw [hstack]
  exact covered_slot (by decide) hg heq

/-- Neither the tasks nor the trees change. -/
theorem StacksInv.same_tasks (hst : StacksInv k) (htasks : k'.tasks = k.tasks) (hev : Evolves (liveRoots k) (liveRoots k) k k')
    (hw : ∀ r ∈ liveRoots k, ∀ a, walk k' r a = walk k r a) : StacksInv k' := by
  have hroots : liveRoots k' = liveRoots k := liveRoots_congr fun t => by rw [htasks]; exact ⟨rfl, rfl⟩
  have hlive : ∀ s, Live k' s ↔ Live k s := fun s => by rw [Live, Live, htasks]
  have hroot : ∀ s, root k' s = root k s := fun s => by rw [root, root, htasks]
  refine ⟨?_, ?_, ?_⟩
  · intro s hs
    have hs' := (hlive s).mp hs
    rw [hroots, hroot, pagesOf, htasks]
    exact (hst.frames s hs').of_walks (mem_liveRoots hs') hev (hw _ (mem_liveRoots hs'))
  · intro s hs
    rw [htasks]
    exact hst.areas s ((hlive s).mp hs)
  · rintro s hs ⟨f, u, hf, hu, hus, b, hb, htr⟩
    have hs' := (hlive s).mp hs
    have hu' := (hlive u).mp hu
    rw [htasks, hroot, translate_congr (hw _ (mem_liveRoots hs') _)] at hf
    rw [hroot, translate_congr (hw _ (mem_liveRoots hu') _)] at htr
    rw [htasks] at hb
    exact hst.own s hs' ⟨f, u, hf, hu', hus, b, hb, htr⟩

/-- A page that a task has to itself does not move to the frame of another task's page. -/
theorem own_kept {u : Slot} {b : Word} (h : KInv k) (hev : Evolves (liveRoots k) R k k') (hl : Live k t)
    (ha : a ∈ (k.tasks t).pages) (hno : ¬ Shared k t a) (hf : translate k' (root k t) a = some f)
    (hu : Live k u) (hut : u ≠ t) (hb : b ∈ (k.tasks u).pages) : translate k (root k u) b ≠ some f := by
  intro htr
  obtain ⟨f₀, hf₀, hfc₀⟩ := h.data t hl a ha
  obtain ⟨g, hg, -, hor⟩ := hev.frames _ (mem_liveRoots hl) a f₀ hf₀ hfc₀
  obtain rfl : g = f := Option.some.inj (hg.symm.trans hf)
  rcases hor with rfl | hfree
  · exact hno ⟨g, u, hf₀, hu, hut, b, hb, htr⟩
  · obtain ⟨f', hf', hfc⟩ := h.data u hu b hb
    obtain rfl : f' = g := Option.some.inj (hf'.symm.trans htr)
    exact hfc (Or.inl hfree)

section

variable (h : KInv k) (hst : StacksInv k) (ht : k.currentTask = some t)

include h hst ht

/-- A call that works on the fields of the running task. -/
theorem StacksInv.works (hworks : Works (liveRoots k) t k k') (hconf : Confined (liveRoots k) t k k')
    (hstack : SameStacks (k.tasks t) (k'.tasks t) ∨
      StackArea (k'.tasks t) ∧ Taken (liveRoots k) k k' k.cr3 (stackOf (k'.tasks t))) : StacksInv k' := by
  obtain ⟨t', ht', hl, hvirt⟩ := h.current
  obtain rfl : t = t' := Option.some.inj (ht.symm.trans ht')
  have hcr3 : k.cr3 = root k t := by rw [Kernel.cr3, hvirt]; rfl
  have hfields := Works.fields hworks
  have hroots : liveRoots k' = liveRoots k := liveRoots_congr hfields
  have hlive : ∀ s, Live k' s ↔ Live k s := fun s => by rw [Live, Live, (hfields s).1]
  have hroot : ∀ s, root k' s = root k s := fun s => by rw [root, root, (hfields s).2]
  have hwalk : ∀ s, Live k s → s ≠ t → ∀ b, walk k' (root k s) b = walk k (root k s) b := by
    intro s hs hst' b
    refine hconf.walks _ (mem_liveRoots hs) (fun he => hst' ?_) b
    exact h.distinct s t hs hl (he.trans hcr3)
  refine ⟨?_, ?_, ?_⟩
  · intro s hs
    have hs' := (hlive s).mp hs
    rw [hroots, hroot]
    by_cases hst' : s = t
    · subst hst'
      rw [← hcr3]
      exact hconf.frames (hcr3 ▸ hst.frames s hl)
    · rw [pagesOf, hworks.others s hst']
      exact (hst.frames s hs').of_walks (mem_liveRoots hs') hconf.evolves (hwalk s hs' hst')
  · intro s hs
    have hs' := (hlive s).mp hs
    by_cases hst' : s = t
    · subst hst'
      rcases hstack with hsame | ⟨harea, -⟩
      · exact hsame.stackArea (hst.areas s hl) hworks.kept
      · exact harea
    · rw [hworks.others s hst']
      exact hst.areas s hs'
  · intro s hs
    have hs' := (hlive s).mp hs
    by_cases hst' : s = t
    · subst hst'
      rintro ⟨f, u, hf, hu, hus, b, hb, htr⟩
      have hu' := (hlive u).mp hu
      rw [hworks.others u hus] at hb
      rw [hroot, translate_congr (hwalk u hu' hus b)] at htr
      rw [hroot] at hf
      rcases hstack with hsame | ⟨-, g, hg, hgtr, -⟩
      · have hold := hst.areas s hl
        have hpage : stackOf (k'.tasks s) = stackOf (k.tasks s) := by
          rw [stackOf, hsame.2 hold.startAddr_ne_zero, stackOf]
        rw [hpage] at hf
        exact own_kept h hconf.evolves hl hold.page (hst.own s hl) hf hu' hus hb htr
      · rw [← hcr3, hgtr, Option.some.injEq] at hf
        exact (hst.frames u hu').ne_free hg b hb (hf ▸ htr)
    · rw [hworks.others s hst']
      obtain ⟨f, ha⟩ := alone_of_not_shared h hs' (hst.areas s hs').page (hst.own s hs')
      exact Alone.not_shared (ha.works h ht (Ne.symm hst') hworks hconf).1

theorem StacksInv.forked {env : List (BitVec 32)} {regs : Word} (h' : KInv k')
    (hf : Forked (liveRoots k) t c k k') (hconf : ForkConfined (liveRoots k) t c env regs k k') : StacksInv k' := by
  obtain ⟨t', ht', hl, hvirt⟩ := h.current
  obtain rfl : t = t' := Option.some.inj (ht.symm.trans ht')
  have hcr3 : k.cr3 = root k t := by rw [Kernel.cr3, hvirt]; rfl
  have htc : t ≠ c := by
    rintro rfl
    exact hl hf.free
  have hlive := Forked.live_iff hl hf
  have hroots := Forked.liveRoots_eq hl hf
  have hroot : ∀ s, Live k s → root k' s = root k s := fun s hs => by rw [root, root, Forked.pml4e_eq hl hf hs]
  have hothers : ∀ s, Live k s → s ≠ t → k'.tasks s = k.tasks s := by
    intro s hs hst'
    refine hf.others s hst' ?_
    rintro rfl
    exact hs hf.free
  have hwalk : ∀ s, Live k s → ∀ b, walk k' (root k s) b = walk k (root k s) b :=
    fun s hs b => hconf.walks _ (mem_liveRoots hs) b
  -- the parent's stack is the one it was, and the child's has the same address
  obtain ⟨k₁, hcopy, hpt⟩ := hconf.parent
  have hsame : SameStacks (k.tasks t) (k'.tasks t) := by
    rw [hpt]
    exact copyStrings_stacks h.sound (hcr3 ▸ mem_liveRoots hl) hcopy
  have hparent : StackArea (k'.tasks t) := hsame.stackArea (hst.areas t hl) hf.kept
  have hvma : (k'.tasks c).vma VMA_KERNEL_STACK_IDX = (k'.tasks t).vma VMA_KERNEL_STACK_IDX :=
    hconf.vma _ (by decide) hparent.startAddr_ne_zero
  have hchild : StackArea (k'.tasks c) := by
    refine ⟨by rw [hvma]; exact hparent.area, by rw [hconf.tssRsp, hvma]; exact hparent.rsp, ?_⟩
    rw [stackOf, hvma, hf.pages]
    exact hparent.page
  have hframes : OnFrames (liveRoots k') k.cr3 (pagesOf k' t) k' := by
    rw [hroots]
    exact hconf.frames (hcr3 ▸ hst.frames t hl)
  -- what other tasks have lies on frames that were not free
  have hold : ∀ u, Live k u → u ≠ t → ∀ b ∈ (k'.tasks u).pages, ∀ f, translate k' (root k' u) b = some f →
      b ∈ (k.tasks u).pages ∧ translate k (root k u) b = some f ∧ f ∉ core (liveRoots k) k := by
    intro u hu hut b hb f htr
    rw [hothers u hu hut] at hb
    rw [hroot u hu, translate_congr (hwalk u hu b)] at htr
    obtain ⟨f', hf', hfc⟩ := h.data u hu b hb
    obtain rfl : f' = f := Option.some.inj (hf'.symm.trans htr)
    exact ⟨hb, htr, hfc⟩
  refine ⟨?_, ?_, ?_⟩
  · intro s hs
    rcases (hlive s).mp hs with rfl | hs'
    · refine ⟨fun a ha => h'.data s hs a ha, fun a ha b hb he => ?_⟩
      rw [pagesOf, hf.pages] at ha hb
      have hshared : ∀ x, ¬ Covered (k'.tasks t) x → translate k' (root k' s) x = translate k' k.cr3 x :=
        fun x hx => hf.shared x hx
      by_cases hca : Covered (k'.tasks t) a <;> by_cases hcb : Covered (k'.tasks t) b
      · exact hconf.apart a ha b hb hca hcb he
      · obtain ⟨g, -, hg, hno⟩ := hconf.copied a ha hca
        rw [hg, hshared b hcb] at he
        exact absurd he.symm (hno b hb)
      · obtain ⟨g, -, hg, hno⟩ := hconf.copied b hb hcb
        rw [hg, hshared a hca] at he
        exact absurd he (hno a ha)
      · rw [hshared a hca, hshared b hcb] at he
        exact hframes.distinct a ha b hb he
    · by_cases hst' : s = t
      · subst hst'
        rw [hroot s hs', ← hcr3]
        exact hframes
      · refine ⟨fun a ha => h'.data s hs a ha, fun a ha b hb he => ?_⟩
        rw [pagesOf, hothers s hs' hst'] at ha hb
        rw [hroot s hs', translate_congr (hwalk s hs' a), translate_congr (hwalk s hs' b)] at he
        exact (hst.frames s hs').distinct a ha b hb he
  · intro s hs
    rcases (hlive s).mp hs with rfl | hs'
    · exact hchild
    · by_cases hst' : s = t
      · subst hst'
        exact hparent
      · rw [hothers s hs' hst']
        exact hst.areas s hs'
  · intro s hs
    rcases (hlive s).mp hs with rfl | hs'
    · -- the child's stack is a copy on a frame that was free
      have hpage : stackOf (k'.tasks s) = stackOf (k'.tasks t) := by rw [stackOf, hvma, stackOf]
      obtain ⟨g, hgfree, hg, hno⟩ := hconf.copied _ hparent.page hparent.covered
      rintro ⟨f, u, hfs, hu, hus, b, hb, htr⟩
      rw [hpage, hg, Option.some.injEq] at hfs
      subst hfs
      have hu' := ((hlive u).mp hu).resolve_left hus
      by_cases hut : u = t
      · subst hut
        rw [hroot u hu', ← hcr3] at htr
        exact hno b hb htr
      · exact (hold u hu' hut b hb g htr).2.2 (Or.inl hgfree)
    · by_cases hst' : s = t
      · subst hst'
        rintro ⟨f, u, hfs, hu, hus, b, hb, htr⟩
        rw [hroot s hs', ← hcr3] at hfs
        rcases (hlive u).mp hu with rfl | hu'
        · rw [hf.pages] at hb
          by_cases hcov : Covered (k'.tasks s) b
          · obtain ⟨g, -, hg, hno⟩ := hconf.copied b hb hcov
            obtain rfl : g = f := Option.some.inj (hg.symm.trans htr)
            exact hno _ hparent.page hfs
          · rw [root, hf.shared b hcov] at htr
            have hv := hframes.distinct b hb _ hparent.page (htr.trans hfs.symm)
            rw [Covered, hv] at hcov
            exact hcov hparent.covered
        · obtain ⟨hbu, htru, -⟩ := hold u hu' hus b hb f htr
          have hold' := hst.areas s hl
          have hpage : stackOf (k'.tasks s) = stackOf (k.tasks s) := by
            rw [stackOf, hsame.2 hold'.startAddr_ne_zero, stackOf]
          rw [hcr3, hpage] at hfs
          exact own_kept h hf.evolves hl hold'.page (hst.own s hl) hfs hu' hus hbu htru
      · rw [hothers s hs' hst']
        obtain ⟨f, ha⟩ := alone_of_not_shared h hs' (hst.areas s hs').page (hst.own s hs')
        exact Alone.not_shared (ha.forked h ht (Ne.symm hst') hf hconf).1

end

theorem step_stacks {op : Op} (h : KInv k) (hst : StacksInv k) (hm : Meets k op) (hs : step k op = some k') :
    StacksInv k' := by
  obtain ⟨t, ht, hl, hvirt⟩ := h.current
  have hcr3 : k.cr3 = root k t := by rw [Kernel.cr3, hvirt]; rfl
  have hr : k.cr3 ∈ liveRoots k := hcr3 ▸ mem_liveRoots hl
  have hconf : Confined (liveRoots k) t k k := confined_refl h.sound
  have h' := (kinv_step h hm hs).1
  have hs₀ := hs
  rw [step, ht, Option.bind_some] at hs
  cases op with
  | alloc =>
    simp only [Option.map_eq_some_iff] at hs
    obtain ⟨⟨v, k₁⟩, halloc, rfl⟩ := hs
    obtain ⟨g, -, -, -, hfresh, -⟩ := iVirtAlloc_page h.sound hr halloc
    refine hst.works h ht (works_fresh h.sound hfresh) (hconf.fresh hr hfresh) (Or.inl ?_)
    rw [hfresh.same.tasks]
    exact ⟨rfl, fun _ => rfl⟩
  | brk =>
    simp only [Option.map_eq_some_iff] at hs
    obtain ⟨⟨v, k₁⟩, hbrk, rfl⟩ := hs
    exact hst.works h ht (brk_spec h.sound hr hbrk).1.toWorks (hconf.brk hr hbrk)
      (Or.inl (brk_stacks h.sound hr hbrk))
  | kmalloc size =>
    simp only [Option.map_eq_some_iff] at hs
    obtain ⟨⟨v, k₁⟩, hmalloc, rfl⟩ := hs
    exact hst.works h ht (kmalloc_spec h.sound hr hmalloc).toWorks (hconf.kmalloc hr hmalloc)
      (Or.inl (kmalloc_stacks h.sound hr hmalloc))
  | exec call filename =>
    have hexec := (kexecvpe_front hm.2 k t).symm.trans hs
    exact hst.works h ht (kexecvpe_spec h.sound hr hm.1 hexec).1 (hconf.kexecvpe hr hm.1 hexec)
      ((kexecvpe_stack h.sound hr hm.1 hexec).imp_left And.right)
  | fork env regs =>
    obtain ⟨t', c, ht', -, -, -, hf, hfork, -⟩ := fork_confined h ((step_fork hm.2 k regs).symm.trans hs₀)
    obtain rfl : t = t' := Option.some.inj (ht.symm.trans ht')
    exact hst.forked h ht h' hf hfork
  | store v b =>
    obtain ⟨⟨t', ht', p, hp, hv⟩, -⟩ := hm
    obtain rfl : t = t' := Option.some.inj (ht.symm.trans ht')
    have hd : Data (liveRoots k) k k.cr3 v := by
      obtain ⟨g, hg, hgc⟩ := h.data t hl p hp
      exact ⟨g, hcr3 ▸ (translate_page hv).trans hg, hgc⟩
    obtain ⟨-, -, -, -, heq⟩ := storeByte_some hs
    exact hst.same_tasks (by rw [heq]) (evolves_store h.sound hd hs) (store_walks hd hs)
  | switch u =>
    simp only [switchTask] at hs
    split at hs
    · rw [Option.some.injEq] at hs
      subst hs
      exact hst.same_tasks rfl (h.sound.evolves_same rfl rfl) (fun _ _ _ => rfl)
    · cases hs

/-! ## Runs from the boot -/

theorem tasking_pages {stack rsp : Word} (h : Sound {k.cr3} k) (htasks : k.tasks = fun _ => TaskMem.zero)
    (hs : initializeTasking k stack rsp = some k') (ht : k'.currentTask = some t) : ∃ v, (k'.tasks t).pages = [v] := by
  simp only [initializeTasking, bind, Option.bind_eq_some_iff, Option.some.injEq] at hs
  obtain ⟨t', -, ⟨v, k₁⟩, halloc, rfl⟩ := hs
  have hev : Evolves {k.cr3} {k.cr3} k (enterTask (setLimits k) t') := h.evolves_same rfl rfl
  obtain ⟨-, -, -, -, hfresh, -⟩ := iVirtAlloc_page hev.sound rfl halloc
  have hsame := hfresh.same
  obtain rfl : t' = t := Option.some.inj (hsame.currentTask.symm.trans ht)
  refine ⟨v, ?_⟩
  rw [modifyTask_self, hsame.tasks, enterTask]
  simp only [modifyTask_self, setBootStacks, setLimits, htasks]
  rfl

/-- The first task begins with one page, and there is no other task. -/
theorem boot_stacks {start : Start} (h : StartOk start) (hs : boot start = some k) : StacksInv k := by
  have hk := boot_kinv h hs
  simp only [boot, bind, Option.bind_eq_some_iff] at hs
  obtain ⟨k₁, htables, k₂, htasking, hshell⟩ := hs
  obtain ⟨hsound, htasks, -, -⟩ := initTables_spec h htables
  obtain ⟨t, hfirst⟩ := initializeTasking_spec hsound htasks htasking
  obtain ⟨v, hpages⟩ := tasking_pages hsound htasks htasking hfirst.current
  rw [createShell, hfirst.current, Option.bind_some, Option.bind_eq_some_iff] at hshell
  obtain ⟨k₃, hcopy, hexec⟩ := hshell
  have himage : ∀ image, (shellCall start.initSh).image = some image → ImageOk image := by
    intro image hi
    rw [← Option.some.inj hi]
    exact h.image
  have hcall := copyStrings_spec shellSizes hfirst.sound rfl hcopy
  obtain ⟨hworks, -⟩ := kexecvpe_spec hcall.evolves.sound hcall.cr3 himage hexec
  have hrunning := (hfirst.works hcall.toWorks).works (by rw [hcall.cr3]; exact hworks)
  have hconf := ((confined_refl (t := t) hfirst.sound).copyStrings rfl hcopy).kexecvpe rfl himage hexec
  have hroots : liveRoots k = {k₂.cr3} := by rw [hrunning.liveRoots_eq, hconf.cr3]
  have hroot : root k t = k₂.cr3 := by
    rw [root, hrunning.tables, ← hconf.cr3]
    rfl
  have hbegin : OnFrames {k₂.cr3} k₂.cr3 (pagesOf k₂ t) k₂ := by
    refine ⟨hfirst.data, fun a ha b hb _ => ?_⟩
    rw [pagesOf, hpages] at ha hb
    rw [List.mem_singleton.mp ha, List.mem_singleton.mp hb]
  have harea : StackArea (k.tasks t) := by
    rcases kexecvpe_stack hcall.evolves.sound hcall.cr3 himage hexec with ⟨hnone, -⟩ | ⟨harea, -⟩
    · cases hnone
    · exact harea
  refine ⟨?_, ?_, ?_⟩
  · intro s hs
    rw [hrunning.only hs, hroots, hroot]
    exact hconf.frames hbegin
  · intro s hs
    rw [hrunning.only hs]
    exact harea
  · rintro s hs ⟨f, u, -, hu, hus, -⟩
    exact hus ((hrunning.only hu).trans (hrunning.only hs).symm)

theorem run_stacks {start : Start} {ops : List Op} (h : StartOk start) (hb : boot start = some k₀)
    (hm : Transition.Along step Meets k₀ ops) (hr : Transition.run step k₀ ops = some k) : KInv k ∧ StacksInv k := by
  refine Transition.run_invariant step (C := Meets) (P := fun k => KInv k ∧ StacksInv k) ?_
    ⟨boot_kinv h hb, boot_stacks h hb⟩ hm hr
  rintro k₁ op k₂ hm ⟨h₁, hst₁⟩ hs
  exact ⟨(kinv_step h₁ hm hs).1, step_stacks h₁ hst₁ hm hs⟩

end KernelStacks
