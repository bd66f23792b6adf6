import DeepOS.BootPages
import DeepOS.LoadedBytes
import DeepOS.VmaTable

/-!
# Booting with enough frames

With as many free frames as the boot takes, `init_kernel` reaches the start of `init_sh`.
-/
namespace BootRun

open PhyMem TaskTable PageTable PageMap VirtAlloc Process AddressSpace TaskPages LoadImage
  KernelInvariant Boot BootTables BootPages Lowest Supply
open BootMap (kerPhysfree)
open TablePaths (tablesOf)
open MemLimit (descend_counts iVirtAlloc_counts Granted NeedsPage)
open LoadedBytes (Placed framesNeeded view_start)

variable {R : Set Nat} {t : Slot} {c : Start} {k k' : Kernel}

/-! ## The calls of the boot -/

/-- The tables take no other frames than those for the pages they map. -/
theorem identity_isSome (h : StartOk c) (h0 : 0 ∉ freeOf c) (hsup : (tablesOfStart c).card ≤ (freeOf c).ncard) :
    ∃ pml4e k₁ k₂, mapKernel c.kernel c.physbase (kerPhysfree c.physfree) = some (pml4e, k₁) ∧
      identityMapping pml4e (vgaOf c) c.bootMap.maxPhys k₁ = some k₂ ∧ Sound {k₂.cr3} k₂ ∧
      (freeOf c).ncard ≤ supply k₂ + (tablesOfStart c).card := by
  have husable : ∀ f ∈ freeOf c, freeBelow c.bootMap.memMap f < (tablesOfStart c).card → Usable c f := by
    intro f hf _
    refine ⟨h.free_low hf, fun i => ?_⟩
    rw [h.zero f hf]
    exact (by decide : isPresent 0 = false)
  obtain ⟨pml4e, k₁, k₂, D, kt, hkernel, hident, hm⟩ := identity_mapped c h0 hsup husable
  obtain ⟨hsound, -⟩ := identityMapping_spec h hkernel hident
  refine ⟨pml4e, k₁, k₂, hkernel, hident, hsound, ?_⟩
  have hD : D ⊆ freeFrames k₂.memMap := by
    rw [hm.cut.free]
    exact Set.subset_union_right
  have hle := Set.ncard_le_ncard hD (freeFrames_finite _)
  have hcount := hm.count
  rw [supply]
  omega

theorem initTables_isSome (h : StartOk c) (h0 : 0 ∉ freeOf c)
    (hsup : (tablesOfStart c).card + 4 ≤ (freeOf c).ncard) :
    ∃ k, initTables c = some k ∧ (freeOf c).ncard ≤ supply k + (tablesOfStart c).card + 4 := by
  obtain ⟨pml4e, k₁, k₂, hkernel, hident, hsound, hk₂⟩ := identity_isSome h h0 (by omega)
  obtain ⟨g, hg, halloc⟩ := pageAlloc_isSome hsound (by omega)
  have hone := supply_unset hg
  have hsound' := (hsound.evolves_fresh (fresh_unset k₂ g)).sound
  obtain ⟨k₃, hmap, hk₃⟩ := map_isSome (stackOf c) (frameAddr g) k₂.currentTask hsound' rfl (by omega)
  have hmap' : mapProcess { k₂ with memMap := mmapUnset k₂.memMap g } (stackOf c) (frameAddr g) = some k₃ := hmap
  refine ⟨k₃, ?_, by omega⟩
  rw [vgaOf] at hident
  rw [stackOf] at hmap'
  simp only [initTables, bind, hkernel, hident, Option.bind_some, setupKernelStack, halloc, hmap']

theorem initializeTasking_isSome (stack rsp : Word) (h : Sound {k.cr3} k)
    (htasks : k.tasks = fun _ => TaskMem.zero) (hsup : 2 ≤ supply k) :
    ∃ k', initializeTasking k stack rsp = some k' ∧ supply k ≤ supply k' + 2 := by
  have hfirst : ∃ t, Process.getNextFreeTask (setLimits k) = some t := by
    refine Option.isSome_iff_exists.mp (List.find?_isSome.mpr ⟨0, List.mem_finRange 0, ?_⟩)
    rw [setLimits, htasks]
    rfl
  obtain ⟨t, ht⟩ := hfirst
  have hev : Evolves {k.cr3} {k.cr3} k (enterTask (setLimits k) t) := h.evolves_same rfl rfl
  obtain ⟨v, k₁, halloc, hk₁⟩ := iVirtAlloc_isSome (k := enterTask (setLimits k) t) hev.sound rfl hsup
  refine ⟨modifyTask k₁ t fun s => setBootStacks s stack v rsp, ?_, hk₁⟩
  simp only [initializeTasking, bind, ht, halloc, Option.bind_some]

/-- Loading takes four frames for the stacks and up to four for each page. -/
theorem loadImage_isSome {image : Image} (h : Sound R k) (hr : k.cr3 ∈ R)
    (hs : ∀ s ∈ image.segments, Placed s) (hsup : framesNeeded image.segments + 4 ≤ supply k) :
    ∃ k', loadImage k t image = some k' ∧ supply k ≤ supply k' + framesNeeded image.segments + 4 := by
  obtain ⟨u, k₁, hu, hk₁⟩ := iVirtAlloc_isSome h hr (by omega)
  have hw₁ : Works R t k k₁ := by
    obtain ⟨g, -, -, -, hfresh, -⟩ := iVirtAlloc_page h hr hu
    exact works_fresh h hfresh
  have hr₁ : k₁.cr3 ∈ R := hw₁.cr3.symm ▸ hr
  obtain ⟨v, k₂, hv, hk₂⟩ := iVirtAlloc_isSome hw₁.evolves.sound hr₁ (by omega)
  have hw₂ : Works R t k₁ k₂ := by
    obtain ⟨g, -, -, -, hfresh, -⟩ := iVirtAlloc_page hw₁.evolves.sound hr₁ hv
    exact works_fresh hw₁.evolves.sound hfresh
  have hsound₃ := (evolves_modify hw₂.evolves.sound t fun s => setStacks s u v).sound
  have hr₂ : k₂.cr3 ∈ R := hw₂.cr3.symm ▸ hr₁
  obtain ⟨r, hrun, -, hk₃⟩ := (view_start hsound₃).mapSegments (t := t) hr₂ image.segments hs
    VMA_SEGMENT_START (by rw [supply_modifyTask]; omega)
  rw [supply_modifyTask] at hk₃
  refine ⟨modifyTask r.1 t setRsp, ?_, ?_⟩
  · simp only [loadImage, bind, hu, hv, Option.bind_some, mapExeFormat, hrun, Option.map_some]
  · rw [supply_modifyTask]
    omega

theorem kexecvpe_isSome {call : ExecCall} {image : Image} (h : Sound R k) (hr : k.cr3 ∈ R)
    (himage : call.image = some image) (hs : ∀ s ∈ image.segments, Placed s)
    (hsup : 2 * call.sizes.length + framesNeeded image.segments + 4 ≤ supply k) :
    ∃ k', kexecvpe k t call = some k' ∧
      supply k ≤ supply k' + 2 * call.sizes.length + framesNeeded image.segments + 4 := by
  obtain ⟨k₁, hcopy, hk₁⟩ := copyStrings_isSome (t := t) call.sizes h hr (by omega)
  have hcall := copyStrings_spec call.sizes h hr hcopy
  obtain ⟨k₂, hload, hk₂⟩ := loadImage_isSome (t := t) hcall.evolves.sound (hcall.cr3.symm ▸ hr) hs (by omega)
  refine ⟨k₂, ?_, by omega⟩
  simp only [kexecvpe, bind, hcopy, himage, Option.bind_some, hload]

/-! ## What is counted -/

structure Uncounted (k k' : Kernel) : Prop where
  usage : k'.currentMemUsage = k.currentMemUsage
  current : k'.currentTask = k.currentTask

theorem Uncounted.trans {k'' : Kernel} (h : Uncounted k k') (h' : Uncounted k' k'') : Uncounted k k'' :=
  ⟨h'.usage.trans h.usage, h'.current.trans h.current⟩

theorem pageAlloc_uncounted {p : Word} (h : k.pageAlloc = some (p, k')) : Uncounted k k' := by
  obtain ⟨g, -, -, rfl⟩ := pageAlloc_some h
  exact ⟨rfl, rfl⟩

theorem newTable_uncounted {table p : Word} {i : Fin 512} (h : newTable k table i = some (p, k')) :
    Uncounted k k' := by
  rw [newTable, Option.map_eq_some_iff] at h
  obtain ⟨⟨p₁, k₁⟩, halloc, hres⟩ := h
  obtain ⟨-, rfl⟩ := Prod.mk.inj hres
  have h₁ := pageAlloc_uncounted halloc
  exact ⟨h₁.usage, h₁.current⟩

theorem bootTable_uncounted {table p : Word} {i : Fin 512} (h : bootTable k table i = some (p, k')) :
    Uncounted k k' := by
  rw [bootTable] at h
  split at h
  · obtain ⟨-, rfl⟩ := Prod.mk.inj (Option.some.inj h)
    exact ⟨rfl, rfl⟩
  · exact newTable_uncounted h

theorem map_uncounted {pml4e v p : Word} (h : Boot.map pml4e k v p = some k') : Uncounted k k' := by
  simp only [Boot.map, bind, Option.bind_eq_some_iff, Option.some.injEq] at h
  obtain ⟨⟨t₁, k₁⟩, h₁, ⟨t₂, k₂⟩, h₂, ⟨t₃, k₃⟩, h₃, rfl⟩ := h
  have hlast := (bootTable_uncounted h₁).trans ((bootTable_uncounted h₂).trans (bootTable_uncounted h₃))
  exact ⟨hlast.usage, hlast.current⟩

theorem maps_uncounted {pml4e : Word} {v p : Nat → Word} {pages : List Nat}
    (h : Transition.run (fun k i => Boot.map pml4e k (v i) (p i)) k pages = some k') : Uncounted k k' := by
  refine Transition.run_loop (P := fun _ k₁ => Uncounted k k₁) _ ?_ ⟨rfl, rfl⟩ h
  intro done i rest k₁ k₂ _ hk₁ hstep
  exact hk₁.trans (map_uncounted hstep)

theorem mapKernel_uncounted {pml4e physbase physfree : Word}
    (h : mapKernel k physbase physfree = some (pml4e, k')) : Uncounted k k' := by
  have hloop : ∀ (pt : Word) (pages : List Nat) (k : Kernel),
      Uncounted k (pages.foldl (mapKernelPage pt physbase) k) := by
    intro pt pages
    induction pages with
    | nil => exact fun _ => ⟨rfl, rfl⟩
    | cons i pages ih =>
      intro k
      have hfirst : Uncounted k (mapKernelPage pt physbase k i) := ⟨rfl, rfl⟩
      exact hfirst.trans (ih _)
  simp only [mapKernel, bind, Option.bind_eq_some_iff, Option.some.injEq, Prod.mk.injEq] at h
  obtain ⟨⟨p, k₁⟩, h₁, ⟨t₂, k₂⟩, h₂, ⟨t₃, k₃⟩, h₃, ⟨t₄, k₄⟩, h₄, -, rfl⟩ := h
  have htables := (newTable_uncounted h₂).trans ((newTable_uncounted h₃).trans (newTable_uncounted h₄))
  exact (pageAlloc_uncounted h₁).trans (htables.trans (hloop _ _ _))

/-- Before the first task runs nothing is counted. -/
theorem initTables_uncounted (h : initTables c = some k) :
    k.currentMemUsage = (fun _ => 0) ∧ k.currentTask = none := by
  simp only [initTables, bind, Option.bind_eq_some_iff, setupKernelStack] at h
  obtain ⟨⟨pml4e, k₁⟩, hkernel, k₂, hident, ⟨p, k₃⟩, halloc, hmap⟩ := h
  obtain ⟨k₄, k₅, hwindow, hvga, rfl⟩ := identityMapping_stages.mp hident
  have hmaps := (mapKernel_uncounted hkernel).trans ((maps_uncounted hwindow).trans (maps_uncounted hvga))
  have hbefore := pageAlloc_uncounted halloc
  have hcurrent : k₃.currentTask = none := hbefore.current.trans hmaps.current
  have husage : k₃.currentMemUsage = fun _ => 0 := hbefore.usage.trans hmaps.usage
  rw [mapProcess, hcurrent, mapProcessSpecific_eq, Option.map_eq_some_iff] at hmap
  obtain ⟨⟨table, k₆⟩, hd, rfl⟩ := hmap
  refine ⟨funext fun t => ?_, ?_⟩
  · have hcounts := (descend_counts (t := t) _ hd).usage
    rw [show (charge k₃ none).currentMemUsage = k₃.currentMemUsage from rfl, husage] at hcounts
    exact hcounts
  · exact (descend_counts (t := 0) _ hd).same.currentTask.trans hcurrent

/-- The kernel stack of the first task counts two pages of 4096. -/
theorem initializeTasking_usage {stack rsp : Word} (husage : k.currentMemUsage = fun _ => 0)
    (h : initializeTasking k stack rsp = some k') : ∃ t, k'.currentTask = some t ∧
      k'.currentMemUsage t = 8192 ∧ (k'.tasks t).memLimit = DEFAULT_MEM_LIMIT ∧
      (k'.tasks t).curPtr = (k.tasks t).curPtr := by
  simp only [initializeTasking, bind, Option.bind_eq_some_iff, Option.some.injEq] at h
  obtain ⟨t, -, ⟨v, k₁⟩, halloc, rfl⟩ := h
  have hcounts := iVirtAlloc_counts (t := t) rfl halloc
  have htask : k₁.tasks t = (enterTask (setLimits k) t).tasks t := by rw [hcounts.same.tasks]
  refine ⟨t, hcounts.same.currentTask, ?_, ?_, ?_⟩
  · have hbefore : (enterTask (setLimits k) t).currentMemUsage t = 0 := congrFun husage t
    exact hcounts.usage.trans (by rw [hbefore]; rfl)
  · rw [modifyTask_self, setBootStacks, htask, enterTask]
    dsimp only
    rw [modifyTask_self]
    rfl
  · rw [modifyTask_self, setBootStacks, htask, enterTask]
    dsimp only
    rw [modifyTask_self]
    rfl

/-! ## The whole boot -/

structure Stages (c : Start) (t : Slot) (k₁ k₂ k₃ k : Kernel) : Prop where
  tables : initTables c = some k₁
  tasking : initializeTasking k₁ c.stack c.rsp = some k₂
  current : k₂.currentTask = some t
  strings : copyStrings k₂ t shellSizes = some k₃
  exec : kexecvpe k₃ t (shellCall c.initSh) = some k

theorem Stages.boot {k₁ k₂ k₃ : Kernel} (h : Stages c t k₁ k₂ k₃ k) : boot c = some k := by
  simp only [Boot.boot, bind, h.tables, h.tasking, createShell, h.current, h.strings, h.exec, Option.bind_some]

/-- Besides the tables: four frames for the stack of the kernel, two for that of the first
task, twelve for six strings, four for the stacks of the program, and its pages. -/
def bootFrames (c : Start) : Nat := (tablesOfStart c).card + 22 + framesNeeded c.initSh.segments

theorem boot_isSome (h : StartOk c) (h0 : 0 ∉ freeOf c) (hs : ∀ s ∈ c.initSh.segments, Placed s)
    (hsup : bootFrames c ≤ (freeOf c).ncard) :
    ∃ t k₁ k₂ k₃ k, Stages c t k₁ k₂ k₃ k ∧ (freeOf c).ncard ≤ supply k + bootFrames c := by
  rw [bootFrames] at hsup ⊢
  obtain ⟨k₁, htables, hk₁⟩ := initTables_isSome h h0 (by omega)
  obtain ⟨hsound, htasks, -, -⟩ := initTables_spec h htables
  obtain ⟨k₂, htasking, hk₂⟩ := initializeTasking_isSome c.stack c.rsp hsound htasks (by omega)
  obtain ⟨t, hfirst⟩ := initializeTasking_spec hsound htasks htasking
  have hlen : shellSizes.length = 4 := rfl
  obtain ⟨k₃, hstrings, hk₃⟩ := copyStrings_isSome (t := t) shellSizes hfirst.sound rfl (by omega)
  have hcall := copyStrings_spec shellSizes hfirst.sound rfl hstrings
  have hsizes : (shellCall c.initSh).sizes.length = 2 := rfl
  have himage : (shellCall c.initSh).image = some c.initSh := rfl
  obtain ⟨k₄, hexec, hk₄⟩ := kexecvpe_isSome (t := t) hcall.evolves.sound hcall.cr3 himage hs (by omega)
  exact ⟨t, k₁, k₂, k₃, k₄, ⟨htables, htasking, hfirst.current, hstrings, hexec⟩, by omega⟩

/-! ## What the boot leaves -/

theorem tasking_quiet {stack rsp : Word} (h : Sound {k.cr3} k) (hs : initializeTasking k stack rsp = some k') :
    k'.cr3 = k.cr3 ∧ core {k.cr3} k' ⊆ core {k.cr3} k ∧ Quiet {k.cr3} k k' := by
  simp only [initializeTasking, bind, Option.bind_eq_some_iff, Option.some.injEq] at hs
  obtain ⟨t, -, ⟨v, k₁⟩, halloc, rfl⟩ := hs
  have hev : Evolves {k.cr3} {k.cr3} k (enterTask (setLimits k) t) := h.evolves_same rfl rfl
  obtain ⟨g, -, -, -, hfresh, -⟩ := iVirtAlloc_page hev.sound rfl halloc
  have hcr3 : k₁.cr3 = (enterTask (setLimits k) t).cr3 := SameTasks.cr3_eq hfresh.same
  have hquiet : Quiet {k.cr3} (enterTask (setLimits k) t) k₁ := quiet_fresh hfresh
  exact ⟨hcr3, (hev.sound.evolves_fresh hfresh).core.trans hev.core, fun f hf => hquiet f fun hm => hf (hev.core hm)⟩

section

variable {k₁ k₂ k₃ : Kernel} (h : StartOk c) (hst : Stages c t k₁ k₂ k₃ k)

include h hst

theorem Stages.first : FirstTask t k₂ := by
  obtain ⟨hsound, htasks, -, -⟩ := initTables_spec h hst.tables
  obtain ⟨t', hfirst⟩ := initializeTasking_spec hsound htasks hst.tasking
  obtain rfl : t = t' := Option.some.inj (hst.current.symm.trans hfirst.current)
  exact hfirst

theorem Stages.copied : HeapCall {k₂.cr3} t k₂ k₃ :=
  copyStrings_spec shellSizes (Stages.first h hst).sound rfl hst.strings

theorem Stages.works : Works {k₂.cr3} t k₂ k := by
  have hcall := Stages.copied h hst
  have himage : ∀ image, (shellCall c.initSh).image = some image → ImageOk image := by
    intro image hi
    rw [← Option.some.inj hi]
    exact h.image
  exact hcall.toWorks.trans (kexecvpe_spec hcall.evolves.sound hcall.cr3 himage hst.exec).1 rfl

theorem Stages.running : FirstTask t k := (Stages.first h hst).works (Stages.works h hst)

theorem Stages.core_first : core {k₂.cr3} k₂ ⊆ freeOf c := by
  obtain ⟨hsound, -, hcore, -⟩ := initTables_spec h hst.tables
  obtain ⟨hcr3, hcore₂, -⟩ := tasking_quiet hsound hst.tasking
  rw [hcr3]
  exact hcore₂.trans hcore

theorem Stages.core_free : core {k.cr3} k ⊆ freeOf c := by
  have hworks := Stages.works h hst
  rw [hworks.cr3]
  exact hworks.evolves.core.trans (Stages.core_first h hst)

/-- The boot writes only to frames that were free. -/
theorem Stages.outside : ∀ f, f ∉ freeOf c → k.mem f = c.mem f := by
  intro f hf
  obtain ⟨hsound, -, hcore, hout⟩ := initTables_spec h hst.tables
  obtain ⟨hcr3, hcore₂, hquiet⟩ := tasking_quiet hsound hst.tasking
  have hworks := Stages.works h hst
  rw [hcr3] at hworks
  have hf₁ : f ∉ core {k₁.cr3} k₁ := fun hm => hf (hcore hm)
  exact (hworks.quiet f fun hm => hf₁ (hcore₂ hm)).trans ((hquiet f hf₁).trans (hout f hf))

/-- The first block of the heap is cut from a page that the first task then has. -/
theorem Stages.heap_page : ∃ a k', kmalloc k₂ t 12 = some (a, k') ∧ a ∈ (k₃.tasks t).pages := by
  have hfirst := Stages.first h hst
  obtain ⟨husage, -⟩ := initTables_uncounted hst.tables
  obtain ⟨-, htasks, -, -⟩ := initTables_spec h hst.tables
  obtain ⟨t', ht', hcount, hlimit, hptr⟩ := initializeTasking_usage husage hst.tasking
  obtain rfl : t = t' := Option.some.inj (hst.current.symm.trans ht')
  have hstrings := hst.strings
  rw [copyStrings, shellSizes] at hstrings
  obtain ⟨k', hfirst', hrest⟩ := (Transition.run_cons_eq_some _).mp hstrings
  rw [Option.map_eq_some_iff] at hfirst'
  obtain ⟨⟨a, k'⟩, hmalloc, rfl⟩ := hfirst'
  have hneed : NeedsPage k₂ t 12 := by
    refine Or.inl ?_
    rw [hptr, htasks]
    rfl
  have hgranted : Granted k₂ t := by
    rw [Granted, hcount, hlimit]
    decide
  have hv : ∀ v k', iVirtAlloc k₂ = some (v, k') → v ≠ 0 := by
    intro v k' hs
    obtain ⟨g, -, rfl, hlt, -⟩ := iVirtAlloc_page hfirst.sound rfl hs
    exact window_ne_zero hlt
  obtain ⟨-, htask⟩ := VmaTable.kmalloc_task hst.current hmalloc hneed hgranted hv
  have hcall := kmalloc_spec hfirst.sound rfl hmalloc
  have hrest' : HeapCall {k₂.cr3} t k' k₃ :=
    copyStrings_spec [64 * 8, 128, 64 * 8] hcall.evolves.sound hcall.cr3 hrest
  refine ⟨a, k', hmalloc, hrest'.kept a ?_⟩
  rw [htask]
  exact List.mem_cons_self

end

/-! ## A program without segments -/

/-- Each slot of the first ten that is in use lists the page of one stack. -/
def OnStacks (F : Set Nat) (s : TaskMem) : Prop :=
  ∀ i < VMA_SCANNED, (s.vma i).startAddr ≠ 0 → ∃ g ∈ F, s.vma i = ⟨window g, window g + 4095⟩

/-- Of the pages obtained before, none is in the table any more. -/
theorem loadImage_stacks {image : Image} (hno : image.segments = []) (h : Sound R k) (hr : k.cr3 ∈ R)
    (hs : loadImage k t image = some k') : OnStacks (freeFrames k.memMap) (k'.tasks t) ∧
      ∃ g ∈ freeFrames k.memMap, (k'.tasks t).vma VMA_KERNEL_STACK_IDX = ⟨window g, window g + 4095⟩ ∧
        window g ∈ (k'.tasks t).pages := by
  simp only [loadImage, bind, Option.bind_eq_some_iff, Option.some.injEq] at hs
  obtain ⟨⟨u, k₁⟩, hu, ⟨v, k₂⟩, hv, k₃, hmap, rfl⟩ := hs
  obtain ⟨g, hg, rfl, -, hfresh, -⟩ := iVirtAlloc_page h hr hu
  have hcr3 : k₁.cr3 = k.cr3 := SameTasks.cr3_eq hfresh.same
  obtain ⟨g', hg', rfl, -⟩ := iVirtAlloc_page (h.evolves_fresh hfresh).sound (hcr3.symm ▸ hr) hv
  rw [mapExeFormat, hno, Transition.run_nil, Option.map_some, Option.some.injEq] at hmap
  obtain rfl := hmap
  rw [modifyTask_self, modifyTask_self]
  refine ⟨?_, g', hfresh.sub hg', rfl, List.mem_cons_self⟩
  intro i hi hne
  simp only [setRsp, setStacks, stackAreas] at hne ⊢
  split_ifs at hne ⊢
  · exact ⟨g, hg, rfl⟩
  · exact ⟨g', hfresh.sub hg', rfl⟩
  · exact absurd rfl hne
  · exact absurd rfl hne

/-- What the first task has when `init_sh` starts, for a program without segments: the page
of the stack of the kernel is listed, and the page with the first string of the boot is not. -/
theorem Stages.stacks {k₁ k₂ k₃ : Kernel} (h : StartOk c) (hno : c.initSh.segments = [])
    (hst : Stages c t k₁ k₂ k₃ k) : ∃ F ⊆ freeOf c, OnStacks F (k.tasks t) ∧
      (∃ g ∈ F, (k.tasks t).vma VMA_KERNEL_STACK_IDX = ⟨window g, window g + 4095⟩ ∧
        window g ∈ (k.tasks t).pages) ∧
      ∀ a ∈ (k₃.tasks t).pages, a ∈ (k.tasks t).pages ∧ ∀ g ∈ F, vpn a ≠ vpn (window g) := by
  have hcopied := Stages.copied h hst
  have hfirst := (Stages.first h hst).works hcopied.toWorks
  have hexec := hst.exec
  simp only [kexecvpe, bind, Option.bind_eq_some_iff] at hexec
  obtain ⟨k₄, hstrings, hload⟩ := hexec
  have hcall := copyStrings_spec _ hfirst.sound rfl hstrings
  have hfirst₄ := hfirst.works hcall.toWorks
  have hload' : loadImage k₄ t c.initSh = some k := hload
  have hsound := hfirst₄.sound
  obtain ⟨hw, -⟩ := loadImage_spec hsound rfl h.image hload'
  obtain ⟨hon, hstack⟩ := loadImage_stacks hno hsound rfl hload'
  refine ⟨freeFrames k₄.memMap, ?_, hon, hstack, fun a ha => ?_⟩
  · have hcr3 : k₃.cr3 = k₂.cr3 := hcopied.cr3
    rw [hcr3] at hcall
    exact hcall.evolves.free.trans (hcopied.evolves.free.trans
      (Set.subset_union_left.trans (Stages.core_first h hst)))
  · have ha₄ := hcall.kept a ha
    exact ⟨hw.kept a ha₄, fun g hg => hsound.off_window rfl (hfirst₄.data a ha₄) (Or.inl hg)⟩

/-! ## A machine with 4 MB of free RAM -/

/-- The RAM lies above the kernel, is blank, and `init_sh` is an empty program. -/
def shellStart : Start := { smallStart with entries := [⟨0x400000, 0x400000, 1⟩] }

theorem mem_freeOf_shell (f : Nat) : f ∈ freeOf shellStart ↔ 1024 ≤ f ∧ f ≤ 2048 := by
  have hfirst : (⟨0x400000, 0x400000, 1⟩ : BootMap.Smap).firstPage = 1024 := by decide
  refine mem_freeOf_single (c := shellStart) (e := ⟨0x400000, 0x400000, 1⟩) rfl (by decide) (by decide)
    (by decide) ?_ f
  intro f hle _
  have hend : (kerPhysfree shellStart.physfree).toNat = 2260992 := by decide
  rw [hfirst] at hle
  rw [BootMap.Reserved, PHYS_PAGE_SIZE, hend]
  omega

theorem ncard_freeOf_shell : (freeOf shellStart).ncard = 1025 := by
  have hset : freeOf shellStart = ↑(Finset.Icc 1024 2048) := by
    ext f
    rw [mem_freeOf_shell, Finset.coe_Icc, Set.mem_Icc]
  rw [hset, Set.ncard_coe_finset, Nat.card_Icc]

theorem shell_maxPhys : shellStart.bootMap.maxPhys = 0x800000 := by
  rw [Start.bootMap, BootMap.initMemMgmt, show shellStart.entries = [⟨0x400000, 0x400000, 1⟩] from rfl,
    List.foldl_cons, List.foldl_nil, initEntry_maxPhys, if_pos (by decide)]
  rfl

theorem shell_ok : StartOk shellStart := by
  refine ⟨?_, by decide, ?_, fun _ _ => rfl, ⟨fun s hs => absurd hs List.not_mem_nil, Nat.zero_le _⟩⟩
  · intro e he _
    rw [List.mem_singleton.mp he]
    decide
  · intro e he _
    rw [shell_maxPhys, List.mem_singleton.mp he]
    decide

/-- The tables of the image, and five last tables for the window. -/
theorem card_tablesOf_shell : (tablesOfStart shellStart).card ≤ 28 := by
  have hpages : windowPages shellStart.bootMap.maxPhys = 2049 := by
    rw [shell_maxPhys]
    decide
  have hvga : tablesUpTo (vgaPage (vgaOf smallStart)) vgaPages ⊆ tablesOf kernmem := by
    refine tablesUpTo_subset fun i hi => ?_
    have hfour : i < 4 := hi
    rw [small_vga, tablesOf, small_vgaPage, KernelImage.pathOf_image (by omega), tablesOf]
  have hsub : tablesOfStart shellStart ⊆ tablesOf kernmem ∪ tablesUpTo windowPage 2049 := by
    rw [tablesOfStart, identityTables, hpages]
    exact Finset.union_subset subset_rfl (hvga.trans Finset.subset_union_left)
  have hwindow := card_windowTables (m := 2049) (by omega)
  have hcard := (Finset.card_le_card hsub).trans (Finset.card_union_le _ _)
  rw [tablesOf_card] at hcard
  omega

theorem shell_zero : 0 ∉ freeOf shellStart := fun hm => absurd ((mem_freeOf_shell 0).mp hm).1 (by omega)

theorem shell_bootFrames : bootFrames shellStart ≤ 50 := by
  have htables := card_tablesOf_shell
  rw [bootFrames, show framesNeeded shellStart.initSh.segments = 0 from rfl, Nat.add_zero]
  omega

theorem shell_boots : ∃ t k₁ k₂ k₃ k, Stages shellStart t k₁ k₂ k₃ k ∧ 975 ≤ supply k := by
  have hframes := shell_bootFrames
  have hcard := ncard_freeOf_shell
  obtain ⟨t, k₁, k₂, k₃, k, hstages, hsup⟩ := boot_isSome shell_ok shell_zero
    (fun s hs => absurd hs List.not_mem_nil) (by omega)
  exact ⟨t, k₁, k₂, k₃, k, hstages, by omega⟩

end BootRun
