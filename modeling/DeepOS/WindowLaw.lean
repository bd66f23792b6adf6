import DeepOS.ForkLaw

/-!
# The window along runs

In every run from the boot, the window of each live task leads to every frame that is
free or a table. This needs images with fewer than a hundred segments: the hundredth
entry of the `vma` table lies on the field of the root.
-/
namespace WindowLaw

open PhyMem TaskTable PageTable PageMap VirtAlloc Process AddressSpace TaskPages LoadImage Fork
  KernelInvariant Boot BootTables BootPages BootRun
open LoadedBytes (Placed framesNeeded Linked.pageNeeded_ne_zero)

variable {R : Set Nat} {t : Slot} {k k' : Kernel}

theorem window_along_runs {c : Start} {ops : List Op} {k₀ : Kernel} (h : StartOk c) (hb : boot c = some k₀)
    (hm : Transition.Along step Meets k₀ ops) (hr : Transition.run step k₀ ops = some k) :
    ∀ t, Live k t → ∀ f ∈ core (liveRoots k) k, translate k (root k t) (window f) = some f := by
  intro t ht f hf
  obtain ⟨hk, -⟩ := (boot_kinv h hb).run hm hr
  exact hk.sound.translate_window (mem_liveRoots ht) hf

/-- Both tasks behind a fork find every free frame and all tables. -/
theorem window_along_runs_fork : ∃ k₀ k t c, boot shellStart = some k₀ ∧ k₀.currentTask = some t ∧
    getNextFreeTask k₀ = some c ∧ Transition.run step k₀ [.fork [9] 0] = some k ∧ t ≠ c ∧ Live k t ∧ Live k c ∧
    ∀ f ∈ core (liveRoots k) k,
      translate k (root k t) (window f) = some f ∧ translate k (root k c) (window f) = some f := by
  obtain ⟨t, k₁, k₂, k₃, k₀, k, hst, hfork⟩ := ForkLaw.shell_forks
  have hboot := Stages.boot hst
  have hkinv := boot_kinv shell_ok hboot
  have hrun : Transition.run step k₀ [.fork [9] 0] = some k := by
    rw [Transition.run, hfork]
    rfl
  have halong : Transition.Along step Meets k₀ [.fork [9] 0] := And.intro trivial fun _ _ => trivial
  obtain ⟨t, c, ht, hc, hl, -, hf, -⟩ := ForkLaw.fork_forked hkinv hfork
  have hlt : Live k t := (Forked.live_iff hl hf t).mpr (Or.inr hl)
  have hlc : Live k c := (Forked.live_iff hl hf c).mpr (Or.inl rfl)
  have hwindow := window_along_runs shell_ok hboot halong hrun
  refine ⟨k₀, k, t, c, hboot, ht, hc, hrun, ?_, hlt, hlc, fun f hfc => ⟨hwindow t hlt f hfc, hwindow c hlc f hfc⟩⟩
  rintro rfl
  exact hl hf.free

/-! ## The hundredth segment -/

/-- The entry after the segments with contents. -/
theorem mapSegments_index {segments : List Segment} (hl : ∀ s ∈ segments, Linked s) {r r' : Kernel × Nat}
    (hs : Transition.run (mapSegment t) r segments = some r') : r'.2 = r.2 + (nonEmpty segments).length := by
  induction segments generalizing r with
  | nil =>
    rw [Transition.run_nil, Option.some.injEq] at hs
    rw [← hs]
    rfl
  | cons s rest ih =>
    obtain ⟨r₁, h₁, hs⟩ := (Transition.run_cons_eq_some _).mp hs
    rw [ih (fun s' hs' => hl s' (List.mem_cons_of_mem s hs')) hs, nonEmpty]
    by_cases h0 : s.sizeInMemory = 0
    · rw [mapSegment, if_neg (fun hn => size_ne_zero hn h0), Option.some.injEq] at h₁
      rw [← h₁, nonEmpty, List.filter_cons_of_neg (by simpa using h0)]
    · have hn := Linked.pageNeeded_ne_zero (hl s List.mem_cons_self) (fun hz => h0 (BitVec.eq_of_toNat_eq hz))
      rw [mapSegment, if_pos hn] at h₁
      simp only [bind, Option.bind_eq_some_iff, Option.some.injEq] at h₁
      obtain ⟨k₁, -, k₂, -, rfl⟩ := h₁
      rw [nonEmpty, List.filter_cons_of_pos (by simpa using h0), List.length_cons]
      omega

/-- From entry 102 on, the first address of the segment becomes the root of the task. -/
theorem mapSegment_root {s : Segment} {i : Nat} {r : Kernel × Nat} (h : Sound R k) (hr : k.cr3 ∈ R) (hl : Linked s)
    (h0 : s.sizeInMemory ≠ 0) (hi : VMA_DEF_COUNT + 2 ≤ i) (hs : mapSegment t (k, i) s = some r) :
    (r.1.tasks t).pml4e = s.leastStart ∧ (r.1.tasks t).status = (k.tasks t).status ∧ Quiet R k r.1 := by
  have hn := Linked.pageNeeded_ne_zero hl (fun hz => h0 (BitVec.eq_of_toNat_eq hz))
  rw [mapSegment, if_pos hn] at hs
  simp only [bind, Option.bind_eq_some_iff, Option.some.injEq] at hs
  obtain ⟨k₁, hmap, k₂, hcopy, rfl⟩ := hs
  have hset : setVma (k.tasks t) i s.leastStart s.maxEnd = { k.tasks t with pml4e := s.leastStart } := by
    rw [VMA_DEF_COUNT] at hi
    rw [setVma, VMA_DEF_COUNT, if_neg (by omega), if_neg (by omega), if_neg (by omega)]
  have h₁ := evolves_modify h t fun task => setVma task i s.leastStart s.maxEnd
  have hoff : ∀ a ∈ pagesFrom s.leastStart s.pageNeeded.toNat, OffWindow a :=
    fun a ha => offWindow_of_canonical hl hn (copyOnDisk_canonical hcopy) ha
  obtain ⟨hw₁, htaken, -⟩ := mapPages_spec h₁.sound hr hoff hmap
  obtain ⟨hw₂, -⟩ := works_copyOnDisk hl hn hw₁ hr (fun a ha => (htaken a ha).1) hcopy
  refine ⟨?_, ?_, Quiet.trans (fun _ _ => rfl) hw₂.quiet h₁.core⟩
  · rw [hw₂.pml4e, modifyTask_self, hset]
  · rw [hw₂.status, modifyTask_self, hset]

/-- The last of a hundred segments with contents leaves its first address as the root. -/
theorem loadImage_root {image : Image} {segments : List Segment} {s : Segment} (h : Sound R k) (hr : k.cr3 ∈ R)
    (himage : image.segments = segments ++ [s]) (hl : ∀ s ∈ image.segments, Linked s)
    (hcount : (nonEmpty segments).length = 99) (h0 : s.sizeInMemory ≠ 0) (hs : loadImage k t image = some k') :
    (k'.tasks t).pml4e = s.leastStart ∧ (k'.tasks t).status = (k.tasks t).status ∧ Quiet R k k' := by
  simp only [loadImage, bind, Option.bind_eq_some_iff, Option.some.injEq] at hs
  obtain ⟨⟨u, k₁⟩, hu, ⟨v, k₂⟩, hv, k₃, hmap, rfl⟩ := hs
  obtain ⟨hw, -⟩ := works_setStacks (t := t) h hr hu hv
  have hr₂ : (modifyTask k₂ t fun s => setStacks s u v).cr3 ∈ R := hw.cr3.symm ▸ hr
  rw [mapExeFormat, himage, Transition.run_append, Option.map_eq_some_iff] at hmap
  obtain ⟨r, hmap, rfl⟩ := hmap
  obtain ⟨r₁, hfirst, hlast⟩ := Option.bind_eq_some_iff.mp hmap
  rw [himage] at hl
  have hl₁ : ∀ s ∈ segments, Linked s := fun s' hs' => hl s' (List.mem_append_left _ hs')
  have hindex := mapSegments_index hl₁ hfirst
  have hw₁ : Works R t _ r₁.1 := mapSegments_spec segments hw.evolves.sound hr₂ hl₁
    (by rw [hcount, VMA_SEGMENT_START, VMA_DEF_COUNT]) hfirst
  obtain ⟨r₂, hlast, hend⟩ := (Transition.run_cons_eq_some _).mp hlast
  rw [Transition.run_nil, Option.some.injEq] at hend
  obtain ⟨hroot, hstatus, hquiet⟩ := mapSegment_root (i := r₁.2) hw₁.evolves.sound (hw₁.cr3.symm ▸ hr₂)
    (hl s (List.mem_append_right _ List.mem_cons_self)) h0
    (by rw [hindex, hcount, VMA_SEGMENT_START, VMA_DEF_COUNT]) hlast
  have hworks := hw.trans hw₁ hr
  rw [hend] at hroot hstatus hquiet
  refine ⟨?_, ?_, hworks.quiet.trans hquiet hworks.evolves.core⟩
  · rw [modifyTask_self]
    exact hroot
  · rw [modifyTask_self]
    exact hstatus.trans hworks.status

/-! ## A run that loses the window -/

def oneByte : Segment := ⟨0x400000, 1, fun _ => 0⟩

def hundredBytes : Image := ⟨List.replicate 100 oneByte, List.length_replicate.le⟩

def hundredCall : ExecCall := ⟨[], [], some hundredBytes, [], []⟩

theorem hundredBytes_segments : hundredBytes.segments = List.replicate 99 oneByte ++ [oneByte] :=
  List.replicate_succ'

theorem hundred_contents : (nonEmpty (List.replicate 99 oneByte)).length = 99 := by
  rw [nonEmpty, List.filter_replicate_of_pos (by decide), List.length_replicate]

theorem oneByte_placed : Placed oneByte := by
  refine ⟨?_, fun i hi => ?_⟩
  · rw [Linked, dumb_toNat]
    decide
  · have hone : i < 1 := hi
    obtain rfl : i = 0 := by omega
    decide

theorem hundred_placed : ∀ s ∈ hundredBytes.segments, Placed s := by
  intro s hs
  rw [List.eq_of_mem_replicate hs]
  exact oneByte_placed

theorem hundred_frames : framesNeeded hundredBytes.segments = 400 := by
  rw [framesNeeded, show hundredBytes.segments = List.replicate 100 oneByte from rfl, List.map_replicate,
    List.sum_replicate, show oneByte.pageNeeded.toNat = 1 by decide]
  rfl

/-- A table without entries leads nowhere. -/
theorem translate_blank {r : Nat} {v : Word} (h : ∀ i, k.mem r i = 0) : translate k r v = none := by
  have hnext : next (k.mem r (pml4eIndex v)) = none := next_eq_none (by rw [h]; decide)
  rw [PageTable.translate, walk, pathOf, RadixForest.leaf, RadixForest.follow, hnext]
  rfl

/-- `init_sh` loads an image with a hundred segments, all below the window: its root is
then no table any more, and no free frame is found. -/
theorem hundredth_segment_moves_root : ∃ k₀ k t f, boot shellStart = some k₀ ∧
    step k₀ (.exec hundredCall) = some k ∧ (∀ s ∈ hundredBytes.segments, Linked s) ∧ Live k t ∧
    f ∈ core (liveRoots k) k ∧ translate k (root k t) (window f) = none := by
  obtain ⟨t, k₁, k₂, k₃, k₀, hst, hsup⟩ := shell_boots
  have hrunning := Stages.running shell_ok hst
  have hsizes : hundredCall.sizes.length = 0 := rfl
  have hframes := hundred_frames
  have himage : hundredCall.image = some hundredBytes := rfl
  obtain ⟨k, hexec, hk⟩ := kexecvpe_isSome (t := t) hrunning.sound rfl himage hundred_placed (by omega)
  have hload : loadImage k₀ t hundredBytes = some k := by
    have hstrings : copyStrings k₀ t hundredCall.sizes = some k₀ := rfl
    rw [kexecvpe, hstrings] at hexec
    simp only [himage, bind, Option.bind_some] at hexec
    exact hexec
  have hl : ∀ s ∈ hundredBytes.segments, Linked s := fun s hs => (hundred_placed s hs).linked
  obtain ⟨hroot, hstatus, hquiet⟩ := loadImage_root hrunning.sound rfl hundredBytes_segments hl
    hundred_contents (by decide) hload
  obtain ⟨f, hf⟩ : (freeFrames k.memMap).Nonempty := Set.nonempty_of_ncard_ne_zero (by rw [← Supply.supply]; omega)
  have houtside : 66560 ∉ freeOf shellStart := fun hm => absurd ((mem_freeOf_shell _).mp hm).2 (by omega)
  have hblank : k.mem 66560 = fun _ => 0 := by
    rw [hquiet 66560 fun hm => houtside (Stages.core_free shell_ok hst hm)]
    exact Stages.outside shell_ok hst 66560 houtside
  refine ⟨k₀, k, t, f, Stages.boot hst, ?_, hl, ?_, Or.inl hf, ?_⟩
  · rw [step, hrunning.current, Option.bind_some]
    exact hexec
  · rw [Live, hstatus]
    exact hrunning.live
  · rw [root, hroot, show frameAt oneByte.leastStart = 66560 by decide]
    exact translate_blank fun i => congrFun hblank i

end WindowLaw
