import DeepOS.KernelInvariant

/-!
# Enough frames

The calls of the running system have a result as long as the allocator can
supply them. Each lemma bounds the number of frames a call takes.
-/
namespace Supply

open PhyMem TaskTable PageTable PageMap VirtAlloc Clone Process AddressSpace TaskPages LoadImage Fork
open RadixForest (follow nodes TreeIn)

noncomputable def supply (k : Kernel) : Nat := (freeFrames k.memMap).ncard

variable {R : Set Nat} {t : Slot} {k k' : Kernel}

theorem ncard_lowFrames (h : Sound R k) : (lowFrames k).ncard = supply k := by
  have hlow : freeFrames k.memMap ⊆ {f | f < WINDOW_FRAMES} := fun f hf => h.low f hf
  rw [supply, lowFrames, Set.inter_eq_left.mpr hlow]

theorem supply_taken (hsub : freeFrames k'.memMap ⊆ freeFrames k.memMap) :
    supply k = supply k' + (freeFrames k.memMap \ freeFrames k'.memMap).ncard := by
  rw [supply, supply, Nat.add_comm, Set.ncard_sdiff_add_ncard_of_subset hsub (freeFrames_finite _)]

theorem iVirtAlloc_isSome (h : Sound R k) (hr : k.cr3 ∈ R) (hn : 2 ≤ supply k) :
    ∃ v k', iVirtAlloc k = some (v, k') ∧ supply k ≤ supply k' + 2 := by
  obtain ⟨⟨v, k'⟩, hs⟩ := VirtAlloc.iVirtAlloc_isSome (h.ready hr) (by rw [ncard_lowFrames h]; exact hn)
  obtain ⟨g₁, g, hne, hg₁, hg, -, -, hfresh, hfree, -⟩ := iVirtAlloc_spec (h.ready hr) (h.lowFor 2) hs
  refine ⟨v, k', hs, ?_⟩
  rw [supply_taken hfresh.sub, ncard_pair_taken hne hg₁ hg hfree]

theorem pageAlloc_isSome (h : Sound R k) (hn : 1 ≤ supply k) :
    ∃ g ∈ freeFrames k.memMap,
      k.pageAlloc = some (frameAddr g, { k with memMap := mmapUnset k.memMap g }) := by
  have hne : (freeFrames k.memMap).Nonempty := by
    rw [← Set.ncard_pos (freeFrames_finite _)]
    exact hn
  obtain ⟨g, hg⟩ := exists_least (Set.nonempty_iff_ne_empty.mp hne)
  exact ⟨g, hg.1, pageAlloc_least_some h.inv.zero hg⟩

/-- A mapping takes at most three frames. -/
theorem map_isSome {pml4e : Word} (v p : Word) (task : Option Slot) (h : Sound R k)
    (hr : frameAt pml4e ∈ R) (hn : 3 ≤ supply k) : ∃ k', mapProcessSpecific k v p pml4e task = some k' ∧
      supply k ≤ supply k' + 3 := by
  have hmiss : missing k.mem (frameAt pml4e) (pathOf v) ≤ 3 := StoreLaw.missing_le _ _ _
  obtain ⟨k', hs⟩ := mapProcessSpecific_isSome v p task h.inv hr
    (by rw [ncard_lowFrames h]; omega)
  obtain ⟨taken, hmaps, hcard⟩ := mapProcessSpecific_spec h.inv hr (h.lowFor _) hs
  refine ⟨k', hs, ?_⟩
  have hfree := hmaps.free
  rw [supply_taken (by rw [hfree]; exact Set.sdiff_subset), hfree,
    Set.sdiff_sdiff_cancel_left hmaps.taken_free, hcard]
  omega

theorem supply_unset {g : Nat} (hg : g ∈ freeFrames k.memMap) :
    supply k = supply { k with memMap := mmapUnset k.memMap g } + 1 := by
  rw [supply, supply, freeFrames_unset, Set.ncard_sdiff_singleton_add_one hg (freeFrames_finite _)]

/-- A page on a frame of its own takes at most four. -/
theorem mapPage_isSome {v : Word} (h : Sound R k) (hr : k.cr3 ∈ R) (hn : 4 ≤ supply k) :
    ∃ k', mapPage t k v = some k' ∧ supply k ≤ supply k' + 4 := by
  obtain ⟨g, hg, halloc⟩ := pageAlloc_isSome h (by omega)
  have hone := supply_unset hg
  have hsound := (h.evolves_fresh (fresh_unset k g)).sound
  obtain ⟨k', hmap, hk'⟩ := map_isSome v (frameAddr g) k.currentTask hsound hr (by omega)
  have hmap' : mapProcess { k with memMap := mmapUnset k.memMap g } v (frameAddr g) = some k' := hmap
  refine ⟨gain k' t v, ?_, ?_⟩
  · simp only [mapPage, bind, halloc, hmap', Option.bind_some]
  · rw [show supply (gain k' t v) = supply k' from rfl]
    omega

/-! ## The heap -/

@[simp] theorem supply_modifyTask (change : TaskMem → TaskMem) :
    supply (modifyTask k t change) = supply k := rfl

@[simp] theorem supply_addToVma (first last : Word) : supply (addToVma k t first last) = supply k := by
  rw [addToVma]
  split <;> rfl

@[simp] theorem supply_charge (task : Option Slot) : supply (charge k task) = supply k := by
  rw [supply, supply, (charge_spec k task).2.1]

theorem brk_isSome (h : Sound R k) (hr : k.cr3 ∈ R) (hn : 2 ≤ supply k) :
    ∃ v k', brk k t = some (v, k') ∧ supply k ≤ supply k' + 2 := by
  rw [brk]
  split
  · exact ⟨0, k, rfl, Nat.le_add_right _ _⟩
  · obtain ⟨v, k₁, halloc, hk₁⟩ := iVirtAlloc_isSome h hr hn
    rw [halloc, Option.map_some]
    refine ⟨_, _, rfl, ?_⟩
    rw [supply_charge, supply_addToVma, gain, supply_modifyTask]
    exact hk₁

theorem kmalloc_isSome (size : BitVec 32) (h : Sound R k) (hr : k.cr3 ∈ R) (hn : 2 ≤ supply k) :
    ∃ v k', kmalloc k t size = some (v, k') ∧ supply k ≤ supply k' + 2 := by
  have hpage : ∃ a b k', heapPage k t size = some (a, b, k') ∧ supply k ≤ supply k' + 2 := by
    rw [heapPage]
    split
    · obtain ⟨v, k₁, hbrk, hk₁⟩ := brk_isSome (t := t) h hr hn
      rw [growHeap, hbrk, Option.map_some]
      refine ⟨_, _, _, rfl, ?_⟩
      rw [supply_addToVma]
      exact hk₁
    · exact ⟨_, _, k, rfl, Nat.le_add_right _ _⟩
  obtain ⟨a, b, k₁, hp, hk₁⟩ := hpage
  rw [kmalloc, hp, Option.map_some]
  by_cases ha : a = 0
  · exact ⟨0, k₁, by simp [ha], hk₁⟩
  · let k₂ := modifyTask k₁ t fun s => { s with curPtr := a + size.setWidth 64, heapEnd := b }
    exact ⟨a, k₂, by simp only [ha, if_false]; rfl, hk₁⟩

theorem copyStrings_isSome (sizes : List (BitVec 32)) (h : Sound R k) (hr : k.cr3 ∈ R)
    (hn : 2 * sizes.length ≤ supply k) :
    ∃ k', copyStrings k t sizes = some k' ∧ supply k ≤ supply k' + 2 * sizes.length := by
  have hloop := Transition.run_loop_some (fun k size => (kmalloc k t size).map Prod.snd) sizes
    (P := fun done k' => HeapCall R t k k' ∧ supply k ≤ supply k' + 2 * done.length)
    ?_ (s := k) ⟨heapCall_of_vma (works_refl h) rfl, by simp⟩
  · obtain ⟨k', hrun, -, hk'⟩ := hloop
    exact ⟨k', hrun, hk'⟩
  rintro done size rest k₁ hsizes ⟨hcall, hk₁⟩
  have hlen : done.length + 1 ≤ sizes.length := by
    rw [← hsizes, List.length_append, List.length_cons]
    omega
  have hr₁ : k₁.cr3 ∈ R := hcall.cr3.symm ▸ hr
  obtain ⟨v, k₂, hm, hk₂⟩ := kmalloc_isSome (t := t) size hcall.evolves.sound hr₁ (by omega)
  refine ⟨k₂, by rw [hm]; rfl, hcall.trans (kmalloc_spec hcall.evolves.sound hr₁ hm) hr, ?_⟩
  rw [List.length_append, List.length_singleton]
  omega

end Supply
