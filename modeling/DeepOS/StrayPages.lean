import DeepOS.BootMemory

/-!
# Stray pages

`page_alloc` does not clear a frame. A frame that becomes a table during the boot keeps
the entries that are not written, and those that are present are walked.
-/
namespace StrayPages

open PhyMem TaskTable PageTable PageMap VirtAlloc Boot BootTables TablePaths BootPages BootMemory
open BootMap (kerPhysfree)
open RadixForest (follow leaf)

/-- The pages given to the loop of `map_kernel`, to `map` and to `map_process`. -/
def passedPages (c : Start) : List Word :=
  (List.range (kernelPages c.physbase (kerPhysfree c.physfree))).map imagePage ++
    (List.range (windowPages c.bootMap.maxPhys)).map windowPage ++
    (List.range vgaPages).map (vgaPage (vgaOf c)) ++ [stackOf c]

/-- The entries that the boot stores into its tables: their links, and the entries of the pages. -/
def Stored (c : Start) (p : List (Fin 512)) : Prop :=
  p ∈ linkedTables c ∨ (∃ i < kernelPages c.physbase (kerPhysfree c.physfree), p = imagePath i) ∨
    (∃ i < windowPages c.bootMap.maxPhys, p = pagePath (windowPage i)) ∨
    (∃ i < vgaPages, p = pagePath (vgaPage (vgaOf c) i)) ∨ (StackLow c ∧ p = pagePath (stackOf c))

/-- From the table `root` only passed pages are mapped, and the linked tables have no present
entry but those that have been stored. -/
structure NoStray (c : Start) (root : Nat) (k : Kernel) : Prop where
  pages : ∀ a, (walk k root a).isSome → ∃ v ∈ passedPages c, vpn a = vpn v
  entries : ∀ q f i, q.length ≤ 3 → follow next k.mem root q = some f → isPresent (k.mem f i) = true →
    Stored c (q ++ [i])

/-- The words of the tables that the boot does not overwrite hold no present entry. -/
def EntriesClean (c : Start) : Prop :=
  ∀ q ∈ linkedTables c, ∀ i, ¬ Stored c (q ++ [i]) → isPresent (c.mem (tableFrame c q) i) = false

variable {c : Start} {k : Kernel} {q : List (Fin 512)} {i : Fin 512}

theorem length_of_mem_linkedTables (hq : q ∈ linkedTables c) : q.length ≤ 3 := by
  have hup : ∀ {v : Nat → Word} {m : Nat}, q ∈ tablesUpTo v m → q.length ≤ 3 := by
    intro v m hm
    obtain ⟨i, -, hi⟩ := Finset.mem_biUnion.mp hm
    exact length_of_mem_tablesOf hi
  rcases mem_linkedTables.mp hq with hq | hq
  · rw [tablesOfStart, identityTables, Finset.mem_union, Finset.mem_union] at hq
    rcases hq with (hq | hq) | hq
    · exact length_of_mem_tablesOf hq
    · exact hup hq
    · exact hup hq
  · exact (hq.trans (lowPart_initial _ _)).length_le

theorem page_notMem {p : List (Fin 512)} (hlen : p.length = 4) : p ∉ linkedTables c :=
  fun hp => absurd (length_of_mem_linkedTables hp) (by omega)

theorem kernmem_mem (c : Start) : pathOf kernmem ∈ linkedTables c := by
  refine tables_subset c ?_
  rw [tablesOfStart, identityTables, Finset.union_assoc, Finset.mem_union, mem_tablesOf]
  exact Or.inl (List.prefix_refl _)

/-- An entry with four indices belongs to a page. -/
theorem stored_page {p : List (Fin 512)} (hlen : p.length = 4) :
    Stored c p ↔ ∃ w, (p, w) ∈ finalLeaves c := by
  have hnot : p ∉ linkedTables c := page_notMem hlen
  have hidentity : (∃ w, (p, w) ∈ identityLeaves c) ↔
      (∃ i < kernelPages c.physbase (kerPhysfree c.physfree), p = imagePath i) ∨
        (∃ i < windowPages c.bootMap.maxPhys, p = pagePath (windowPage i)) ∨
        ∃ i < vgaPages, p = pagePath (vgaPage (vgaOf c) i) := by
    simp only [identityLeaves, windowLeaves, imageLeaves, mem_addLeaves, List.not_mem_nil, or_false, Prod.mk.injEq]
    constructor
    · rintro ⟨w, ⟨i, hi, rfl, -⟩ | ⟨i, hi, rfl, -⟩ | ⟨i, hi, rfl, -⟩⟩
      · exact Or.inr (Or.inr ⟨i, hi, rfl⟩)
      · exact Or.inr (Or.inl ⟨i, hi, rfl⟩)
      · exact Or.inl ⟨i, hi, rfl⟩
    · rintro (⟨i, hi, rfl⟩ | ⟨i, hi, rfl⟩ | ⟨i, hi, rfl⟩)
      · exact ⟨_, Or.inr (Or.inr ⟨i, hi, rfl, rfl⟩)⟩
      · exact ⟨_, Or.inr (Or.inl ⟨i, hi, rfl, rfl⟩)⟩
      · exact ⟨_, Or.inl ⟨i, hi, rfl, rfl⟩⟩
  rw [finalLeaves]
  split
  · rename_i hlow
    simp only [Stored, hnot, hlow, true_and, false_or, bootLeaves, List.mem_cons, Prod.mk.injEq, exists_or, hidentity,
      exists_eq_right, and_comm]
    simp only [or_assoc, or_comm, or_left_comm]
  · rename_i hlow
    simp only [hidentity, Stored, hnot, false_or, hlow, false_and, or_false]

theorem stored_none_of_not (hq : q ∈ linkedTables c) (hnot : ¬ Stored c (q ++ [i])) :
    stored c (linkedUses c) (finalLeaves c) (q ++ [i]) = none := by
  by_cases hlen : (q ++ [i]).length ≤ 3
  · exact stored_none hlen fun hmem => hnot (Or.inl (some_mem_linkedUses.mp hmem))
  · have hle := length_of_mem_linkedTables hq
    have hfour : (q ++ [i]).length = 4 := by
      rw [length_snoc] at hlen ⊢
      omega
    rw [stored_leaf hfour, List.lookup_eq_none_iff]
    rintro ⟨p, w⟩ hp
    rw [bne_iff_ne]
    rintro rfl
    exact hnot ((stored_page hfour).mpr ⟨w, hp⟩)

/-- An entry that is stored for a page maps one that was passed. -/
theorem passed_of_stored {a : Word} (h : Stored c (pagePath a)) : ∃ v ∈ passedPages c, vpn a = vpn v := by
  simp only [passedPages, List.mem_append, List.mem_map, List.mem_range, List.mem_singleton]
  rcases h with h | ⟨i, hi, h⟩ | ⟨i, hi, h⟩ | ⟨i, hi, h⟩ | ⟨-, h⟩
  · exact absurd h (page_notMem rfl)
  · -- a page behind the first two megabytes replaces one of them
    refine ⟨imagePage (i % 512), Or.inl (Or.inl (Or.inl ⟨_, (Nat.mod_le i 512).trans_lt hi, rfl⟩)), ?_⟩
    rw [← pagePath_inj, h, imagePath, pagePath, imagePage, imagePage,
      KernelImage.pathOf_image (Nat.mod_lt i (by decide)), KernelImage.ptIndex_image, KernelImage.ptIndex_image]
    refine congrArg (fun j => pathOf kernmem ++ [j]) (Fin.ext ?_)
    rw [Fin.val_ofNat, Fin.val_ofNat, Nat.mod_mod]
  · exact ⟨_, Or.inl (Or.inl (Or.inr ⟨i, hi, rfl⟩)), pagePath_inj.mp h⟩
  · exact ⟨_, Or.inl (Or.inr ⟨i, hi, rfl⟩), pagePath_inj.mp h⟩
  · exact ⟨_, Or.inr rfl, pagePath_inj.mp h⟩

theorem left_over (h : Words c (linkedUses c) (finalLeaves c) k) (hq : q ∈ linkedTables c)
    (hnot : ¬ Stored c (q ++ [i])) : k.mem (tableFrame c q) i = c.mem (tableFrame c q) i := by
  rw [h.mem q i (some_mem_linkedUses.mpr hq), stored_none_of_not hq hnot, Option.getD_none]

theorem follow_linkedTables (h : Words c (linkedUses c) (finalLeaves c) k) (hq : q ∈ linkedTables c) :
    follow next k.mem (tableFrame c []) q = some (tableFrame c q) :=
  h.follow_table q (length_of_mem_linkedTables hq) (some_mem_linkedUses.mpr hq)

/-- Behind a boot that followed no left-over link, what is stray is what was left over. -/
theorem noStray_iff (h : Words c (linkedUses c) (finalLeaves c) k) :
    NoStray c (tableFrame c []) k ↔ EntriesClean c := by
  constructor
  · intro hno q hq i hnot
    by_contra hpresent
    refine hnot (hno.entries q (tableFrame c q) i (length_of_mem_linkedTables hq) (follow_linkedTables h hq) ?_)
    rw [left_over h hq hnot]
    exact Bool.not_eq_false _ ▸ hpresent
  · intro hclean
    have hentries : ∀ q f i, q.length ≤ 3 → follow next k.mem (tableFrame c []) q = some f →
        isPresent (k.mem f i) = true → Stored c (q ++ [i]) := by
      intro q f i hlen hf hpresent
      have hq : some q ∈ linkedUses c := by
        by_contra hnot
        rw [h.follow_none q hlen (fun q' i' hpre hq' hnew => ?_) hnot] at hf
        · cases hf
        · refine hclean q' (some_mem_linkedUses.mp hq') i' fun hst => ?_
          rcases hst with hst | hst
          · exact hnew (some_mem_linkedUses.mpr hst)
          · have hshort := hpre.length_le
            have hfour : (q' ++ [i']).length = 4 := by
              rcases hst with ⟨i, -, heq⟩ | ⟨i, -, heq⟩ | ⟨i, -, heq⟩ | ⟨-, heq⟩
              all_goals rw [heq]; rfl
            omega
      rw [h.follow_table q hlen hq, Option.some.injEq] at hf
      subst hf
      by_contra hnot
      rw [left_over h (some_mem_linkedUses.mp hq) hnot, hclean q (some_mem_linkedUses.mp hq) i hnot] at hpresent
      cases hpresent
    refine ⟨fun a ha => ?_, hentries⟩
    obtain ⟨e, he⟩ := Option.isSome_iff_exists.mp ha
    obtain ⟨f, hf, hpresent, rfl⟩ := RadixForest.leaf_eq_some.mp he
    refine passed_of_stored (hentries (pathOf a) f (ptIndex a) (pathOf_length a).le hf ?_)
    by_contra hno
    rw [next_eq_none (Bool.not_eq_true _ ▸ hno)] at hpresent
    cases hpresent

/-- Where no word is left over that the boot follows as a link, and no table is reached in
place of another, nothing stray is mapped exactly if the words of the tables that are not
overwritten held no present entry. -/
theorem no_stray_pages (c : Start) {pml4e : Word} {k₁ k₂ k : Kernel} (hclean : CleanLinks c (linkedTables c))
    (hapart : Apart c) (hkernel : mapKernel c.kernel c.physbase (kerPhysfree c.physfree) = some (pml4e, k₁))
    (hident : identityMapping pml4e (vgaOf c) c.bootMap.maxPhys k₁ = some k₂)
    (hs : setupKernelStack k₂ (stackOf c) = some k) : NoStray c (frameOf pml4e) k ↔ EntriesClean c := by
  obtain ⟨ht, h⟩ := stack_words hclean hapart hkernel hident hs
  rw [ht]
  exact noStray_iff h

/-! ## A small machine -/

theorem small_stack : stackOf smallStart = kernmem + BitVec.ofNat 64 (50 * 0x1000) := by
  rw [stackOf, kernStackVirt, ← vgaOf, small_vga]
  exact (by decide : kernmem + BitVec.ofNat 64 (45 * 0x1000) + 0x5000 = kernmem + BitVec.ofNat 64 (50 * 0x1000))

theorem small_allTables : allTables smallStart ⊆ tablesOf kernmem ∪ tablesOf DUMB_MAPPING_VIRT := by
  rw [allTables]
  refine Finset.union_subset small_tables ?_
  rw [small_stack, tablesOf, KernelImage.pathOf_image (by omega), ← tablesOf]
  exact Finset.subset_union_left

theorem small_room : (uses smallStart).length ≤ (freeOf smallStart).ncard := by
  have hcard := (Finset.card_le_card small_allTables).trans (Finset.card_union_le _ _)
  rw [tablesOf_card, tablesOf_card] at hcard
  rw [length_uses, ncard_freeOf_small]
  omega

theorem tableFrame_mem (hroom : (uses c).length ≤ (freeOf c).ncard) (hq : q ∈ allTables c) :
    tableFrame c q ∈ freeOf c :=
  frame_mem ((List.idxOf_lt_length_of_mem (some_mem_uses.mpr hq)).trans_le hroom)

theorem small_stackLow : StackLow smallStart := by
  intro q hq
  have hle := ((mem_freeOf_small _).mp (tableFrame_mem small_room (stack_subset _ hq))).2
  rw [WINDOW_FRAMES]
  omega

theorem small_clean : CleanLinks smallStart (allTables smallStart) :=
  fun _ _ _ _ => (by decide : isPresent 0 = false)

theorem no_stray_pages_small : ∃ pml4e k₁ k₂ k,
    mapKernel smallStart.kernel 0x200000 (kerPhysfree 0x220000) = some (pml4e, k₁) ∧
      identityMapping pml4e (vgaOf smallStart) smallStart.bootMap.maxPhys k₁ = some k₂ ∧
      setupKernelStack k₂ (stackOf smallStart) = some k ∧ NoStray smallStart (frameOf pml4e) k := by
  have hclean := small_clean
  obtain ⟨pml4e, k₁, k₂, k, hkernel, hident, hs⟩ := stack_isSome hclean small_stackLow
    (by rw [mem_freeOf_small]; omega) small_room
  rw [← linkedTables_of_low small_stackLow] at hclean
  refine ⟨pml4e, k₁, k₂, k, hkernel, hident, hs, ?_⟩
  refine (no_stray_pages smallStart hclean (absurd small_stackLow) hkernel hident hs).mpr ?_
  exact fun _ _ _ _ => (by decide : isPresent 0 = false)

/-! ## The small machine with a left-over entry -/

/-- The tables do not depend on what RAM holds. -/
theorem allTables_withMem (c : Start) (m : Nat → Fin 512 → Word) : allTables { c with mem := m } = allTables c := by
  rw [allTables, allTables]
  rfl

def strayStart : Start := { smallStart with mem := fun _ i => if i = 300 then 0x400007 else 0 }

theorem stray_allTables : allTables strayStart = allTables smallStart := allTables_withMem smallStart _

theorem stray_present {f : Nat} (hi : i ≠ 300) : isPresent (strayStart.mem f i) = false := by
  rw [strayStart]
  simp only [if_neg hi]
  decide

/-- No path of the small machine goes through these words. -/
theorem stray_clean : CleanLinks strayStart (allTables strayStart) := by
  intro q i hq _
  refine stray_present fun heq => ?_
  rw [stray_allTables] at hq
  have hlast : i ∈ q ++ [i] := List.mem_append_right _ (List.mem_singleton_self i)
  rcases Finset.mem_union.mp (small_allTables hq) with hq | hq
  · have hmem := (mem_tablesOf.mp hq).subset hlast
    rw [heq] at hmem
    exact absurd hmem (by decide)
  · have hmem := (mem_tablesOf.mp hq).subset hlast
    rw [heq] at hmem
    exact absurd hmem (by decide)

theorem small_kernelPages : kernelPages smallStart.physbase (kerPhysfree smallStart.physfree) = 45 := by decide

theorem index_ne_300 {n : Nat} (hn : n < 300) : ptIndex (kernmem + BitVec.ofNat 64 (n * 0x1000)) ≠ 300 := by
  intro heq
  rw [KernelImage.ptIndex_image, Fin.ext_iff, Fin.val_ofNat] at heq
  have hval : ((300 : Fin 512) : Nat) = 300 := rfl
  omega

theorem stray_not_stored : ¬ Stored strayStart (pathOf kernmem ++ [300]) := by
  rintro (h | ⟨i, hi, h⟩ | ⟨i, hi, h⟩ | ⟨i, hi, h⟩ | h)
  · exact absurd h (page_notMem rfl)
  · have hi' : i < 45 := small_kernelPages ▸ hi
    exact index_ne_300 (by omega) (List.append_singleton_inj.mp h).2.symm
  · have hi' : i < 289 := by
      rw [show strayStart.bootMap.maxPhys = smallStart.bootMap.maxPhys from rfl, small_maxPhys] at hi
      exact hi
    have hpath := (List.append_singleton_inj.mp h).1
    rw [pathOf_windowPage (by omega)] at hpath
    exact absurd hpath (by decide)
  · have hi' : i < 4 := hi
    rw [show vgaOf strayStart = vgaOf smallStart from rfl, small_vga, small_vgaPage] at h
    exact index_ne_300 (by omega) (List.append_singleton_inj.mp h).2.symm
  · have h := h.2
    rw [show stackOf strayStart = stackOf smallStart from rfl, small_stack] at h
    exact index_ne_300 (by omega) (List.append_singleton_inj.mp h).2.symm

/-- The page behind entry 300 of the image's last table is mapped. -/
theorem left_over_entry_walked : ∃ pml4e k₁ k₂ k,
    mapKernel strayStart.kernel 0x200000 (kerPhysfree 0x220000) = some (pml4e, k₁) ∧
      identityMapping pml4e (vgaOf strayStart) strayStart.bootMap.maxPhys k₁ = some k₂ ∧
      setupKernelStack k₂ (stackOf strayStart) = some k ∧
      walk k (frameOf pml4e) (kernmem + BitVec.ofNat 64 (300 * 0x1000)) = some 0x400007 ∧
      ¬ NoStray strayStart (frameOf pml4e) k := by
  have hlow : StackLow strayStart := small_stackLow
  have hclean := stray_clean
  obtain ⟨pml4e, k₁, k₂, k, hkernel, hident, hs⟩ := stack_isSome hclean hlow
    (show 0 ∉ freeOf smallStart by rw [mem_freeOf_small]; omega) small_room
  rw [← linkedTables_of_low hlow] at hclean
  obtain ⟨ht, h⟩ := stack_words hclean (absurd hlow) hkernel hident hs
  have hfollow := follow_linkedTables h (kernmem_mem strayStart)
  have hword := left_over h (kernmem_mem strayStart) stray_not_stored
  refine ⟨pml4e, k₁, k₂, k, hkernel, hident, hs, ?_, fun hno => ?_⟩
  · rw [ht, walk, RadixForest.leaf_eq_some, KernelImage.pathOf_image (by decide)]
    exact ⟨_, hfollow, by decide, hword⟩
  · rw [ht, noStray_iff h] at hno
    exact absurd (hno _ (kernmem_mem strayStart) 300 stray_not_stored) (by decide : ¬ isPresent 0x400007 = false)

end StrayPages
