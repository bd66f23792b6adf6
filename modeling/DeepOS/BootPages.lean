import DeepOS.KernelImage
import DeepOS.Lowest

/-!
# The pages that booting maps

From blank frames `map_kernel` and `map` build just the tables of the pages they are
given, and nothing else is mapped.
-/
namespace BootPages

open PhyMem TaskTable PageTable PageMap VirtAlloc Boot BootTables TablePaths Lowest
open BootMap (kerPhysfree)
open RadixForest (follow leaf nodes paths)

variable {k₀ k k' : Kernel} {n : Nat} {T : Finset (List (Fin 512))} {V : Set Nat}

def pagesOf (v : Nat → Word) (m : Nat) : Set Nat := {p | ∃ i < m, p = vpn (v i)}

def tablesUpTo (v : Nat → Word) (m : Nat) : Finset (List (Fin 512)) :=
  (Finset.range m).biUnion fun i => tablesOf (v i)

theorem tablesUpTo_succ (v : Nat → Word) (m : Nat) :
    tablesUpTo v (m + 1) = tablesUpTo v m ∪ tablesOf (v m) := by
  rw [tablesUpTo, Finset.range_add_one, Finset.biUnion_insert, Finset.union_comm]
  rfl

theorem tablesUpTo_subset {v : Nat → Word} {m : Nat} (h : ∀ i < m, tablesOf (v i) ⊆ T) : tablesUpTo v m ⊆ T :=
  Finset.biUnion_subset.mpr fun i hi => h i (Finset.mem_range.mp hi)

theorem pagesOf_succ (v : Nat → Word) (m : Nat) : insert (vpn (v m)) (pagesOf v m) = pagesOf v (m + 1) := by
  ext p
  constructor
  · rintro (rfl | ⟨i, hi, rfl⟩)
    · exact ⟨m, m.lt_succ_self, rfl⟩
    · exact ⟨i, hi.trans m.lt_succ_self, rfl⟩
  · rintro ⟨i, hi, rfl⟩
    rcases Nat.lt_succ_iff_lt_or_eq.mp hi with hi | rfl
    · exact Or.inr ⟨i, hi, rfl⟩
    · exact Or.inl rfl

/-! ## The image of the kernel -/

theorem pageAlloc_isSome (h0 : 0 ∉ freeFrames k.memMap) (hn : (freeFrames k.memMap).ncard ≠ 0) :
    ∃ p k', k.pageAlloc = some (p, k') := by
  obtain ⟨g, hg⟩ := exists_least (Set.nonempty_iff_ne_empty.mp (Set.nonempty_of_ncard_ne_zero hn))
  exact ⟨_, _, pageAlloc_least_some h0 hg⟩

theorem newTable_isSome (h0 : 0 ∉ freeFrames k.memMap) (hn : (freeFrames k.memMap).ncard ≠ 0)
    (table : Word) (i : Fin 512) : ∃ t k', newTable k table i = some (t, k') := by
  obtain ⟨p, k', hs⟩ := pageAlloc_isSome h0 hn
  rw [newTable, hs]
  exact ⟨_, _, rfl⟩

theorem newTable_zero {table t : Word} {i : Fin 512} (h0 : 0 ∉ freeFrames k.memMap)
    (hs : newTable k table i = some (t, k')) : 0 ∉ freeFrames k'.memMap := by
  obtain ⟨-, hfree, -⟩ := KernelImage.newTable_some hs
  rw [hfree]
  exact fun hm => h0 hm.1

theorem mapKernel_isSome (h0 : 0 ∉ freeFrames k.memMap) (hn : 4 ≤ (freeFrames k.memMap).ncard)
    (physbase physfree : Word) : ∃ pml4e k', mapKernel k physbase physfree = some (pml4e, k') := by
  obtain ⟨p, k₁, h₁⟩ := pageAlloc_isSome h0 (by omega)
  obtain ⟨g, hg, -, hk⟩ := pageAlloc_some h₁
  have hfree : freeFrames k₁.memMap = freeFrames k.memMap \ {g} := by rw [hk, freeFrames_unset]
  have hcard : (freeFrames k₁.memMap).ncard + 1 = (freeFrames k.memMap).ncard := by
    rw [hfree]
    exact Set.ncard_sdiff_singleton_add_one hg.1 (freeFrames_finite _)
  have hzero : 0 ∉ freeFrames k₁.memMap := by
    rw [hfree]
    exact fun hm => h0 hm.1
  obtain ⟨p₂, k₂, h₂⟩ := newTable_isSome hzero (by omega) p (pml4eIndex kernmem)
  have hcard₂ := newTable_free h₂
  have hzero₂ := newTable_zero hzero h₂
  obtain ⟨p₃, k₃, h₃⟩ := newTable_isSome hzero₂ (by omega) p₂ (pdpeIndex kernmem)
  have hcard₃ := newTable_free h₃
  have hzero₃ := newTable_zero hzero₂ h₃
  obtain ⟨p₄, k₄, h₄⟩ := newTable_isSome hzero₃ (by omega) p₃ (pdeIndex kernmem)
  refine ⟨p, (List.range (kernelPages physbase physfree)).foldl (mapKernelPage p₄ physbase) k₄, ?_⟩
  simp only [mapKernel, bind, h₁, h₂, h₃, h₄, Option.bind_some]

theorem tablesOf_card (v : Word) : (tablesOf v).card = 4 := by
  rw [tablesOf, card_inits, pathOf_length]

def imagePage (i : Nat) : Word := kernmem + BitVec.ofNat 64 (i * 0x1000)

/-- Entries that no page is written to stay as they are. -/
theorem image_rest {pt physbase : Word} {j : Fin 512} (m : Nat) (hj : ∀ i < m, ptIndex (imagePage i) ≠ j) :
    ((List.range m).foldl (mapKernelPage pt physbase) k).mem (frameOf pt) j = k.mem (frameOf pt) j := by
  induction m with
  | zero => rfl
  | succ m ih =>
    have hlast : j ≠ Fin.ofNat 512 m := by
      rw [← KernelImage.ptIndex_image]
      exact (hj m m.lt_succ_self).symm
    rw [KernelImage.image_succ, RadixForest.put_index_of_ne _ _ hlast]
    exact ih fun i hi => hj i (hi.trans m.lt_succ_self)

/-- Behind `map_kernel` the tree has one path, and the pages of the image at most. -/
theorem mapKernel_shape {pml4e physbase physfree : Word}
    (hblank : ∀ f ∈ freeFrames k.memMap, ∀ i, isPresent (k.mem f i) = false)
    (hlow : ∀ f ∈ freeFrames k.memMap, f < WINDOW_FRAMES)
    (hs : mapKernel k physbase physfree = some (pml4e, k')) :
    Building k (frameOf pml4e) k' ∧ Shape (frameOf pml4e) (tablesOf kernmem)
      (pagesOf imagePage (kernelPages physbase physfree)) (freeFrames k.memMap).ncard k' := by
  obtain ⟨-, hcard, pt, k₁, hb₁, hx₁, hblank₁, -, rfl⟩ := mapKernel_stages hblank hlow hs
  generalize hk' : (List.range (kernelPages physbase physfree)).foldl (mapKernelPage pt physbase) k₁ = k'
    at hcard
  obtain ⟨hb, hx⟩ : Building k (frameOf pml4e) k' ∧
      follow next k'.mem (frameOf pml4e) (pathOf kernmem) = some (frameOf pt) := by
    rw [← hk']
    exact mapKernelPages_spec (pathOf_length kernmem) _ hb₁ hx₁
  have hsub : ↑(tablesOf kernmem) ⊆ paths next 3 k'.mem (frameOf pml4e) := by
    intro q hq
    rw [Finset.mem_coe, mem_tablesOf] at hq
    exact RadixForest.mem_paths_of_prefix hq
      ⟨(pathOf_length kernmem).le, by rw [hx]; rfl⟩
  have hle : (paths next 3 k'.mem (frameOf pml4e)).ncard ≤ (↑(tablesOf kernmem) : Set (List (Fin 512))).ncard := by
    have hnodes : nodes next 3 k'.mem {frameOf pml4e} ⊆ freeFrames k.memMap \ freeFrames k'.memMap :=
      fun f hf => ⟨hb.tables hf, hb.inv.used f hf⟩
    have hsum := Set.ncard_sdiff_add_ncard_of_subset hb.free (freeFrames_finite k.memMap)
    rw [RadixForest.ncard_paths hb.inv.forest, Set.ncard_coe_finset, tablesOf_card]
    have := Set.ncard_le_ncard hnodes ((freeFrames_finite k.memMap).subset Set.sdiff_subset)
    omega
  have hpaths := (Set.eq_of_subset_of_ncard_le hsub hle RadixForest.paths_finite).symm
  refine ⟨hb, hb.inv, hb.free_low, hpaths, by rw [tablesOf_card]; omega, fun a ha => ?_⟩
  -- a page that is mapped has the path of the image, and its entry was written
  obtain ⟨e, he⟩ := Option.isSome_iff_exists.mp ha
  obtain ⟨f, hf, hpresent, rfl⟩ := RadixForest.leaf_eq_some.mp he
  have hmem : pathOf a ∈ tablesOf kernmem := by
    rw [← Finset.mem_coe, ← hpaths]
    exact ⟨(pathOf_length a).le, by rw [hf]; rfl⟩
  have hpath : pathOf a = pathOf kernmem :=
    (mem_tablesOf.mp hmem).eq_of_length (by rw [pathOf_length, pathOf_length])
  rw [hpath, hx, Option.some.injEq] at hf
  subst hf
  by_contra hno
  have hother : ∀ i < kernelPages physbase physfree, ptIndex (imagePage i) ≠ ptIndex a := by
    intro i hi hindex
    refine hno ⟨i % 512, (Nat.mod_le i 512).trans_lt hi, ?_⟩
    rw [← path_eq_iff, hpath]
    refine ⟨(KernelImage.pathOf_image (Nat.mod_lt i (by decide))).symm, ?_⟩
    rw [← hindex, imagePage, imagePage, KernelImage.ptIndex_image, KernelImage.ptIndex_image, Fin.ext_iff,
      Fin.val_ofNat, Fin.val_ofNat, Nat.mod_mod]
  rw [← hk', image_rest _ hother, next_eq_none (hblank₁ _)] at hpresent
  cases hpresent

/-! ## Loops of mappings -/

/-- `map` by physical addresses. -/
theorem map_shape {pml4e v p : Word} (hb : Building k₀ (frameOf pml4e) k) (h : Shape (frameOf pml4e) T V n k)
    (hs : map pml4e k v p = some k') :
    Building k₀ (frameOf pml4e) k' ∧ Shape (frameOf pml4e) (T ∪ tablesOf v) (insert (vpn v) V) n k' := by
  rw [map_eq hb] at hs
  obtain ⟨taken, hmaps, hshape⟩ := h.maps (frameAt_iPhyToVirt pml4e) hs
  exact ⟨hb.maps hmaps, hshape⟩

theorem map_isSome {pml4e : Word} (v p : Word) (hb : Building k₀ (frameOf pml4e) k)
    (h : Shape (frameOf pml4e) T V n k) (hroom : (T ∪ tablesOf v).card ≤ n) :
    ∃ k', map pml4e k v p = some k' := by
  obtain ⟨k', -, hs, -, -⟩ := h.map v p none (frameAt_iPhyToVirt pml4e) hroom
  exact ⟨k', by rw [map_eq hb]; exact hs⟩

/-- What a loop of mappings has built behind its first `m` pages. -/
def Built (k₀ : Kernel) (r : Nat) (T : Finset (List (Fin 512))) (V : Set Nat) (n : Nat) (v : Nat → Word)
    (m : Nat) (k : Kernel) : Prop :=
  Building k₀ r k ∧ Shape r (T ∪ tablesUpTo v m) (pagesOf v m ∪ V) n k

theorem built_zero {r : Nat} (v : Nat → Word) (hb : Building k₀ r k) (h : Shape r T V n k) :
    Built k₀ r T V n v 0 k := by
  have hnone : pagesOf v 0 ∪ V = V := Set.union_eq_right.mpr fun _ ⟨i, hi, _⟩ => absurd hi i.not_lt_zero
  have hempty : T ∪ tablesUpTo v 0 = T := Finset.union_empty T
  rw [Built, hnone, hempty]
  exact ⟨hb, h⟩

theorem union_tablesUpTo_succ (T : Finset (List (Fin 512))) (v : Nat → Word) (i : Nat) :
    T ∪ tablesUpTo v i ∪ tablesOf (v i) = T ∪ tablesUpTo v (i + 1) := by
  rw [tablesUpTo_succ, Finset.union_assoc]

theorem Built.map {pml4e p : Word} {v : Nat → Word} {i : Nat} (h : Built k₀ (frameOf pml4e) T V n v i k)
    (hs : map pml4e k (v i) p = some k') : Built k₀ (frameOf pml4e) T V n v (i + 1) k' := by
  obtain ⟨hb, hshape⟩ := map_shape h.1 h.2 hs
  rw [union_tablesUpTo_succ, ← Set.insert_union, pagesOf_succ] at hshape
  exact ⟨hb, hshape⟩

theorem maps_shape {pml4e : Word} {v p : Nat → Word} {m : Nat} (hb : Building k₀ (frameOf pml4e) k)
    (h : Shape (frameOf pml4e) T V n k)
    (hs : Transition.run (fun k i => map pml4e k (v i) (p i)) k (List.range m) = some k') :
    Built k₀ (frameOf pml4e) T V n v m k' :=
  Transition.run_range (P := fun i k' => Built k₀ (frameOf pml4e) T V n v i k')
    (fun _ _ _ _ h₁ hstep => h₁.map hstep) (built_zero v hb h) hs

theorem maps_isSome {pml4e : Word} {v : Nat → Word} (p : Nat → Word) (m : Nat)
    (hb : Building k₀ (frameOf pml4e) k) (h : Shape (frameOf pml4e) T V n k)
    (hroom : (T ∪ tablesUpTo v m).card ≤ n) :
    ∃ k', Transition.run (fun k i => map pml4e k (v i) (p i)) k (List.range m) = some k' := by
  have hstep : ∀ i < m, ∀ k₁, Built k₀ (frameOf pml4e) T V n v i k₁ →
      ∃ k₂, map pml4e k₁ (v i) (p i) = some k₂ ∧ Built k₀ (frameOf pml4e) T V n v (i + 1) k₂ := by
    intro i hi k₁ h₁
    have hsub : T ∪ tablesUpTo v (i + 1) ⊆ T ∪ tablesUpTo v m :=
      Finset.union_subset_union_right
        (Finset.biUnion_subset_biUnion_of_subset_left _ (Finset.range_subset_range.mpr hi))
    obtain ⟨k₂, hs⟩ := map_isSome (v i) (p i) h₁.1 h₁.2
      (by rw [union_tablesUpTo_succ]; exact (Finset.card_le_card hsub).trans hroom)
    exact ⟨k₂, hs, h₁.map hs⟩
  obtain ⟨k', hs, -⟩ := Transition.run_range_some (P := fun i k' => Built k₀ (frameOf pml4e) T V n v i k') m
    hstep (built_zero v hb h)
  exact ⟨k', hs⟩

/-! ## The window and the screen -/

def windowPages (maxPhys : Word) : Nat := maxPhys.toNat / 0x1000 + 1

def vgaPages : Nat := 23 * 80 * 2 * 4 / 0x1000 + 1

def windowPage (i : Nat) : Word := DUMB_MAPPING_VIRT + BitVec.ofNat 64 (i * 0x1000)

def vgaPage (vga : Word) (i : Nat) : Word := vga + BitVec.ofNat 64 (i * 0x1000)

def identityTables (vga maxPhys : Word) : Finset (List (Fin 512)) :=
  tablesOf kernmem ∪ tablesUpTo windowPage (windowPages maxPhys) ∪ tablesUpTo (vgaPage vga) vgaPages

/-- The loops of `identity_mapping`. -/
theorem identityMapping_stages {pml4e vga maxPhys : Word} :
    identityMapping pml4e vga maxPhys k = some k' ↔ ∃ k₁ k₂,
      Transition.run (mapWindow pml4e) k (List.range (windowPages maxPhys)) = some k₁ ∧
      Transition.run (mapVga pml4e vga) k₁ (List.range vgaPages) = some k₂ ∧
      k' = { k₂ with curPml4eVirt := pml4e ||| DUMB_MAPPING_VIRT } := by
  simp only [identityMapping, bind, Option.bind_eq_some_iff, Option.some.injEq, windowPages, vgaPages]
  constructor
  · rintro ⟨k₁, h₁, k₂, h₂, rfl⟩
    exact ⟨k₁, k₂, h₁, h₂, rfl⟩
  · rintro ⟨k₁, k₂, h₁, h₂, rfl⟩
    exact ⟨k₁, h₁, k₂, h₂, rfl⟩

theorem identityMapping_shape {pml4e vga maxPhys : Word} {k₁ k₂ : Kernel} (hb : Building k₀ (frameOf pml4e) k)
    (h : Shape (frameOf pml4e) (tablesOf kernmem) V n k)
    (h₁ : Transition.run (mapWindow pml4e) k (List.range (windowPages maxPhys)) = some k₁)
    (h₂ : Transition.run (mapVga pml4e vga) k₁ (List.range vgaPages) = some k₂) :
    Building k₀ (frameOf pml4e) k₂ ∧ Shape (frameOf pml4e) (identityTables vga maxPhys)
      (pagesOf (vgaPage vga) vgaPages ∪ (pagesOf windowPage (windowPages maxPhys) ∪ V)) n k₂ := by
  obtain ⟨hb₁, hs₁⟩ := maps_shape (v := windowPage) (p := fun i => BitVec.ofNat 64 (i * 0x1000)) hb h h₁
  exact maps_shape (v := vgaPage vga) (p := fun i => VGA_BUFFER + BitVec.ofNat 64 (i * 0x1000)) hb₁ hs₁ h₂

theorem identityMapping_isSome {pml4e : Word} (vga maxPhys : Word) (hb : Building k₀ (frameOf pml4e) k)
    (h : Shape (frameOf pml4e) (tablesOf kernmem) V n k) (hroom : (identityTables vga maxPhys).card ≤ n) :
    ∃ k', identityMapping pml4e vga maxPhys k = some k' := by
  have hsub : tablesOf kernmem ∪ tablesUpTo windowPage (windowPages maxPhys) ⊆ identityTables vga maxPhys :=
    Finset.subset_union_left
  obtain ⟨k₁, h₁⟩ := maps_isSome (v := windowPage) (fun i => BitVec.ofNat 64 (i * 0x1000))
    (windowPages maxPhys) hb h ((Finset.card_le_card hsub).trans hroom)
  obtain ⟨hb₁, hs₁⟩ := maps_shape hb h h₁
  obtain ⟨k₂, h₂⟩ := maps_isSome (v := vgaPage vga) (fun i => VGA_BUFFER + BitVec.ofNat 64 (i * 0x1000))
    vgaPages hb₁ hs₁ hroom
  exact ⟨_, identityMapping_stages.mpr ⟨k₁, k₂, h₁, h₂, rfl⟩⟩

/-! ## A start of the machine -/

def vgaOf (c : Start) : Word := vgaVirt c.physbase (kerPhysfree c.physfree)

def stackOf (c : Start) : Word := kernStackVirt c.physbase (kerPhysfree c.physfree)

def freeOf (c : Start) : Set Nat := freeFrames c.bootMap.memMap

def tablesOfStart (c : Start) : Finset (List (Fin 512)) := identityTables (vgaOf c) c.bootMap.maxPhys

def pagesOfStart (c : Start) : Set Nat :=
  pagesOf (vgaPage (vgaOf c)) vgaPages ∪ (pagesOf windowPage (windowPages c.bootMap.maxPhys) ∪
    pagesOf imagePage (kernelPages c.physbase (kerPhysfree c.physfree)))

/-- The frame lies below 256 MB and holds no present entry. -/
def Usable (c : Start) (f : Nat) : Prop := f < WINDOW_FRAMES ∧ ∀ i, isPresent (c.mem f i) = false

theorem card_tablesOfStart (c : Start) : 4 ≤ (tablesOfStart c).card := by
  rw [← tablesOf_card kernmem]
  exact Finset.card_le_card (Finset.subset_union_left.trans Finset.subset_union_left)

/-- The state behind `identity_mapping`, when the frames for the tables are there. The
kernel `kt` stands for what is left of these frames: none. -/
structure Mapped (c : Start) (r : Nat) (k : Kernel) (D : Set Nat) (kt : Kernel) : Prop where
  cut : Cut D k kt
  cr3 : k.cr3 = r
  shape : Shape r (tablesOfStart c) (pagesOfStart c) (tablesOfStart c).card kt
  windows : windowPages c.bootMap.maxPhys ≤ 2 ^ 36 →
    (∀ i < vgaPages, ∀ f < WINDOW_FRAMES, vpn (vgaPage (vgaOf c) i) ≠ vpn (window f)) →
    ∀ f < windowPages c.bootMap.maxPhys, f < WINDOW_FRAMES → Windowed k r f
  taken : nodes next 3 k.mem {r} ⊆ freeOf c \ D
  count : (freeOf c).ncard = (tablesOfStart c).card + D.ncard
  rest : ∀ f ∈ D, f ∈ freeOf c ∧ k.mem f = c.mem f ∧
    freeBelow c.bootMap.memMap f = (tablesOfStart c).card + (D ∩ {g | g < f}).ncard

/-- With enough frames, the lowest of them below 256 MB and blank, `map_kernel` and
`identity_mapping` build the tables of their pages. -/
theorem identity_mapped (c : Start) (h0 : 0 ∉ freeOf c) (hsup : (tablesOfStart c).card ≤ (freeOf c).ncard)
    (hframes : ∀ f ∈ freeOf c, freeBelow c.bootMap.memMap f < (tablesOfStart c).card → Usable c f) :
    ∃ pml4e k₁ k₂ D kt, mapKernel c.kernel c.physbase (kerPhysfree c.physfree) = some (pml4e, k₁) ∧
      identityMapping pml4e (vgaOf c) c.bootMap.maxPhys k₁ = some k₂ ∧
      Mapped c (frameOf pml4e) k₂ D kt := by
  obtain ⟨D, kt₀, hcut, hcard⟩ := exists_cut (k := c.kernel) hsup
  have hmem : kt₀.mem = c.mem := hcut.mem
  have hfree : freeOf c = freeFrames kt₀.memMap ∪ D := hcut.free
  have husable : ∀ f ∈ freeFrames kt₀.memMap, Usable c f := by
    intro f hf
    refine hframes f (by rw [hfree]; exact Or.inl hf) ?_
    have hlt := hcut.freeBelow_lt hf
    rw [hcard] at hlt
    exact hlt
  have hblank : ∀ f ∈ freeFrames kt₀.memMap, ∀ i, isPresent (kt₀.mem f i) = false := by
    intro f hf i
    rw [hmem]
    exact (husable f hf).2 i
  have hlow : ∀ f ∈ freeFrames kt₀.memMap, f < WINDOW_FRAMES := fun f hf => (husable f hf).1
  have hzero : 0 ∉ freeFrames kt₀.memMap := fun hm => h0 (by rw [hfree]; exact Or.inl hm)
  -- the run on the frames that are needed
  obtain ⟨pml4e, kt₁, hkernel⟩ := mapKernel_isSome hzero (by rw [hcard]; exact card_tablesOfStart c)
    c.physbase (kerPhysfree c.physfree)
  obtain ⟨hb₁, hs₁⟩ := mapKernel_shape hblank hlow hkernel
  rw [hcard] at hs₁
  obtain ⟨kt, hident⟩ := identityMapping_isSome (vgaOf c) c.bootMap.maxPhys hb₁ hs₁ le_rfl
  obtain ⟨kt₂, kt₃, hrun₂, hrun₃, rfl⟩ := identityMapping_stages.mp hident
  obtain ⟨hb₃, hs₃⟩ := identityMapping_shape hb₁ hs₁ hrun₂ hrun₃
  -- and the run on all frames
  obtain ⟨k₁, hkernel', hcut₁⟩ := hcut.mapKernel hkernel
  obtain ⟨k₂, hident', hcut₂⟩ := hcut₁.identityMapping hident
  have hmem₂ : k₂.mem = kt₃.mem := hcut₂.mem.symm
  have hroot : frameAt (pml4e ||| DUMB_MAPPING_VIRT) = frameOf pml4e :=
    frameAt_or (hb₃.inv.below _ (RadixForest.root_mem_nodes rfl))
  refine ⟨pml4e, k₁, k₂, D, _, hkernel', hident', hcut₂, ?_, hs₃.congr rfl rfl, ?_, ?_, ?_, ?_⟩
  · rw [Kernel.cr3, ← hcut₂.curPml4eVirt]
    exact hroot
  · intro hpages hoff f hf hlt
    obtain ⟨hb₂, hw₂⟩ := mapWindows_spec hb₁ hpages hrun₂
    obtain ⟨-, hw₃⟩ := mapVgas_spec hb₂ hoff hrun₃
    rw [Windowed, walk, hmem₂]
    exact hw₃ f hlt (hw₂ f hf)
  · rw [hmem₂]
    intro f hf
    have htable := hb₃.tables hf
    refine ⟨by rw [hfree]; exact Or.inl htable, fun hD => ?_⟩
    exact lt_irrefl f (hcut.above f hD f htable)
  · have hdisjoint : Disjoint (freeFrames kt₀.memMap) D :=
      Set.disjoint_left.mpr fun f hf hD => lt_irrefl f (hcut.above f hD f hf)
    have hfinite : D.Finite := by
      refine (freeFrames_finite c.bootMap.memMap).subset fun f hf => ?_
      show f ∈ freeOf c
      rw [hfree]
      exact Or.inr hf
    rw [hfree, Set.ncard_union_eq hdisjoint (freeFrames_finite _) hfinite, hcard]
  · intro f hf
    have hnot : f ∉ freeFrames kt₀.memMap := fun hm => lt_irrefl f (hcut.above f hf f hm)
    refine ⟨by rw [hfree]; exact Or.inr hf, ?_, ?_⟩
    · rw [hmem₂, hb₃.outside f hnot, hmem]
    · have heq := hcut.freeBelow_eq hf
      rw [hcard] at heq
      exact heq

/-! ## A small machine -/

def smallStart : Start where
  physbase := 0x200000
  physfree := 0x220000
  entries := [⟨0x110000, 0x10000, 1⟩]
  memory := fun _ => 0
  mem := fun _ _ => 0
  stack := 0
  rsp := 0
  initSh := ⟨[], by decide⟩

/-- With one usable entry, above low memory and away from the kernel, its pages are free. -/
theorem mem_freeOf_single {c : Start} {e : BootMap.Smap} (hc : c.entries = [e]) (hu : e.Usable)
    (hlow : 256 < e.firstPage) (hhigh : e.lastPage < FRAMES)
    (hr : ∀ f, e.firstPage ≤ f → f ≤ e.lastPage → ¬ BootMap.Reserved c.physbase c.physfree f) (f : Nat) :
    f ∈ freeOf c ↔ e.firstPage ≤ f ∧ f ≤ e.lastPage := by
  have hfree := fun hf => BootMap.free_iff c.physbase c.physfree c.entries c.memory (f := f) hf
  constructor
  · rintro ⟨hf, hset⟩
    rcases (hfree hf).mp hset with ⟨-, e', he, hreach⟩ | ⟨rfl, e', he, hreach⟩
    · rw [hc, List.mem_singleton] at he
      subst he
      exact ⟨hreach.2.1, hreach.2.2.1⟩
    · have hlast : BootMap.lastUsable [e] = some e := by simp [BootMap.lastUsable, hu]
      rw [hc, hlast] at he
      obtain rfl := Option.some.inj he
      exact ⟨hreach.2.1, hreach.2.2.1⟩
  · rintro ⟨hfirst, hlast⟩
    have hf : f < FRAMES := hlast.trans_lt hhigh
    refine ⟨hf, (hfree hf).mpr (Or.inl ⟨hlow.trans_le hfirst, e, ?_, hu, hfirst, hlast, hr f hfirst hlast⟩)⟩
    rw [hc]
    exact List.mem_singleton_self e

theorem mem_freeOf_small (f : Nat) : f ∈ freeOf smallStart ↔ 272 ≤ f ∧ f ≤ 288 := by
  have hlast : (⟨0x110000, 0x10000, 1⟩ : BootMap.Smap).lastPage = 288 := by decide
  refine mem_freeOf_single (c := smallStart) (e := ⟨0x110000, 0x10000, 1⟩) rfl (by decide) (by decide)
    (by decide) ?_ f
  intro f _ hle
  rw [hlast] at hle
  rw [BootMap.Reserved, PHYS_PAGE_SIZE, show smallStart.physbase.toNat = 2097152 from rfl]
  omega

theorem ncard_freeOf_small : (freeOf smallStart).ncard = 17 := by
  have hset : freeOf smallStart = ↑(Finset.Icc 272 288) := by
    ext f
    rw [mem_freeOf_small, Finset.coe_Icc, Set.mem_Icc]
  rw [hset, Set.ncard_coe_finset]
  rfl

theorem small_maxPhys : smallStart.bootMap.maxPhys = 0x120000 := by
  rw [Start.bootMap, BootMap.initMemMgmt, show smallStart.entries = [⟨0x110000, 0x10000, 1⟩] from rfl,
    List.foldl_cons, List.foldl_nil, initEntry_maxPhys, if_pos (by decide)]
  rfl

theorem small_vga : vgaOf smallStart = kernmem + BitVec.ofNat 64 (45 * 0x1000) := by
  rw [vgaOf, vgaVirt]
  exact (by decide : kernmem + BitVec.ofNat 64 (kernelPages 0x200000 (kerPhysfree 0x220000) * 0x1000) =
    kernmem + BitVec.ofNat 64 (45 * 0x1000))

/-- A last table holds 512 pages of the window. -/
theorem pathOf_windowBlock {i : Nat} (hi : i < 65536) :
    pathOf (windowPage i) = pathOf (windowPage (i / 512 * 512)) := by
  have hv : ∀ j < 65536, (windowPage j).toNat = 18446744073441116160 + j * 0x1000 := by
    intro j hj
    rw [windowPage, BitVec.toNat_add, BitVec.toNat_ofNat,
      dumb_toNat]
    omega
  simp only [pathOf, List.cons.injEq, and_true, pml4eIndex, pdpeIndex, pdeIndex, Fin.ext_iff,
    index_val, hv i hi, hv (i / 512 * 512) (by omega)]
  omega

/-- The window pages of the first two megabytes have the same tables. -/
theorem pathOf_windowPage {i : Nat} (hi : i < 512) : pathOf (windowPage i) = pathOf DUMB_MAPPING_VIRT := by
  rw [pathOf_windowBlock (by omega), Nat.div_eq_of_lt hi]
  exact congrArg pathOf (by decide)

theorem small_vgaPage (i : Nat) : vgaPage (kernmem + BitVec.ofNat 64 (45 * 0x1000)) i =
    kernmem + BitVec.ofNat 64 ((45 + i) * 0x1000) := by
  rw [vgaPage, BitVec.add_assoc, ← BitVec.ofNat_add, Nat.add_mul]

theorem card_windowTables {m : Nat} (hm : m ≤ 65536) : (tablesUpTo windowPage m).card ≤ 4 * (m / 512 + 1) := by
  have hsub : tablesUpTo windowPage m ⊆ tablesUpTo (fun b => windowPage (b * 512)) (m / 512 + 1) := by
    refine tablesUpTo_subset fun i hi q hq => Finset.mem_biUnion.mpr ⟨i / 512, ?_, ?_⟩
    · rw [Finset.mem_range]
      omega
    · rw [tablesOf, pathOf_windowBlock (by omega), ← tablesOf] at hq
      exact hq
  refine (Finset.card_le_card hsub).trans ?_
  refine (Finset.card_biUnion_le_card_mul _ _ 4 fun b _ => (tablesOf_card _).le).trans ?_
  rw [Finset.card_range, Nat.mul_comm]

/-- Behind this kernel the screen has the image's tables, and a window of two megabytes at
most has one path. -/
theorem identityTables_low {maxPhys : Word} (h : windowPages maxPhys ≤ 512) :
    identityTables (vgaOf smallStart) maxPhys ⊆ tablesOf kernmem ∪ tablesOf DUMB_MAPPING_VIRT := by
  have hvga : vgaPages = 4 := by decide
  rw [identityTables, small_vga]
  refine Finset.union_subset (Finset.union_subset Finset.subset_union_left ?_) ?_
  · refine (tablesUpTo_subset fun i hi => ?_).trans Finset.subset_union_right
    rw [tablesOf, pathOf_windowPage (by omega), tablesOf]
  · refine (tablesUpTo_subset fun i hi => ?_).trans Finset.subset_union_left
    rw [tablesOf, small_vgaPage, KernelImage.pathOf_image (by omega), tablesOf]

theorem small_tables : tablesOfStart smallStart ⊆ tablesOf kernmem ∪ tablesOf DUMB_MAPPING_VIRT := by
  rw [tablesOfStart, small_maxPhys]
  exact identityTables_low (by decide)

end BootPages
