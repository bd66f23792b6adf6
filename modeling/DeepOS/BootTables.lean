import DeepOS.Boot

/-!
# The tables left by booting

`map_kernel` builds a tree with one path, and `map` does by physical addresses
what `map_process_specific` does through the window. All tables are taken from
the frames that are free at the start, so a window over these frames is a window
over every frame that is free or a table afterwards.
-/
namespace BootTables

open PhyMem TaskTable PageTable PageMap VirtAlloc Process AddressSpace TaskPages LoadImage Boot
  KernelInvariant
open BootMap (Smap initMemMgmt kerPhysfree)
open RadixForest (follow leaf nodes Forest TreeIn put)

/-- The tree at `r` is well formed and, like the free frames, lies within the
frames that are free in `k₀`; no other frame has been written. -/
structure Building (k₀ : Kernel) (r : Nat) (k : Kernel) : Prop where
  inv : MemInv {r} k
  free : freeFrames k.memMap ⊆ freeFrames k₀.memMap
  tables : nodes next 3 k.mem {r} ⊆ freeFrames k₀.memMap
  low : ∀ f ∈ freeFrames k₀.memMap, f < WINDOW_FRAMES
  outside : ∀ f, f ∉ freeFrames k₀.memMap → k.mem f = k₀.mem f
  same : SameTasks k₀ k

variable {r : Nat} {k₀ k k' : Kernel}

theorem Building.free_low (h : Building k₀ r k) : ∀ f ∈ freeFrames k.memMap, f < WINDOW_FRAMES :=
  fun f hf => h.low f (h.free hf)

theorem Building.grows {taken : Set Nat} (h : Building k₀ r k) (hg : Grows {r} k k' taken) :
    Building k₀ r k' := by
  have hnodes : nodes next 3 k'.mem {r} ⊆ freeFrames k₀.memMap := by
    rw [hg.nodes]
    exact Set.union_subset h.tables (hg.taken_free.trans h.free)
  refine ⟨hg.inv, ?_, hnodes, h.low, ?_, h.same.trans hg.same⟩
  · rw [hg.free]
    exact Set.sdiff_subset.trans h.free
  · intro f hf
    rw [← h.outside f hf]
    funext i
    rcases hg.entries f i with he | ⟨-, -, hm⟩
    · exact he
    · exact absurd (hnodes hm) hf

theorem Building.maps {taken : Set Nat} {v p : Word} (h : Building k₀ r k)
    (hm : Maps {r} r v p k k' taken) : Building k₀ r k' := by
  have hnodes : nodes next 3 k'.mem {r} ⊆ freeFrames k₀.memMap := by
    rw [hm.nodes]
    exact Set.union_subset h.tables (hm.taken_free.trans h.free)
  refine ⟨hm.inv, ?_, hnodes, h.low, ?_, h.same.trans hm.same⟩
  · rw [hm.free]
    exact Set.sdiff_subset.trans h.free
  · intro f hf
    rw [hm.outside f (fun hn => hf (hnodes hn)), h.outside f hf]

/-! ## The path of the kernel -/

/-- A frame without present entries is a tree of one table. -/
theorem building_root {g : Nat} (h0 : 0 ∉ freeFrames k.memMap)
    (hblank : ∀ f ∈ freeFrames k.memMap, ∀ i, isPresent (k.mem f i) = false)
    (hlow : ∀ f ∈ freeFrames k.memMap, f < WINDOW_FRAMES) (hg : g ∈ freeFrames k.memMap) :
    Building k g { k with memMap := mmapUnset k.memMap g } := by
  have hfollow : ∀ p f, follow next k.mem g p = some f → p = [] ∧ f = g := by
    intro p f hf
    cases p with
    | nil => exact ⟨rfl, (Option.some.inj hf).symm⟩
    | cons i p =>
      rw [follow, next_eq_none (hblank g hg i)] at hf
      cases hf
  have hnodes : ∀ f ∈ nodes next 3 k.mem {g}, f = g := by
    rintro f ⟨r, rfl, p, -, hf⟩
    exact (hfollow p f hf).2
  have hsub : freeFrames (mmapUnset k.memMap g) ⊆ freeFrames k.memMap := by
    rw [freeFrames_unset]
    exact Set.sdiff_subset
  refine ⟨⟨?_, ?_, ?_, fun hm => h0 (hsub hm), fun f hf => hblank f (hsub hf)⟩, hsub, ?_, hlow,
    fun _ _ => rfl, ⟨rfl, rfl, rfl⟩⟩
  · rintro r rfl r' rfl p p' f - - hf hf'
    exact ⟨rfl, (hfollow p f hf).1.trans (hfollow p' f hf').1.symm⟩
  · intro f hf
    rw [hnodes f hf]
    exact hlow g hg
  · intro f hf hfree
    rw [freeFrames_unset, hnodes f hf] at hfree
    exact hfree.2 rfl
  · intro f hf
    rw [hnodes f hf]
    exact hg

/-- A table is taken from the allocator and linked into an empty one. -/
theorem newTable_spec {q : List (Fin 512)} {table t : Word} {i : Fin 512} (h : Building k₀ r k)
    (hq : q.length < 3) (hx : follow next k.mem r q = some (frameOf table))
    (hblank : ∀ j, isPresent (k.mem (frameOf table) j) = false)
    (hs : newTable k table i = some (t, k')) :
    Building k₀ r k' ∧ follow next k'.mem r (q ++ [i]) = some (frameOf t) ∧
      ∀ j, isPresent (k'.mem (frameOf t) j) = false := by
  rw [newTable, Option.map_eq_some_iff] at hs
  obtain ⟨⟨p, k₁⟩, halloc, hres⟩ := hs
  obtain ⟨rfl, rfl⟩ := Prod.mk.inj hres
  obtain ⟨g, hg, rfl, rfl⟩ := pageAlloc_some halloc
  obtain ⟨hgrow, hfollow⟩ := grows_link h.inv rfl hq hx (hblank i) hg.1 (h.free_low g hg.1)
  have hframe : frameOf (frameAddr g) = g := frameOf_frameAddr (freeFrames_lt hg.1)
  refine ⟨h.grows hgrow, by rw [hframe]; exact hfollow, fun j => ?_⟩
  have hne : g ≠ frameOf table := by
    intro he
    exact h.inv.used _ (RadixForest.mem_nodes rfl hq.le hx) (he ▸ hg.1)
  simp only [putPhys]
  rw [hframe, RadixForest.put_of_ne _ hne]
  exact h.inv.blank g hg.1 j

/-- Writing entries of a last table. -/
theorem building_putPhys {q : List (Fin 512)} {table : Word} (h : Building k₀ r k) (hq : q.length = 3)
    (hx : follow next k.mem r q = some (frameOf table)) (i : Fin 512) (e : Word) :
    Building k₀ r (putPhys k table i e) ∧
      follow next (putPhys k table i e).mem r q = some (frameOf table) := by
  have hfollow : ∀ r' ∈ ({r} : Set Nat), ∀ p : List (Fin 512), p.length ≤ 3 →
      follow next (putPhys k table i e).mem r' p = follow next k.mem r' p :=
    fun r' hr' p hp => RadixForest.follow_set h.inv.forest rfl hx hq hr' hp
  have hnodes := RadixForest.nodes_congr hfollow
  have hmem : frameOf table ∈ nodes next 3 k.mem {r} := RadixForest.mem_nodes rfl hq.le hx
  have hput : ∀ f, f ≠ frameOf table → (putPhys k table i e).mem f = k.mem f :=
    fun f hf => RadixForest.put_of_ne _ hf _ _
  refine ⟨⟨⟨h.inv.forest.congr hfollow, ?_, ?_, h.inv.zero, ?_⟩, h.free, ?_, h.low, ?_,
    h.same.trans ⟨rfl, rfl, rfl⟩⟩, ?_⟩
  · rw [hnodes]; exact h.inv.below
  · rw [hnodes]; exact h.inv.used
  · intro f hf j
    rw [hput f (by rintro rfl; exact h.inv.used _ hmem hf)]
    exact h.inv.blank f hf j
  · rw [hnodes]; exact h.tables
  · intro f hf
    rw [hput f (by rintro rfl; exact hf (h.tables hmem)), h.outside f hf]
  · rw [hfollow r rfl q hq.le]
    exact hx

theorem mapKernelPages_spec {q : List (Fin 512)} {pt physbase : Word} (hq : q.length = 3)
    (pages : List Nat) : ∀ {k : Kernel}, Building k₀ r k → follow next k.mem r q = some (frameOf pt) →
      Building k₀ r (pages.foldl (mapKernelPage pt physbase) k) ∧
        follow next (pages.foldl (mapKernelPage pt physbase) k).mem r q = some (frameOf pt) := by
  induction pages with
  | nil => exact fun h hx => ⟨h, hx⟩
  | cons i pages ih =>
    intro k h hx
    obtain ⟨h', hx'⟩ := building_putPhys h hq hx (ptIndex (kernmem + BitVec.ofNat 64 (i * 0x1000)))
      (mkEntry (physbase + BitVec.ofNat 64 (i * 0x1000)))
    exact ih h' hx'

/-- An allocator that gives out a frame does not hold frame 0. -/
theorem zero_not_free {p : Word} (h : k.pageAlloc = some (p, k')) : 0 ∉ freeFrames k.memMap := by
  intro h0
  obtain ⟨g, hg, -⟩ := pageAlloc_some h
  obtain rfl : g = 0 := Nat.le_zero.mp (hg.2 h0)
  rw [Kernel.pageAlloc, pageAlloc_least hg] at h
  exact absurd h (by simp [frameAddr])

theorem mapKernelPages_memMap (pt physbase : Word) (pages : List Nat) (k : Kernel) :
    (pages.foldl (mapKernelPage pt physbase) k).memMap = k.memMap := by
  induction pages generalizing k with
  | nil => rfl
  | cons i pages ih => exact ih _

theorem newTable_free {table t : Word} {i : Fin 512} (hs : newTable k table i = some (t, k')) :
    (freeFrames k'.memMap).ncard + 1 = (freeFrames k.memMap).ncard := by
  rw [newTable, Option.map_eq_some_iff] at hs
  obtain ⟨⟨p, k₁⟩, halloc, hres⟩ := hs
  obtain ⟨rfl, rfl⟩ := Prod.mk.inj hres
  obtain ⟨g, hg, rfl, rfl⟩ := pageAlloc_some halloc
  rw [putPhys, freeFrames_unset]
  exact Set.ncard_sdiff_singleton_add_one hg.1 (freeFrames_finite _)

/-- `map_kernel` makes one path of four tables, and its loop writes into the last. -/
theorem mapKernel_stages {pml4e physbase physfree : Word}
    (hblank : ∀ f ∈ freeFrames k.memMap, ∀ i, isPresent (k.mem f i) = false)
    (hlow : ∀ f ∈ freeFrames k.memMap, f < WINDOW_FRAMES)
    (hs : mapKernel k physbase physfree = some (pml4e, k')) :
    0 ∉ freeFrames k.memMap ∧ (freeFrames k'.memMap).ncard + 4 = (freeFrames k.memMap).ncard ∧
      ∃ pt k₁, Building k (frameOf pml4e) k₁ ∧
        follow next k₁.mem (frameOf pml4e) (pathOf kernmem) = some (frameOf pt) ∧
        (∀ j, isPresent (k₁.mem (frameOf pt) j) = false) ∧ k'.memMap = k₁.memMap ∧
        k' = (List.range (kernelPages physbase physfree)).foldl (mapKernelPage pt physbase) k₁ := by
  simp only [mapKernel, bind, Option.bind_eq_some_iff] at hs
  obtain ⟨⟨p₀, k₀⟩, h₀, ⟨p₁, k₁⟩, h₁, ⟨p₂, k₂⟩, h₂, ⟨p₃, k₃⟩, h₃, hs⟩ := hs
  obtain ⟨rfl, rfl⟩ := Prod.mk.inj (Option.some.inj hs)
  have hzero := zero_not_free h₀
  obtain ⟨g, hg, rfl, rfl⟩ := pageAlloc_some h₀
  have hframe : frameOf (frameAddr g) = g := frameOf_frameAddr (freeFrames_lt hg.1)
  have hb₀ := building_root hzero hblank hlow hg.1
  obtain ⟨hb₁, hx₁, hblank₁⟩ := newTable_spec (q := []) hb₀ (by decide)
    (by rw [hframe]; rfl) (by rw [hframe]; exact hblank g hg.1) h₁
  obtain ⟨hb₂, hx₂, hblank₂⟩ := newTable_spec hb₁ (by decide) hx₁ hblank₁ h₂
  obtain ⟨hb₃, hx₃, hblank₃⟩ := newTable_spec hb₂ (by decide) hx₂ hblank₂ h₃
  have hmap := mapKernelPages_memMap p₃ physbase (List.range (kernelPages physbase physfree)) k₃
  refine ⟨hzero, ?_, p₃, k₃, hframe.symm ▸ hb₃, ?_, hblank₃, hmap, rfl⟩
  · have hroot : (freeFrames (mmapUnset k.memMap g)).ncard + 1 = (freeFrames k.memMap).ncard := by
      rw [freeFrames_unset]
      exact Set.ncard_sdiff_singleton_add_one hg.1 (freeFrames_finite _)
    have hfree₁ := newTable_free h₁
    have hfree₂ := newTable_free h₂
    have hfree₃ := newTable_free h₃
    dsimp only at hfree₁ hfree₂ hfree₃
    rw [hmap]
    omega
  · rw [hframe]
    exact hx₃

theorem mapKernel_spec {pml4e physbase physfree : Word}
    (hblank : ∀ f ∈ freeFrames k.memMap, ∀ i, isPresent (k.mem f i) = false)
    (hlow : ∀ f ∈ freeFrames k.memMap, f < WINDOW_FRAMES)
    (hs : mapKernel k physbase physfree = some (pml4e, k')) :
    0 ∉ freeFrames k.memMap ∧ Building k (frameOf pml4e) k' := by
  obtain ⟨hzero, -, pt, k₁, hb, hx, -, -, rfl⟩ := mapKernel_stages hblank hlow hs
  exact ⟨hzero, (mapKernelPages_spec (pathOf_length kernmem) _ hb hx).1⟩

/-! ## Mapping by physical addresses -/

def descendPhys : Kernel → Word → List (Fin 512) → Option (Word × Kernel)
  | k, table, [] => some (table, k)
  | k, table, i :: p => (bootTable k table i).bind fun r => descendPhys r.2 r.1 p

theorem map_descendPhys (pml4e : Word) (k : Kernel) (v p : Word) :
    map pml4e k v p = (descendPhys k pml4e (pathOf v)).map fun r =>
      putPhys r.2 r.1 (ptIndex v) (mkEntry p) := by
  simp only [map, descendPhys, pathOf, bind]
  cases bootTable k pml4e (pml4eIndex v) with
  | none => rfl
  | some r =>
    simp only [Option.bind_some]
    cases bootTable r.2 r.1 (pdpeIndex v) with
    | none => rfl
    | some r' =>
      simp only [Option.bind_some]
      cases bootTable r'.2 r'.1 (pdeIndex v) with
      | none => rfl
      | some r'' => rfl

/-- One level, seen through the window. -/
theorem nextTable_phys {q : List (Fin 512)} {table : Word} (h : Building k₀ r k) (hq : q.length < 3)
    (hx : follow next k.mem r q = some (frameOf table)) (i : Fin 512) :
    nextTable k (iPhyToVirt table) i = (bootTable k table i).map fun s => (iPhyToVirt s.1, s.2) := by
  rw [nextTable, bootTable, Kernel.entry, frameAt_iPhyToVirt]
  cases hp : isPresent (k.mem (frameOf table) i) with
  | true =>
    have hnode : frameOf (k.mem (frameOf table) i) ∈ nodes next 3 k.mem {r} := by
      refine RadixForest.mem_nodes rfl
        (by rw [List.length_append, List.length_singleton]; omega : (q ++ [i]).length ≤ 3) ?_
      rw [RadixForest.follow_snoc, hx, Option.bind_some, next_eq_some hp]
    have hlow : frameOf (getAddress (k.mem (frameOf table) i)) < WINDOW_FRAMES := by
      rw [frameOf_getAddress]
      exact h.inv.below _ hnode
    simp only [if_true, Option.map_some, or_window hlow]
  | false =>
    simp only [Bool.false_eq_true, if_false, newTable, Option.map_map]
    cases halloc : k.pageAlloc with
    | none => rw [Option.map_none, Option.map_none]
    | some s =>
      obtain ⟨p, k₁⟩ := s
      obtain ⟨g, hg, rfl, -⟩ := pageAlloc_some halloc
      have hlow : frameOf (frameAddr g) < WINDOW_FRAMES := by
        rw [frameOf_frameAddr (freeFrames_lt hg.1)]
        exact h.free_low g hg.1
      simp only [Option.map_some, Function.comp_apply, or_window hlow, Kernel.setEntry,
        frameAt_iPhyToVirt, putPhys]

theorem descend_phys (p : List (Fin 512)) : ∀ {k : Kernel} {table : Word} {q : List (Fin 512)},
    Building k₀ r k → q.length + p.length = 3 → follow next k.mem r q = some (frameOf table) →
    descend k (iPhyToVirt table) p = (descendPhys k table p).map fun s => (iPhyToVirt s.1, s.2) := by
  induction p with
  | nil => intro k table q _ _ _; rfl
  | cons i p ih =>
    intro k table q h hlen hx
    rw [List.length_cons] at hlen
    have hnext := nextTable_phys h (by omega : q.length < 3) hx i
    rw [descend, descendPhys, hnext]
    cases hb : bootTable k table i with
    | none => rfl
    | some s =>
      rw [hb, Option.map_some] at hnext
      have hx' : follow next k.mem r q = some (frameAt (iPhyToVirt table)) := by
        rw [frameAt_iPhyToVirt]; exact hx
      obtain ⟨hx₁, hcase⟩ := nextTable_spec h.inv rfl (by omega) hx' (fun _ => Or.inl h.free_low) hnext
      rw [frameAt_iPhyToVirt] at hx₁
      have hb₁ : Building k₀ r s.2 := by
        rcases hcase with ⟨-, heq⟩ | ⟨-, -, hgrow, -⟩
        · rw [heq]; exact h
        · exact h.grows hgrow
      simp only [Option.map_some, Option.bind_some]
      exact ih hb₁ (by rw [List.length_append, List.length_singleton]; omega) hx₁

/-- While the tables lie below 256 MB, `map` does what `map_process_specific` does. -/
theorem map_eq {pml4e : Word} (h : Building k₀ (frameOf pml4e) k) (v p : Word) :
    map pml4e k v p = mapProcessSpecific k v p (iPhyToVirt pml4e) none := by
  rw [map_descendPhys, mapProcessSpecific_eq, charge, descend_phys (pathOf v) (q := []) h rfl rfl,
    Option.map_map]
  refine congrArg (fun f => Option.map f _) (funext fun s => ?_)
  simp only [Function.comp_apply, Kernel.setEntry, frameAt_iPhyToVirt, putPhys]

theorem map_spec {pml4e v p : Word} (h : Building k₀ (frameOf pml4e) k)
    (hs : map pml4e k v p = some k') :
    Building k₀ (frameOf pml4e) k' ∧ ∀ a, walk k' (frameOf pml4e) a =
      if vpn a = vpn v then some (mkEntry p) else walk k (frameOf pml4e) a := by
  rw [map_eq h] at hs
  obtain ⟨taken, hmaps, -⟩ := mapProcessSpecific_spec h.inv (by rw [frameAt_iPhyToVirt]; rfl)
    (Or.inl h.free_low) hs
  rw [frameAt_iPhyToVirt] at hmaps
  refine ⟨h.maps hmaps, fun a => ?_⟩
  rw [hmaps.walks _ rfl]
  simp only [true_and]

/-! ## The window -/

theorem window_eq (i : Nat) : DUMB_MAPPING_VIRT + BitVec.ofNat 64 (i * 0x1000) = window i := by
  rw [window, iPhyToVirt, frameAddr, PHYS_PAGE_SIZE, BitVec.add_comm]

/-- The numbers of the window pages, also of those that have wrapped around. -/
theorem vpn_windowPage (f : Nat) : vpn (window f) = (2 ^ 36 - 65536 + f) % 2 ^ 36 := by
  rw [vpn, window, iPhyToVirt, frameAddr, PHYS_PAGE_SIZE, BitVec.toNat_add, BitVec.toNat_ofNat,
    dumb_toNat]
  omega

theorem vpn_windowPage_inj {f g : Nat} (hf : f < 2 ^ 36) (hg : g < 2 ^ 36)
    (h : vpn (window f) = vpn (window g)) : f = g := by
  rw [vpn_windowPage, vpn_windowPage] at h
  omega

theorem mapWindows_spec {pml4e : Word} {n : Nat} (h : Building k₀ (frameOf pml4e) k)
    (hn : n ≤ 2 ^ 36) (hs : Transition.run (mapWindow pml4e) k (List.range n) = some k') :
    Building k₀ (frameOf pml4e) k' ∧ ∀ f < n, Windowed k' (frameOf pml4e) f := by
  have hloop := Transition.run_loop (P := fun done k' => Building k₀ (frameOf pml4e) k' ∧
    ∀ f ∈ done, Windowed k' (frameOf pml4e) f) _ ?_ ⟨h, by simp⟩ hs
  · exact ⟨hloop.1, fun f hf => hloop.2 f (List.mem_range.mpr hf)⟩
  rintro done i rest k₁ k₂ hrange ⟨hb, hwin⟩ hstep
  rw [mapWindow, window_eq] at hstep
  obtain ⟨hb', hwalk⟩ := map_spec hb hstep
  have hlt : ∀ f ∈ done ++ [i], f < 2 ^ 36 := by
    intro f hf
    have hm : f ∈ List.range n := by
      rw [← hrange]
      rcases List.mem_append.mp hf with hf | hf
      · exact List.mem_append_left _ hf
      · exact List.mem_append_right _ (by rw [List.mem_singleton.mp hf]; exact List.mem_cons_self ..)
    exact (List.mem_range.mp hm).trans_le hn
  refine ⟨hb', fun f hf => ?_⟩
  rw [Windowed, hwalk]
  by_cases hfi : f = i
  · rw [if_pos (by rw [hfi]), hfi]
    rfl
  · have hdone : f ∈ done := by
      rcases List.mem_append.mp hf with hf | hf
      · exact hf
      · exact absurd (List.mem_singleton.mp hf) hfi
    rw [if_neg (fun hv => hfi (vpn_windowPage_inj (hlt f hf) (hlt i (by simp)) hv))]
    exact hwin f hdone

/-- Pages away from the window leave it alone. -/
theorem mapVgas_spec {pml4e vga : Word} {n : Nat} (h : Building k₀ (frameOf pml4e) k)
    (hoff : ∀ i < n, ∀ f < WINDOW_FRAMES, vpn (vga + BitVec.ofNat 64 (i * 0x1000)) ≠ vpn (window f))
    (hs : Transition.run (mapVga pml4e vga) k (List.range n) = some k') :
    Building k₀ (frameOf pml4e) k' ∧
      ∀ f < WINDOW_FRAMES, Windowed k (frameOf pml4e) f → Windowed k' (frameOf pml4e) f := by
  refine Transition.run_loop (P := fun _ k' => Building k₀ (frameOf pml4e) k' ∧
    ∀ f < WINDOW_FRAMES, Windowed k (frameOf pml4e) f → Windowed k' (frameOf pml4e) f) _ ?_
    ⟨h, fun _ _ hw => hw⟩ hs
  rintro done i rest k₁ k₂ hrange ⟨hb, hwin⟩ hstep
  obtain ⟨hb', hwalk⟩ := map_spec hb hstep
  have hi : i < n := List.mem_range.mp (hrange ▸ List.mem_append_right _ (List.mem_cons_self ..))
  refine ⟨hb', fun f hf hw => ?_⟩
  rw [Windowed, hwalk, if_neg (fun hv => hoff i hi f hf hv.symm)]
  exact hwin f hf hw

/-! ## From the memory map to the window -/

theorem maxPhys_foldl {α : Type} (f : BootMap.MapState → α → BootMap.MapState)
    (hf : ∀ s a, (f s a).maxPhys = s.maxPhys) (l : List α) (s : BootMap.MapState) :
    (l.foldl f s).maxPhys = s.maxPhys := by
  induction l generalizing s with
  | nil => rfl
  | cons a l ih => rw [List.foldl_cons, ih, hf]

/-- `max_phys` is the limit of the last usable entry. -/
theorem initEntry_maxPhys (physbase physfree : Word) (s : BootMap.MapState) (e : Smap) :
    (BootMap.initEntry physbase physfree s e).maxPhys =
      if e.Usable then e.base + e.length else s.maxPhys := by
  rw [BootMap.initEntry]
  split
  · rw [BootMap.initRegion, maxPhys_foldl, maxPhys_foldl]
    · rfl
    · intro s page
      split <;> rfl
    · exact fun _ _ => rfl
  · rfl

theorem maxPhys_cases (physbase physfree : Word) (entries : List Smap) (s : BootMap.MapState) :
    (entries.foldl (BootMap.initEntry physbase physfree) s).maxPhys = s.maxPhys ∨
      ∃ e ∈ entries, e.Usable ∧
        (entries.foldl (BootMap.initEntry physbase physfree) s).maxPhys = e.base + e.length := by
  induction entries generalizing s with
  | nil => exact Or.inl rfl
  | cons e es ih =>
    rw [List.foldl_cons]
    rcases ih (BootMap.initEntry physbase physfree s e) with heq | ⟨e', he', hu, heq⟩
    · rw [heq, initEntry_maxPhys]
      split
      · rename_i hu
        exact Or.inr ⟨e, List.mem_cons_self .., hu, rfl⟩
      · exact Or.inl rfl
    · exact Or.inr ⟨e', List.mem_cons_of_mem e he', hu, heq⟩

/-- What is promised about the machine: RAM and the kernel lie below 256 MB, the
last usable entry of the memory map ends highest, free RAM holds zeros, and
`init_sh` can be loaded. -/
structure StartOk (c : Start) : Prop where
  below : ∀ e ∈ c.entries, e.Usable → (e.base + e.length).toNat < 2 ^ 28
  kernel : c.physfree.toNat < 2 ^ 28
  highest : ∀ e ∈ c.entries, e.Usable → (e.base + e.length).toNat ≤ c.bootMap.maxPhys.toNat
  zero : ∀ f ∈ freeFrames c.bootMap.memMap, c.mem f = fun _ => 0
  image : ImageOk c.initSh

variable {c : Start}

theorem StartOk.maxPhys_lt (h : StartOk c) : c.bootMap.maxPhys.toNat < 2 ^ 28 := by
  rcases maxPhys_cases c.physbase c.physfree c.entries ⟨BootMap.initializeMemMap c.memory, 0, []⟩
    with heq | ⟨e, he, hu, heq⟩
  · rw [Start.bootMap, initMemMgmt, heq]
    exact (by decide : (0 : Word).toNat < 2 ^ 28)
  · rw [Start.bootMap, initMemMgmt, heq]
    exact h.below e he hu

/-- The window reaches every free frame. -/
theorem StartOk.free_le (h : StartOk c) {f : Nat} (hf : f ∈ freeFrames c.bootMap.memMap) :
    f < c.bootMap.maxPhys.toNat / 0x1000 + 1 := by
  have hlast : ∀ e ∈ c.entries, e.Reaches c.physbase c.physfree f →
      f < c.bootMap.maxPhys.toNat / 0x1000 + 1 := by
    rintro e he ⟨hu, -, hle, -⟩
    have hmax := h.highest e he hu
    rw [Smap.lastPage, PHYS_PAGE_SIZE] at hle
    omega
  rcases (BootMap.free_iff c.physbase c.physfree c.entries c.memory hf.1).mp hf.2 with
    ⟨-, e, he, hr⟩ | ⟨rfl, -⟩
  · exact hlast e he hr
  · omega

theorem StartOk.free_low (h : StartOk c) {f : Nat} (hf : f ∈ freeFrames c.bootMap.memMap) :
    f < WINDOW_FRAMES := by
  have hle := h.free_le hf
  have hlt := h.maxPhys_lt
  rw [WINDOW_FRAMES]
  omega

/-- The pages behind the kernel lie below the window. -/
theorem StartOk.behind_kernel (h : StartOk c) {i : Nat} (hi : i < 16) {f : Nat}
    (hf : f < WINDOW_FRAMES) :
    vpn (vgaVirt c.physbase (kerPhysfree c.physfree) + BitVec.ofNat 64 (i * 0x1000)) ≠
      vpn (window f) := by
  have hlt := h.kernel
  have hfree : (PHYSBASE_OFFSET + kerPhysfree c.physfree).toNat = c.physfree.toNat + 51200 := by
    rw [kerPhysfree, BitVec.toNat_add, BitVec.toNat_add, MEM_MAP_SIZE,
      show PHYSBASE_OFFSET.toNat = 18432 from rfl, BitVec.toNat_ofNat]
    omega
  have hpages : kernelPages c.physbase (kerPhysfree c.physfree) < 65600 := by
    rw [kernelPages, hfree]
    omega
  rw [vpn_window hf, vpn, vgaVirt, BitVec.toNat_add, BitVec.toNat_add, BitVec.toNat_ofNat,
    BitVec.toNat_ofNat, show kernmem.toNat = 18446744071564165120 from rfl]
  rw [WINDOW_FRAMES] at hf
  omega

theorem StartOk.blank (h : StartOk c) : ∀ f ∈ freeFrames c.kernel.memMap, ∀ i,
    isPresent (c.kernel.mem f i) = false := by
  intro f hf i
  rw [show c.kernel.mem f = fun _ => 0 from h.zero f hf]
  exact (by decide : isPresent 0 = false)

/-- Behind `identity_mapping` the kernel's tables are in use and map the window. -/
theorem identityMapping_spec {pml4e : Word} (h : StartOk c)
    (hkernel : mapKernel c.kernel c.physbase (kerPhysfree c.physfree) = some (pml4e, k))
    (hident : identityMapping pml4e (vgaVirt c.physbase (kerPhysfree c.physfree)) c.bootMap.maxPhys k =
      some k') :
    Sound {k'.cr3} k' ∧ k'.tasks = (fun _ => TaskMem.zero) ∧
      core {k'.cr3} k' ⊆ freeFrames c.bootMap.memMap ∧
      ∀ f, f ∉ freeFrames c.bootMap.memMap → k'.mem f = c.mem f := by
  obtain ⟨hzero, hb₁⟩ := mapKernel_spec h.blank (fun f hf => h.free_low hf) hkernel
  simp only [identityMapping, bind, Option.bind_eq_some_iff, Option.some.injEq] at hident
  obtain ⟨k₃, hwin, k₄, hvga, rfl⟩ := hident
  have hmax := h.maxPhys_lt
  obtain ⟨hb₃, hw₃⟩ := mapWindows_spec hb₁ (by omega) hwin
  obtain ⟨hb₄, hw₄⟩ := mapVgas_spec hb₃
    (fun i hi f hf => h.behind_kernel (by omega) hf) hvga
  -- every core frame was free at the start, and the window covers these
  have hcore : core {frameOf pml4e} k₄ ⊆ freeFrames c.kernel.memMap := by
    rintro f (hf | hf)
    · exact hb₄.free hf
    · exact hb₄.tables hf
  have hroot : frameAt (pml4e ||| DUMB_MAPPING_VIRT) = frameOf pml4e :=
    frameAt_or (hb₄.inv.below _ (RadixForest.root_mem_nodes rfl))
  have hsound : Sound {frameOf pml4e} k₄ := by
    refine ⟨hb₄.inv, hb₄.free_low, fun hm => hzero (hcore hm), ?_⟩
    rintro r rfl f hf
    exact hw₄ f (h.free_low (hcore hf)) (hw₃ f (h.free_le (hcore hf)))
  have hev : Evolves {frameOf pml4e} {frameOf pml4e} k₄
      { k₄ with curPml4eVirt := pml4e ||| DUMB_MAPPING_VIRT } := hsound.evolves_same rfl rfl
  rw [show Kernel.cr3 { k₄ with curPml4eVirt := pml4e ||| DUMB_MAPPING_VIRT } = frameOf pml4e from hroot]
  exact ⟨hev.sound, hb₄.same.tasks, hev.core.trans hcore, hb₄.outside⟩

theorem StartOk.stack_offWindow (h : StartOk c) :
    OffWindow (kernStackVirt c.physbase (kerPhysfree c.physfree)) :=
  fun _ _ hf => h.behind_kernel (i := 5) (by decide) hf

/-- After `init_mem_mgmt` the kernel also has a stack. -/
theorem initTables_spec (h : StartOk c) (hs : initTables c = some k) :
    Sound {k.cr3} k ∧ k.tasks = (fun _ => TaskMem.zero) ∧
      core {k.cr3} k ⊆ freeFrames c.bootMap.memMap ∧
      ∀ f, f ∉ freeFrames c.bootMap.memMap → k.mem f = c.mem f := by
  simp only [initTables, bind, Option.bind_eq_some_iff] at hs
  obtain ⟨⟨pml4e, k₁⟩, hkernel, k₂, hident, hstack⟩ := hs
  obtain ⟨hsound, htasks, hcore, hout⟩ := identityMapping_spec h hkernel hident
  simp only [setupKernelStack, bind, Option.bind_eq_some_iff] at hstack
  obtain ⟨⟨p, k₃⟩, halloc, hmap⟩ := hstack
  obtain ⟨hev, hq, hsame, -⟩ := allocMap_spec hsound rfl h.stack_offWindow halloc hmap
  rw [SameTasks.cr3_eq hsame]
  refine ⟨hev.sound, ?_, hev.core.trans hcore, ?_⟩
  · rw [hsame.tasks]
    exact htasks
  · intro f hf
    rw [hq f (fun hm => hf (hcore hm))]
    exact hout f hf

/-! ## The first task -/

/-- The first task runs on the kernel's tables and no other slot is in use. -/
structure FirstTask (t : Slot) (k : Kernel) : Prop where
  sound : Sound {k.cr3} k
  current : k.currentTask = some t
  live : Live k t
  tables : (k.tasks t).pml4e = k.curPml4eVirt
  data : ∀ a ∈ (k.tasks t).pages, Data {k.cr3} k k.cr3 a
  others : ∀ s, s ≠ t → (k.tasks s).status = .free ∧ ∀ i, ((k.tasks s).vma i).startAddr = 0

theorem FirstTask.works {t : Slot} (h : FirstTask t k) (hw : Works {k.cr3} t k k') :
    FirstTask t k' := by
  have hcr3 := hw.cr3
  refine ⟨by rw [hcr3]; exact hw.evolves.sound, hw.currentTask.trans h.current, ?_, ?_, ?_, ?_⟩
  · rw [Live, hw.status]
    exact h.live
  · rw [hw.pml4e, hw.curPml4eVirt]
    exact h.tables
  · intro a ha
    rw [hcr3]
    rcases hw.gained a ha with ha | hd
    · exact hw.evolves.data rfl (h.data a ha)
    · exact hd
  · intro s hs
    rw [hw.others s hs]
    exact h.others s hs

theorem FirstTask.only {t s : Slot} (h : FirstTask t k) (hs : Live k s) : s = t := by
  by_contra hne
  exact hs (h.others s hne).1

theorem FirstTask.liveRoots_eq {t : Slot} (h : FirstTask t k) : liveRoots k = {k.cr3} := by
  have hroot : root k t = k.cr3 := by rw [root, h.tables]; rfl
  ext r
  constructor
  · rintro ⟨s, hs, rfl⟩
    rw [h.only hs]
    exact hroot
  · rintro rfl
    exact ⟨t, h.live, hroot⟩

theorem FirstTask.kinv {t : Slot} (h : FirstTask t k) (hok : TaskOk (k.tasks t)) : KInv k := by
  have hlive : ∀ s, Live k s → s = t := fun s hs => h.only hs
  have hroot : root k t = k.cr3 := by rw [root, h.tables]; rfl
  have hroots := h.liveRoots_eq
  refine ⟨by rw [hroots]; exact h.sound, ⟨t, h.current, h.live, h.tables.symm⟩, ?_, ?_, ?_, ?_⟩
  · intro s hs
    rw [hlive s hs]
    exact hok
  · intro s hs a ha
    rw [hlive s hs] at ha ⊢
    rw [hroots, hroot]
    exact h.data a ha
  · intro s hs i _
    have hne : s ≠ t := by rintro rfl; exact hs h.live
    exact (h.others s hne).2 i
  · intro s u hs hu _
    rw [hlive s hs, hlive u hu]

theorem initializeTasking_spec {stack rsp : Word} (h : Sound {k.cr3} k)
    (htasks : k.tasks = fun _ => TaskMem.zero) (hs : initializeTasking k stack rsp = some k') :
    ∃ t, FirstTask t k' := by
  simp only [initializeTasking, bind, Option.bind_eq_some_iff, Option.some.injEq] at hs
  obtain ⟨t, ht, ⟨kStack, k₁⟩, halloc, rfl⟩ := hs
  have hev : Evolves {k.cr3} {k.cr3} k (enterTask (setLimits k) t) := h.evolves_same rfl rfl
  obtain ⟨g, hg, rfl, hlt, hfresh, -, htr, hgc⟩ := iVirtAlloc_page hev.sound rfl halloc
  have hcr3 : k₁.cr3 = k.cr3 := by
    rw [SameTasks.cr3_eq hfresh.same]
    rfl
  have hev₁ := hev.sound.evolves_fresh hfresh
  have hother : ∀ s, s ≠ t → k₁.tasks s = { TaskMem.zero with memLimit := DEFAULT_MEM_LIMIT } := by
    intro s hs
    rw [hfresh.same.tasks, enterTask]
    simp only [modifyTask_of_ne _ hs, setLimits, htasks]
  have hself : k₁.tasks t = { TaskMem.zero with
      memLimit := DEFAULT_MEM_LIMIT, pml4e := k.curPml4eVirt, status := .ready } := by
    rw [hfresh.same.tasks, enterTask]
    simp only [modifyTask_self, setLimits, htasks]
  have hfin : Evolves {k.cr3} {k.cr3} k₁
      (modifyTask k₁ t fun s => setBootStacks s stack (window g) rsp) := evolves_modify hev₁.sound _ _
  refine ⟨t, ?_, hfresh.same.currentTask, ?_, ?_, ?_, ?_⟩
  · change Sound {k₁.cr3} _
    rw [hcr3]
    exact hfin.sound
  · rw [Live, modifyTask_self, hself]
    exact (by decide : Status.ready ≠ Status.free)
  · rw [modifyTask_self, hself]
    exact hfresh.same.curPml4eVirt.symm
  · intro a ha
    rw [modifyTask_self, hself] at ha
    obtain rfl : a = window g := by simpa [setBootStacks, TaskMem.zero] using ha
    change Data {k₁.cr3} _ k₁.cr3 _
    rw [hcr3]
    exact ⟨g, htr, hgc⟩
  · intro s hs
    rw [modifyTask_of_ne _ hs, hother s hs]
    exact ⟨rfl, fun _ => rfl⟩

/-- The invariant holds when `init_sh` starts. -/
theorem boot_kinv (h : StartOk c) (hs : boot c = some k) : KInv k := by
  simp only [boot, bind, Option.bind_eq_some_iff] at hs
  obtain ⟨k₁, htables, k₂, htasking, hshell⟩ := hs
  obtain ⟨hsound, htasks, -, -⟩ := initTables_spec h htables
  obtain ⟨t, hfirst⟩ := initializeTasking_spec hsound htasks htasking
  rw [createShell, hfirst.current, Option.bind_some, Option.bind_eq_some_iff] at hshell
  obtain ⟨k₃, hcopy, hexec⟩ := hshell
  have hfirst₃ := hfirst.works (copyStrings_spec shellSizes hfirst.sound rfl hcopy).toWorks
  have himage : ∀ image, (shellCall c.initSh).image = some image → ImageOk image := by
    intro image hi
    rw [← Option.some.inj hi]
    exact h.image
  obtain ⟨hw, hok⟩ := kexecvpe_spec hfirst₃.sound rfl himage hexec
  exact (hfirst₃.works hw).kinv (hok rfl)

end BootTables
