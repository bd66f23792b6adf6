import DeepOS.TablePaths

/-!
# The lowest free frames

`page_alloc` gives out the lowest free frame, so a function does the same when only the
lowest of the free frames are left in the map, as long as these are enough.
-/
namespace Lowest

open PhyMem TaskTable PageTable PageMap Boot BootTables

/-- A finite set of numbers has a part of `n` elements with nothing left out below them. -/
theorem exists_lower {A : Set Nat} (hA : A.Finite) {n : Nat} (hn : n ≤ A.ncard) :
    ∃ S, S ⊆ A ∧ S.ncard = n ∧ ∀ f ∈ A, ∀ g ∈ S, f < g → f ∈ S := by
  induction n with
  | zero => exact ⟨∅, Set.empty_subset A, Set.ncard_empty Nat, fun _ _ _ hg => hg.elim⟩
  | succ n ih =>
    obtain ⟨S, hS, hcard, hlower⟩ := ih (Nat.le_of_succ_le hn)
    have hne : (A \ S).Nonempty := by
      apply Set.nonempty_of_ncard_ne_zero
      have hsum := Set.ncard_sdiff_add_ncard_of_subset hS hA
      omega
    obtain ⟨g, hg, hleast⟩ : ∃ g, IsLeast (A \ S) g :=
      ⟨sInf (A \ S), Nat.sInf_mem hne, fun _ hf => Nat.sInf_le hf⟩
    refine ⟨insert g S, Set.insert_subset hg.1 hS, ?_, ?_⟩
    · rw [Set.ncard_insert_of_notMem hg.2 (hA.subset hS), hcard]
    · intro f hf h hh hlt
      by_cases hfS : f ∈ S
      · exact Or.inr hfS
      · rcases hh with rfl | hh
        · exact absurd (hleast ⟨hf, hfS⟩) (not_le.mpr hlt)
        · exact absurd (hlower f hf h hh hlt) hfS

theorem exists_memMap {m : MemMap} {S : Set Nat} (hS : S ⊆ freeFrames m) :
    ∃ m', freeFrames m' = S := by
  have hremove : ∀ D : Set Nat, D.Finite → ∃ m', freeFrames m' = freeFrames m \ D := by
    intro D hD
    induction D, hD using Set.Finite.induction_on with
    | empty => exact ⟨m, Set.sdiff_empty.symm⟩
    | insert _ _ ih =>
      rename_i g D _ _
      obtain ⟨m', hm'⟩ := ih
      refine ⟨mmapUnset m' g, ?_⟩
      rw [freeFrames_unset, hm', Set.sdiff_sdiff, Set.union_singleton]
  obtain ⟨m', hm'⟩ := hremove (freeFrames m \ S) ((freeFrames_finite m).subset Set.sdiff_subset)
  exact ⟨m', by rw [hm', Set.sdiff_sdiff_cancel_left hS]⟩

/-! ## Less free frames -/

/-- The same kernel without the free frames `D`, which lie above the others. -/
def Cut (D : Set Nat) (k kt : Kernel) : Prop :=
  ∃ m, kt = { k with memMap := m } ∧ freeFrames k.memMap = freeFrames m ∪ D ∧
    ∀ f ∈ D, ∀ g ∈ freeFrames m, g < f

variable {D : Set Nat} {k k' kt kt' : Kernel}

theorem Cut.refl (k : Kernel) : Cut ∅ k k :=
  ⟨k.memMap, rfl, (Set.union_empty _).symm, fun _ hf => hf.elim⟩

theorem exists_cut {n : Nat} (hn : n ≤ (freeFrames k.memMap).ncard) :
    ∃ D kt, Cut D k kt ∧ (freeFrames kt.memMap).ncard = n := by
  obtain ⟨S, hS, hcard, hlower⟩ := exists_lower (freeFrames_finite k.memMap) hn
  obtain ⟨m, rfl⟩ := exists_memMap hS
  refine ⟨freeFrames k.memMap \ freeFrames m, { k with memMap := m },
    ⟨m, rfl, (Set.union_sdiff_cancel hS).symm, fun f hf g hg => ?_⟩, hcard⟩
  by_contra hle
  have hne : f ≠ g := fun heq => hf.2 (heq ▸ hg)
  exact hf.2 (hlower f hf.1 g hg (by omega))

theorem Cut.mem (h : Cut D k kt) : kt.mem = k.mem := by
  obtain ⟨m, rfl, -⟩ := h
  rfl

theorem Cut.curPml4eVirt (h : Cut D k kt) : kt.curPml4eVirt = k.curPml4eVirt := by
  obtain ⟨m, rfl, -⟩ := h
  rfl

theorem Cut.free (h : Cut D k kt) : freeFrames k.memMap = freeFrames kt.memMap ∪ D := by
  obtain ⟨m, rfl, hfree, -⟩ := h
  exact hfree

theorem Cut.above (h : Cut D k kt) : ∀ f ∈ D, ∀ g ∈ freeFrames kt.memMap, g < f := by
  obtain ⟨m, rfl, -, habove⟩ := h
  exact habove

noncomputable def freeBelow (m : MemMap) (f : Nat) : Nat := (freeFrames m ∩ {g | g < f}).ncard

/-- Where `n` frames are left, each has fewer than `n` free frames below. -/
theorem Cut.freeBelow_lt (h : Cut D k kt) {f : Nat} (hf : f ∈ freeFrames kt.memMap) :
    freeBelow k.memMap f < (freeFrames kt.memMap).ncard := by
  refine Set.ncard_lt_ncard ⟨fun g hg => ?_, fun hall => lt_irrefl f (hall hf).2⟩ (freeFrames_finite _)
  have hg₁ := hg.1
  rw [h.free] at hg₁
  rcases hg₁ with hkept | hcut
  · exact hkept
  · exact absurd (h.above g hcut f hf) (not_lt.mpr (le_of_lt hg.2))

/-- And all of them lie below a frame that was left out. -/
theorem Cut.freeBelow_eq (h : Cut D k kt) {f : Nat} (hf : f ∈ D) :
    freeBelow k.memMap f = (freeFrames kt.memMap).ncard + (D ∩ {g | g < f}).ncard := by
  have hfinite : D.Finite := (freeFrames_finite k.memMap).subset (by rw [h.free]; exact Set.subset_union_right)
  have hbelow : freeFrames k.memMap ∩ {g | g < f} = freeFrames kt.memMap ∪ D ∩ {g | g < f} := by
    rw [h.free, Set.union_inter_distrib_right]
    congr 1
    exact Set.inter_eq_left.mpr fun g hg => h.above f hf g hg
  have hdisjoint : Disjoint (freeFrames kt.memMap) (D ∩ {g | g < f}) :=
    Set.disjoint_left.mpr fun g hg hgD => lt_irrefl g (h.above g hgD.1 g hg)
  rw [freeBelow, hbelow, Set.ncard_union_eq hdisjoint (freeFrames_finite _) (hfinite.subset Set.inter_subset_left)]

/-! ## The functions of the boot -/

theorem Cut.pageAlloc {p : Word} (h : Cut D k kt) (hs : kt.pageAlloc = some (p, kt')) :
    ∃ k', k.pageAlloc = some (p, k') ∧ Cut D k' kt' := by
  obtain ⟨m, rfl, hfree, habove⟩ := h
  have hzero : 0 ∉ freeFrames m := zero_not_free hs
  obtain ⟨g, hg, rfl, rfl⟩ := pageAlloc_some hs
  have hleast : IsLeast (freeFrames k.memMap) g := by
    rw [hfree]
    refine ⟨Or.inl hg.1, ?_⟩
    rintro f (hf | hf)
    · exact hg.2 hf
    · exact (habove f hf g hg.1).le
  have hzero' : 0 ∉ freeFrames k.memMap := by
    rw [hfree]
    rintro (h0 | h0)
    · exact hzero h0
    · exact (Nat.not_lt_zero g) (habove 0 h0 g hg.1)
  refine ⟨_, pageAlloc_least_some hzero' hleast, mmapUnset m g, rfl, ?_, ?_⟩
  · have hgD : g ∉ D := fun hgD => lt_irrefl g (habove g hgD g hg.1)
    rw [freeFrames_unset, freeFrames_unset, hfree, Set.union_sdiff_distrib, Set.sdiff_singleton_eq_self hgD]
  · intro f hf g' hg'
    rw [freeFrames_unset] at hg'
    exact habove f hf g' hg'.1

theorem Cut.putPhys (h : Cut D k kt) (table : Word) (i : Fin 512) (e : Word) :
    Cut D (putPhys k table i e) (putPhys kt table i e) := by
  obtain ⟨m, rfl, hlow⟩ := h
  exact ⟨m, rfl, hlow⟩

theorem Cut.setEntry (h : Cut D k kt) (table : Word) (i : Fin 512) (e : Word) :
    Cut D (k.setEntry table i e) (kt.setEntry table i e) := by
  obtain ⟨m, rfl, hlow⟩ := h
  exact ⟨m, rfl, hlow⟩

theorem Cut.newTable {table t : Word} {i : Fin 512} (h : Cut D k kt)
    (hs : newTable kt table i = some (t, kt')) : ∃ k', newTable k table i = some (t, k') ∧ Cut D k' kt' := by
  rw [Boot.newTable, Option.map_eq_some_iff] at hs
  obtain ⟨⟨p, kt₁⟩, halloc, hres⟩ := hs
  obtain ⟨rfl, rfl⟩ := Prod.mk.inj hres
  obtain ⟨k₁, halloc', h₁⟩ := h.pageAlloc halloc
  refine ⟨_, ?_, h₁.putPhys table i (mkEntry p)⟩
  rw [Boot.newTable, halloc', Option.map_some]

theorem Cut.bootTable {table t : Word} {i : Fin 512} (h : Cut D k kt)
    (hs : bootTable kt table i = some (t, kt')) : ∃ k', bootTable k table i = some (t, k') ∧ Cut D k' kt' := by
  simp only [Boot.bootTable, h.mem] at hs ⊢
  split at hs
  · rename_i hp
    obtain ⟨rfl, rfl⟩ := Prod.mk.inj (Option.some.inj hs)
    exact ⟨k, if_pos hp, h⟩
  · rename_i hp
    rw [if_neg hp]
    exact h.newTable hs

theorem Cut.descendPhys (p : List (Fin 512)) : ∀ {k kt kt' : Kernel} {table t : Word}, Cut D k kt →
    descendPhys kt table p = some (t, kt') → ∃ k', descendPhys k table p = some (t, k') ∧ Cut D k' kt' := by
  induction p with
  | nil =>
    intro k kt kt' table t h hs
    obtain ⟨rfl, rfl⟩ := Prod.mk.inj (Option.some.inj hs)
    exact ⟨k, rfl, h⟩
  | cons i p ih =>
    intro k kt kt' table t h hs
    rw [BootTables.descendPhys, Option.bind_eq_some_iff] at hs
    obtain ⟨⟨t₁, kt₁⟩, h₁, hs⟩ := hs
    obtain ⟨k₁, h₁', hcut₁⟩ := h.bootTable h₁
    obtain ⟨k', hs', hcut⟩ := ih hcut₁ hs
    refine ⟨k', ?_, hcut⟩
    rw [BootTables.descendPhys, h₁', Option.bind_some]
    exact hs'

theorem Cut.map {pml4e v p : Word} (h : Cut D k kt) (hs : map pml4e kt v p = some kt') :
    ∃ k', map pml4e k v p = some k' ∧ Cut D k' kt' := by
  rw [map_descendPhys, Option.map_eq_some_iff] at hs
  obtain ⟨⟨t, kt₁⟩, hd, rfl⟩ := hs
  obtain ⟨k₁, hd', h₁⟩ := h.descendPhys _ hd
  refine ⟨_, ?_, h₁.putPhys t (ptIndex v) (mkEntry p)⟩
  rw [map_descendPhys, hd', Option.map_some]

/-- A loop of such functions is one. -/
theorem Cut.run {α : Type} {f : Kernel → α → Option Kernel}
    (hf : ∀ {k kt kt' : Kernel} {a : α}, Cut D k kt → f kt a = some kt' → ∃ k', f k a = some k' ∧ Cut D k' kt')
    (as : List α) : ∀ {k kt kt' : Kernel}, Cut D k kt → Transition.run f kt as = some kt' →
      ∃ k', Transition.run f k as = some k' ∧ Cut D k' kt' := by
  induction as with
  | nil =>
    intro k kt kt' h hs
    obtain rfl := Option.some.inj hs
    exact ⟨k, rfl, h⟩
  | cons a as ih =>
    intro k kt kt' h hs
    obtain ⟨kt₁, h₁, hs⟩ := (Transition.run_cons_eq_some f).mp hs
    obtain ⟨k₁, h₁', hcut₁⟩ := hf h h₁
    obtain ⟨k', hs', hcut⟩ := ih hcut₁ hs
    exact ⟨k', (Transition.run_cons_eq_some f).mpr ⟨k₁, h₁', hs'⟩, hcut⟩

theorem Cut.mapKernelPages {pt physbase : Word} (pages : List Nat) : ∀ {k kt : Kernel}, Cut D k kt →
    Cut D (pages.foldl (mapKernelPage pt physbase) k) (pages.foldl (mapKernelPage pt physbase) kt) := by
  induction pages with
  | nil => exact fun h => h
  | cons i pages ih => exact fun h => ih (h.putPhys pt _ _)

theorem Cut.mapKernel {physbase physfree pml4e : Word} (h : Cut D k kt)
    (hs : mapKernel kt physbase physfree = some (pml4e, kt')) :
    ∃ k', mapKernel k physbase physfree = some (pml4e, k') ∧ Cut D k' kt' := by
  simp only [Boot.mapKernel, bind, Option.bind_eq_some_iff] at hs
  obtain ⟨⟨p₀, kt₀⟩, h₀, ⟨p₁, kt₁⟩, h₁, ⟨p₂, kt₂⟩, h₂, ⟨p₃, kt₃⟩, h₃, hs⟩ := hs
  obtain ⟨rfl, rfl⟩ := Prod.mk.inj (Option.some.inj hs)
  obtain ⟨k₀, h₀', hcut₀⟩ := h.pageAlloc h₀
  obtain ⟨k₁, h₁', hcut₁⟩ := hcut₀.newTable h₁
  obtain ⟨k₂, h₂', hcut₂⟩ := hcut₁.newTable h₂
  obtain ⟨k₃, h₃', hcut₃⟩ := hcut₂.newTable h₃
  refine ⟨_, ?_, hcut₃.mapKernelPages (List.range (kernelPages physbase physfree))⟩
  simp only [Boot.mapKernel, bind, h₀', h₁', h₂', h₃', Option.bind_some]

theorem Cut.identityMapping {pml4e vga maxPhys : Word} (h : Cut D k kt)
    (hs : identityMapping pml4e vga maxPhys kt = some kt') :
    ∃ k', identityMapping pml4e vga maxPhys k = some k' ∧ Cut D k' kt' := by
  simp only [Boot.identityMapping, bind, Option.bind_eq_some_iff] at hs
  obtain ⟨kt₁, h₁, kt₂, h₂, hs⟩ := hs
  obtain rfl := Option.some.inj hs
  obtain ⟨k₁, h₁', hcut₁⟩ := Cut.run (f := mapWindow pml4e) (fun h hs => h.map hs) _ h h₁
  obtain ⟨k₂, h₂', hcut₂⟩ := Cut.run (f := mapVga pml4e vga) (fun h hs => h.map hs) _ hcut₁ h₂
  obtain ⟨m, rfl, hlow⟩ := hcut₂
  refine ⟨{ k₂ with curPml4eVirt := pml4e ||| DUMB_MAPPING_VIRT }, ?_, m, rfl, hlow⟩
  simp only [Boot.identityMapping, bind, h₁', h₂', Option.bind_some]

/-! ## `map_process_specific` -/

theorem Cut.nextTable {table t : Word} {i : Fin 512} (h : Cut D k kt)
    (hs : nextTable kt table i = some (t, kt')) : ∃ k', nextTable k table i = some (t, k') ∧ Cut D k' kt' := by
  simp only [PageTable.nextTable, Kernel.entry, h.mem] at hs ⊢
  split at hs
  · rename_i hp
    obtain ⟨rfl, rfl⟩ := Prod.mk.inj (Option.some.inj hs)
    exact ⟨k, if_pos hp, h⟩
  · rename_i hp
    rw [Option.map_eq_some_iff] at hs
    obtain ⟨⟨p, kt₁⟩, halloc, hres⟩ := hs
    obtain ⟨rfl, rfl⟩ := Prod.mk.inj hres
    obtain ⟨k₁, halloc', h₁⟩ := h.pageAlloc halloc
    refine ⟨_, ?_, h₁.setEntry table i _⟩
    simp only [hp, Bool.false_eq_true, if_false, halloc', Option.map_some]

theorem Cut.descend (p : List (Fin 512)) : ∀ {k kt kt' : Kernel} {table t : Word}, Cut D k kt →
    descend kt table p = some (t, kt') → ∃ k', descend k table p = some (t, k') ∧ Cut D k' kt' := by
  induction p with
  | nil =>
    intro k kt kt' table t h hs
    obtain ⟨rfl, rfl⟩ := Prod.mk.inj (Option.some.inj hs)
    exact ⟨k, rfl, h⟩
  | cons i p ih =>
    intro k kt kt' table t h hs
    rw [PageMap.descend, Option.bind_eq_some_iff] at hs
    obtain ⟨⟨t₁, kt₁⟩, h₁, hs⟩ := hs
    obtain ⟨k₁, h₁', hcut₁⟩ := h.nextTable h₁
    obtain ⟨k', hs', hcut⟩ := ih hcut₁ hs
    refine ⟨k', ?_, hcut⟩
    rw [PageMap.descend, h₁', Option.bind_some]
    exact hs'

theorem Cut.charge (h : Cut D k kt) (task : Option Slot) : Cut D (charge k task) (charge kt task) := by
  obtain ⟨m, rfl, hlow⟩ := h
  cases task with
  | none => exact ⟨m, rfl, hlow⟩
  | some t => exact ⟨m, rfl, hlow⟩

theorem Cut.mapProcessSpecific {v p pml4e : Word} {task : Option Slot} (h : Cut D k kt)
    (hs : mapProcessSpecific kt v p pml4e task = some kt') :
    ∃ k', mapProcessSpecific k v p pml4e task = some k' ∧ Cut D k' kt' := by
  rw [mapProcessSpecific_eq, Option.map_eq_some_iff] at hs
  obtain ⟨⟨t, kt₁⟩, hd, rfl⟩ := hs
  obtain ⟨k₁, hd', h₁⟩ := (h.charge task).descend _ hd
  refine ⟨_, ?_, h₁.setEntry t (ptIndex v) (mkEntry p)⟩
  rw [mapProcessSpecific_eq, hd', Option.map_some]

end Lowest
