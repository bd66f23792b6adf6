import DeepOS.RadixPaths
import DeepOS.BootTables

/-!
# Which tables there are

A mapping adds the tables on the path of its page that were missing, and no others. So
the tables of a tree are known from the pages that have been mapped, and so is the
number of frames they take.
-/
namespace TablePaths

open PhyMem TaskTable PageTable PageMap
open RadixForest (follow leaf nodes paths Forest)

def tablesOf (v : Word) : Finset (List (Fin 512)) := (pathOf v).inits.toFinset

theorem mem_tablesOf {v : Word} {q : List (Fin 512)} : q ∈ tablesOf v ↔ q <+: pathOf v := by
  rw [tablesOf, List.mem_toFinset, List.mem_inits]

theorem length_of_mem_tablesOf {v : Word} {q : List (Fin 512)} (h : q ∈ tablesOf v) : q.length ≤ 3 :=
  (mem_tablesOf.mp h).length_le

theorem inits_cons_toFinset (i : Fin 512) (p : List (Fin 512)) :
    (i :: p).inits.toFinset = insert [] (p.inits.toFinset.image fun q => i :: q) := by
  rw [List.inits_cons, List.toFinset_cons]
  congr 1
  ext q
  simp

theorem card_inits (p : List (Fin 512)) : p.inits.toFinset.card = p.length + 1 := by
  induction p with
  | nil => rfl
  | cons i p ih =>
    rw [inits_cons_toFinset, Finset.card_insert_of_notMem (by simp),
      Finset.card_image_of_injective _ List.cons_injective, ih, List.length_cons]

/-- The levels that are missing are the paths that cannot be followed. -/
theorem card_missing (m : Nat → Fin 512 → Word) (p : List (Fin 512)) : ∀ f : Nat,
    (p.inits.toFinset.filter fun q => follow next m f q = none).card = missing m f p := by
  induction p with
  | nil =>
    intro f
    rfl
  | cons i p ih =>
    intro f
    have hnil : follow next m f [] ≠ none := Option.some_ne_none f
    rw [inits_cons_toFinset, Finset.filter_insert, if_neg hnil, Finset.filter_image,
      Finset.card_image_of_injective _ List.cons_injective, missing]
    cases hn : next (m f i) with
    | none =>
      -- nothing below can be followed
      have hall : ∀ q : List (Fin 512), follow next m f (i :: q) = none := by
        intro q
        rw [follow, hn, Option.bind_none]
      simp only [hall, Finset.filter_true, Option.elim_none]
      exact card_inits p
    | some g =>
      have hall : ∀ q : List (Fin 512), follow next m f (i :: q) = follow next m g q := by
        intro q
        rw [follow, hn, Option.bind_some]
      simp only [hall, Option.elim_some]
      exact ih g

/-! ## The tables and pages of a tree -/

/-- The tree at `r` has the tables with the paths `T` and maps no pages but those with
numbers in `V`. Together `n` frames are tables or free. -/
structure Shape (r : Nat) (T : Finset (List (Fin 512))) (V : Set Nat) (n : Nat) (k : Kernel) : Prop where
  inv : MemInv {r} k
  low : ∀ f ∈ freeFrames k.memMap, f < WINDOW_FRAMES
  paths : paths next 3 k.mem r = ↑T
  frames : T.card + (freeFrames k.memMap).ncard = n
  pages : ∀ a, (walk k r a).isSome → vpn a ∈ V

variable {r n : Nat} {T : Finset (List (Fin 512))} {V : Set Nat} {k k' : Kernel}

theorem Shape.card_nodes (h : Shape r T V n k) : (nodes next 3 k.mem {r}).ncard = T.card := by
  rw [← RadixForest.ncard_paths h.inv.forest, h.paths, Set.ncard_coe_finset]

theorem Shape.follow_none (h : Shape r T V n k) {q : List (Fin 512)} (hq : q.length ≤ 3) :
    follow next k.mem r q = none ↔ q ∉ T := by
  have hmem : q ∈ RadixForest.paths next 3 k.mem r ↔ q ∈ T := by rw [h.paths, Finset.mem_coe]
  rw [← hmem, ← Option.not_isSome_iff_eq_none]
  exact ⟨fun hno hp => hno hp.2, fun hno hsome => hno ⟨hq, hsome⟩⟩

theorem Shape.missing (h : Shape r T V n k) (v : Word) :
    missing k.mem r (pathOf v) = (tablesOf v \ T).card := by
  rw [← card_missing, ← tablesOf]
  refine congrArg Finset.card (Finset.ext fun q => ?_)
  rw [Finset.mem_filter, Finset.mem_sdiff]
  refine and_congr_right fun hq => ?_
  exact h.follow_none (length_of_mem_tablesOf hq)

theorem Shape.congr {r : Nat} (h : Shape r T V n k) (hm : k'.mem = k.mem) (hb : k'.memMap = k.memMap) :
    Shape r T V n k' where
  inv := h.inv.congr hm hb
  low := by
    rw [hb]
    exact h.low
  paths := by
    rw [hm]
    exact h.paths
  frames := by
    rw [hb]
    exact h.frames
  pages := by
    intro a ha
    rw [walk, hm] at ha
    exact h.pages a ha

/-- A mapping adds the tables of its page. -/
theorem Shape.maps {pml4e v p : Word} {task : Option Slot} (h : Shape r T V n k) (hr : frameAt pml4e = r)
    (hs : mapProcessSpecific k v p pml4e task = some k') :
    ∃ taken, Maps {r} r v p k k' taken ∧ Shape r (T ∪ tablesOf v) (insert (vpn v) V) n k' := by
  have hmiss := h.missing v
  have hcard : (T ∪ tablesOf v).card = T.card + (tablesOf v \ T).card := by
    rw [← Finset.card_union_of_disjoint Finset.disjoint_sdiff, Finset.union_sdiff_self_eq_union]
  have hframes := h.frames
  obtain ⟨taken, hmaps, htaken⟩ := mapProcessSpecific_spec h.inv (by rw [hr]; rfl) (Or.inl h.low) hs
  rw [hr] at hmaps htaken
  rw [hmiss] at htaken
  refine ⟨taken, hmaps, hmaps.inv, ?_, ?_, ?_, ?_⟩
  · intro f hf
    rw [hmaps.free] at hf
    exact h.low f hf.1
  · -- no path but those of the page has been added, as there are not more new tables
    have hsub : ↑(T ∪ tablesOf v) ⊆ RadixForest.paths next 3 k'.mem r := by
      intro q hq
      rw [Finset.mem_coe, Finset.mem_union] at hq
      rcases hq with hq | hq
      · have hold : q ∈ RadixForest.paths next 3 k.mem r := by rwa [h.paths, Finset.mem_coe]
        obtain ⟨f, hf⟩ := Option.isSome_iff_exists.mp hold.2
        exact ⟨hold.1, by rw [hmaps.keep r rfl q f hold.1 hf]; rfl⟩
      · have hwalk := hmaps.walks r rfl v
        rw [if_pos ⟨rfl, rfl⟩, walk, RadixForest.leaf_eq_some] at hwalk
        obtain ⟨f, hf, -⟩ := hwalk
        exact RadixForest.mem_paths_of_prefix (mem_tablesOf.mp hq) ⟨(pathOf_length v).le, by rw [hf]; rfl⟩
    have hdisjoint : Disjoint (nodes next 3 k.mem {r}) taken :=
      Set.disjoint_left.mpr fun f hf hft => h.inv.used f hf (hmaps.taken_free hft)
    have hfinite : (nodes next 3 k.mem {r}).Finite :=
      (Set.finite_lt_nat WINDOW_FRAMES).subset fun f hf => h.inv.below f hf
    have hle : (RadixForest.paths next 3 k'.mem r).ncard ≤ (↑(T ∪ tablesOf v) : Set (List (Fin 512))).ncard := by
      rw [RadixForest.ncard_paths hmaps.inv.forest, hmaps.nodes, Set.ncard_union_eq hdisjoint hfinite
        ((freeFrames_finite _).subset hmaps.taken_free), h.card_nodes, htaken, Set.ncard_coe_finset, hcard]
    exact (Set.eq_of_subset_of_ncard_le hsub hle RadixForest.paths_finite).symm
  · have hsum := Set.ncard_sdiff_add_ncard_of_subset hmaps.taken_free (freeFrames_finite k.memMap)
    rw [hmaps.free, hcard, ← htaken]
    omega
  · intro a ha
    rw [hmaps.walks r rfl a] at ha
    split at ha
    · rename_i hv
      exact Or.inl hv.2
    · exact Or.inr (h.pages a ha)

/-- It finds the frames it needs. -/
theorem Shape.map {pml4e : Word} (v p : Word) (task : Option Slot) (h : Shape r T V n k) (hr : frameAt pml4e = r)
    (hroom : (T ∪ tablesOf v).card ≤ n) : ∃ k' taken, mapProcessSpecific k v p pml4e task = some k' ∧
      Maps {r} r v p k k' taken ∧ Shape r (T ∪ tablesOf v) (insert (vpn v) V) n k' := by
  have hmiss := h.missing v
  have hcard : (T ∪ tablesOf v).card = T.card + (tablesOf v \ T).card := by
    rw [← Finset.card_union_of_disjoint Finset.disjoint_sdiff, Finset.union_sdiff_self_eq_union]
  have hlowFrames : lowFrames k = freeFrames k.memMap := Set.inter_eq_left.mpr fun f hf => h.low f hf
  have hframes := h.frames
  obtain ⟨k', hs⟩ := mapProcessSpecific_isSome v p task h.inv (by rw [hr]; rfl)
    (by rw [hr, hmiss, hlowFrames]; omega)
  obtain ⟨taken, hmaps, hshape⟩ := h.maps hr hs
  exact ⟨k', taken, hs, hmaps, hshape⟩

end TablePaths
