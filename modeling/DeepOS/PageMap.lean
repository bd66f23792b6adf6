import DeepOS.PageTable

/-!
# Mapping a page

`map_process_specific` on well-formed trees. A level that is missing takes the
lowest free frame, which holds no present entry, and links it in; this changes
no walk. The last write then changes the walks of one page of one tree.
-/
namespace PageMap

open PhyMem TaskTable PageTable
open RadixForest (follow leaf nodes Forest put)

/-- The trees rooted at `R` are well formed: their tables are pairwise distinct,
below 256 MB and not free, and free frames hold no present entry. -/
structure MemInv (R : Set Nat) (k : Kernel) : Prop where
  forest : Forest next 3 k.mem R
  below : ∀ f ∈ nodes next 3 k.mem R, f < WINDOW_FRAMES
  used : ∀ f ∈ nodes next 3 k.mem R, f ∉ freeFrames k.memMap
  zero : 0 ∉ freeFrames k.memMap
  blank : ∀ f ∈ freeFrames k.memMap, ∀ i, isPresent (k.mem f i) = false

theorem next_eq_none {e : Word} (h : isPresent e = false) : next e = none := by
  rw [next, h]; rfl

theorem next_eq_some {e : Word} (h : isPresent e = true) : next e = some (frameOf e) := by
  rw [next, h]; rfl

theorem freeFrames_finite (m : MemMap) : (freeFrames m).Finite :=
  (Set.finite_lt_nat FRAMES).subset (fun _ hf => freeFrames_lt hf)

/-! ## The allocator -/

theorem pageAlloc_some {k k' : Kernel} {p : Word} (h : k.pageAlloc = some (p, k')) :
    ∃ f, IsLeast (freeFrames k.memMap) f ∧ p = frameAddr f ∧
      k' = { k with memMap := mmapUnset k.memMap f } := by
  rw [Kernel.pageAlloc] at h
  rcases pageAlloc_cases k.memMap with ⟨-, ha⟩ | ⟨f, hf, ha⟩
  · rw [ha] at h
    simp at h
  · rw [ha] at h
    split at h
    · cases h
    · obtain ⟨rfl, rfl⟩ := Prod.mk.inj (Option.some.inj h)
      exact ⟨f, hf, rfl, rfl⟩

theorem pageAlloc_least_some {k : Kernel} {f : Nat} (h0 : 0 ∉ freeFrames k.memMap)
    (hf : IsLeast (freeFrames k.memMap) f) :
    k.pageAlloc = some (frameAddr f, { k with memMap := mmapUnset k.memMap f }) := by
  have hne : f ≠ 0 := by rintro rfl; exact h0 hf.1
  rw [Kernel.pageAlloc, pageAlloc_least hf]
  exact if_neg (frameAddr_ne_zero (freeFrames_lt hf.1) hne)

def lowFrames (k : Kernel) : Set Nat := freeFrames k.memMap ∩ {f | f < WINDOW_FRAMES}

theorem lowFrames_finite (k : Kernel) : (lowFrames k).Finite :=
  (freeFrames_finite k.memMap).subset Set.inter_subset_left

/-- The next `n` frames handed out lie below 256 MB. -/
def LowFor (k : Kernel) (n : Nat) : Prop :=
  (∀ f ∈ freeFrames k.memMap, f < WINDOW_FRAMES) ∨ n ≤ (lowFrames k).ncard

theorem LowFor.least {k : Kernel} {n f : Nat} (h : LowFor k (n + 1))
    (hf : IsLeast (freeFrames k.memMap) f) : f < WINDOW_FRAMES := by
  rcases h with h | h
  · exact h f hf.1
  · have hne : (lowFrames k).Nonempty := by
      rw [← Set.ncard_pos (lowFrames_finite k)]
      omega
    obtain ⟨g, hg, hlt⟩ := hne
    exact (hf.2 hg).trans_lt hlt

theorem lowFrames_unset {k k' : Kernel} {f : Nat}
    (hfree : freeFrames k'.memMap = freeFrames k.memMap \ {f}) :
    lowFrames k' = lowFrames k \ {f} := by
  rw [lowFrames, lowFrames, hfree]
  ext g
  simp only [Set.mem_inter_iff, Set.mem_sdiff, Set.mem_singleton_iff]
  tauto

theorem LowFor.next {k k' : Kernel} {n f : Nat} (h : LowFor k (n + 1))
    (hf : IsLeast (freeFrames k.memMap) f)
    (hfree : freeFrames k'.memMap = freeFrames k.memMap \ {f}) : LowFor k' n := by
  rcases h with h | h
  · refine Or.inl (fun g hg => h g ?_)
    rw [hfree] at hg
    exact hg.1
  · have hmem : f ∈ lowFrames k := ⟨hf.1, LowFor.least (Or.inr h) hf⟩
    refine Or.inr ?_
    rw [lowFrames_unset hfree, Set.ncard_sdiff_singleton_of_mem hmem]
    omega

theorem LowFor.mono {k : Kernel} {n n' : Nat} (h : LowFor k n) (hn : n' ≤ n) : LowFor k n' := by
  rcases h with h | h
  · exact Or.inl h
  · exact Or.inr (hn.trans h)

/-! ## What building a path does -/

structure SameTasks (k k' : Kernel) : Prop where
  tasks : k'.tasks = k.tasks
  currentTask : k'.currentTask = k.currentTask
  curPml4eVirt : k'.curPml4eVirt = k.curPml4eVirt

theorem SameTasks.refl (k : Kernel) : SameTasks k k := ⟨rfl, rfl, rfl⟩

theorem SameTasks.trans {k k' k'' : Kernel} (h : SameTasks k k') (h' : SameTasks k' k'') :
    SameTasks k k'' :=
  ⟨h'.tasks.trans h.tasks, h'.currentTask.trans h.currentTask,
    h'.curPml4eVirt.trans h.curPml4eVirt⟩

/-- Tables on the frames `taken` have been added; no walk has changed. -/
structure Grows (R : Set Nat) (k k' : Kernel) (taken : Set Nat) : Prop where
  inv : MemInv R k'
  taken_free : taken ⊆ freeFrames k.memMap
  free : freeFrames k'.memMap = freeFrames k.memMap \ taken
  nodes : nodes next 3 k'.mem R = nodes next 3 k.mem R ∪ taken
  keep : ∀ r ∈ R, ∀ p f, p.length ≤ 3 → follow next k.mem r p = some f →
    follow next k'.mem r p = some f
  leaves : ∀ r ∈ R, ∀ p i, p.length = 3 → leaf next k'.mem r p i = leaf next k.mem r p i
  entries : ∀ f i, k'.mem f i = k.mem f i ∨
    (isPresent (k.mem f i) = false ∧ k'.mem f i &&& 7 = 7 ∧ f ∈ RadixForest.nodes next 3 k'.mem R)
  same : SameTasks k k'

theorem Grows.refl {R : Set Nat} {k : Kernel} (h : MemInv R k) : Grows R k k ∅ where
  inv := h
  taken_free := Set.empty_subset _
  free := by rw [Set.sdiff_empty]
  nodes := by rw [Set.union_empty]
  keep := fun _ _ _ _ _ hf => hf
  leaves := fun _ _ _ _ _ => rfl
  entries := fun _ _ => Or.inl rfl
  same := SameTasks.refl k

theorem Grows.trans {R : Set Nat} {k k' k'' : Kernel} {S S' : Set Nat} (h : Grows R k k' S)
    (h' : Grows R k' k'' S') : Grows R k k'' (S ∪ S') where
  inv := h'.inv
  taken_free := by
    refine Set.union_subset h.taken_free (h'.taken_free.trans ?_)
    rw [h.free]
    exact Set.sdiff_subset
  free := by rw [h'.free, h.free, Set.sdiff_sdiff]
  nodes := by rw [h'.nodes, h.nodes, Set.union_assoc]
  keep := fun r hr p f hp hf => h'.keep r hr p f hp (h.keep r hr p f hp hf)
  leaves := fun r hr p i hp => (h'.leaves r hr p i hp).trans (h.leaves r hr p i hp)
  entries := fun f i => by
    rcases h'.entries f i with he' | ⟨hn', hfl', hf'⟩
    · rcases h.entries f i with he | ⟨hn, hfl, hf⟩
      · exact Or.inl (he'.trans he)
      · refine Or.inr ⟨hn, by rw [he']; exact hfl, ?_⟩
        rw [h'.nodes]
        exact Or.inl hf
    · rcases h.entries f i with he | ⟨hn, hfl, hf⟩
      · exact Or.inr ⟨by rw [← he]; exact hn', hfl', hf'⟩
      · exact Or.inr ⟨hn, hfl', hf'⟩
  same := h.same.trans h'.same

/-- A missing table is linked in: the lowest free frame becomes a table. -/
theorem grows_link {R : Set Nat} {k : Kernel} {r₀ x g : Nat} {q : List (Fin 512)} {i : Fin 512}
    (h : MemInv R k) (hr₀ : r₀ ∈ R) (hq : q.length < 3) (hx : follow next k.mem r₀ q = some x)
    (habs : isPresent (k.mem x i) = false) (hg : g ∈ freeFrames k.memMap) (hlow : g < WINDOW_FRAMES) :
    Grows R k { k with mem := put k.mem x i (mkEntry (frameAddr g))
                       memMap := mmapUnset k.memMap g } {g} ∧
    follow next (put k.mem x i (mkEntry (frameAddr g))) r₀ (q ++ [i]) = some g := by
  have hgF := freeFrames_lt hg
  have hxn : x ∈ nodes next 3 k.mem R := RadixForest.mem_nodes hr₀ hq.le hx
  have hgn : g ∉ nodes next 3 k.mem R := fun hm => h.used g hm hg
  have habs' := next_eq_none habs
  have hw : next (mkEntry (frameAddr g)) = some g := by rw [next_mkEntry, frameOf_frameAddr hgF]
  have hblank : ∀ j, next (k.mem g j) = none := fun j => next_eq_none (h.blank g hg j)
  have hfollow := fun {r : Nat} (hr : r ∈ R) {p : List (Fin 512)} (hp : p.length ≤ 3) =>
    RadixForest.follow_link h.forest hr₀ hx hq habs' hw hblank hgn hr hp
  have hnodes := RadixForest.nodes_link h.forest hr₀ hx hq habs' hw hblank hgn
  have hother : ∀ f, f ∈ freeFrames k.memMap → put k.mem x i (mkEntry (frameAddr g)) f = k.mem f := by
    intro f hf
    apply RadixForest.put_of_ne
    rintro rfl
    exact h.used f hxn hf
  refine ⟨⟨⟨?_, ?_, ?_, ?_, ?_⟩, ?_, ?_, ?_, ?_, ?_, ?_, ⟨rfl, rfl, rfl⟩⟩, ?_⟩
  · exact RadixForest.forest_link h.forest hr₀ hx hq habs' hw hblank hgn
  · intro f hf
    rw [hnodes] at hf
    rcases hf with rfl | hf
    · exact hlow
    · exact h.below f hf
  · intro f hf hfree
    rw [hnodes] at hf
    rw [freeFrames_unset] at hfree
    rcases hf with rfl | hf
    · exact hfree.2 rfl
    · exact h.used f hf hfree.1
  · rw [freeFrames_unset]
    exact fun h0 => h.zero h0.1
  · intro f hf j
    rw [freeFrames_unset] at hf
    dsimp only
    rw [hother f hf.1]
    exact h.blank f hf.1 j
  · rintro f rfl
    exact hg
  · exact freeFrames_unset _ _
  · rw [hnodes, Set.union_singleton]
  · intro r hr p f hp hf
    have hne : ¬ (r = r₀ ∧ p = q ++ [i]) := by
      rintro ⟨rfl, rfl⟩
      rw [RadixForest.follow_snoc, hx, Option.bind_some, habs'] at hf
      cases hf
    rw [hfollow hr hp, if_neg hne, hf]
  · intro r hr p j hp
    exact RadixForest.leaf_link h.forest hr₀ hx hq habs' hw hblank hgn hr hp j
  · intro f j
    by_cases hfx : f = x
    · subst hfx
      by_cases hj : j = i
      · subst hj
        refine Or.inr ⟨habs, ?_, ?_⟩
        · dsimp only
          rw [RadixForest.put_self]
          exact mkEntry_flags _
        · rw [hnodes]; exact Or.inr hxn
      · exact Or.inl (RadixForest.put_index_of_ne k.mem f hj _)
    · exact Or.inl (congrFun (RadixForest.put_of_ne k.mem hfx i _) j)
  · have hlen : (q ++ [i]).length ≤ 3 := by rw [List.length_append, List.length_singleton]; omega
    rw [hfollow hr₀ hlen, if_pos ⟨rfl, rfl⟩]

/-- What one level does. -/
theorem nextTable_spec {R : Set Nat} {k k' : Kernel} {r₀ : Nat} {q : List (Fin 512)}
    {table t' : Word} {i : Fin 512} (h : MemInv R k) (hr₀ : r₀ ∈ R) (hq : q.length < 3)
    (hx : follow next k.mem r₀ q = some (frameAt table))
    (hlow : isPresent (k.mem (frameAt table) i) = false → LowFor k 1)
    (hs : nextTable k table i = some (t', k')) :
    follow next k'.mem r₀ (q ++ [i]) = some (frameAt t') ∧
    (isPresent (k.mem (frameAt table) i) = true ∧ k' = k ∨
      isPresent (k.mem (frameAt table) i) = false ∧ IsLeast (freeFrames k.memMap) (frameAt t') ∧
      Grows R k k' {frameAt t'} ∧ ∀ j, isPresent (k'.mem (frameAt t') j) = false) := by
  rw [nextTable, Kernel.entry] at hs
  cases hp : isPresent (k.mem (frameAt table) i) with
  | true =>
    simp only [hp, if_true, Option.some.injEq, Prod.mk.injEq] at hs
    obtain ⟨rfl, rfl⟩ := hs
    have hnext : follow next k.mem r₀ (q ++ [i]) =
        some (frameOf (k.mem (frameAt table) i)) := by
      rw [RadixForest.follow_snoc, hx, Option.bind_some, next_eq_some hp]
    have hbelow := h.below _ (RadixForest.mem_nodes hr₀
      (by rw [List.length_append, List.length_singleton]; omega) hnext)
    refine ⟨?_, Or.inl ⟨rfl, rfl⟩⟩
    rw [hnext, frameAt_or (by rw [frameOf_getAddress]; exact hbelow), frameOf_getAddress]
  | false =>
    simp only [hp, Bool.false_eq_true, if_false, Option.map_eq_some_iff, Prod.mk.injEq] at hs
    obtain ⟨⟨p, k₁⟩, halloc, rfl, rfl⟩ := hs
    obtain ⟨g, hg, rfl, rfl⟩ := pageAlloc_some halloc
    have hgF := freeFrames_lt hg.1
    have hgW : g < WINDOW_FRAMES := LowFor.least (n := 0) (hlow hp) hg
    have hframe : frameAt (frameAddr g ||| DUMB_MAPPING_VIRT) = g := by
      rw [frameAt_or (by rw [frameOf_frameAddr hgF]; exact hgW), frameOf_frameAddr hgF]
    obtain ⟨hgrow, hfollow⟩ := grows_link h hr₀ hq hx hp hg.1 hgW
    simp only [hframe]
    refine ⟨hfollow, Or.inr ⟨trivial, hg, hgrow, fun j => ?_⟩⟩
    have hne : g ≠ frameAt table := by
      intro he
      exact h.used _ (RadixForest.mem_nodes hr₀ hq.le hx) (he ▸ hg.1)
    simp only [Kernel.setEntry]
    rw [RadixForest.put_of_ne _ hne]
    exact h.blank g hg.1 j

theorem nextTable_isSome {k : Kernel} (h0 : 0 ∉ freeFrames k.memMap) (table : Word) (i : Fin 512)
    (h : isPresent (k.mem (frameAt table) i) = false → (freeFrames k.memMap).Nonempty) :
    ∃ r, nextTable k table i = some r := by
  rw [nextTable, Kernel.entry]
  cases hp : isPresent (k.mem (frameAt table) i) with
  | true => exact ⟨_, if_pos rfl⟩
  | false =>
    obtain ⟨g, hg⟩ := exists_least (Set.nonempty_iff_ne_empty.mp (h hp))
    simp only [Bool.false_eq_true, if_false, pageAlloc_least_some h0 hg]
    exact ⟨_, rfl⟩

def descend : Kernel → Word → List (Fin 512) → Option (Word × Kernel)
  | k, table, [] => some (table, k)
  | k, table, i :: p => (nextTable k table i).bind fun r => descend r.2 r.1 p

theorem mapProcessSpecific_eq (k : Kernel) (v p pml4e : Word) (task : Option Slot) :
    mapProcessSpecific k v p pml4e task =
      (descend (charge k task) pml4e (pathOf v)).map fun r =>
        r.2.setEntry r.1 (ptIndex v) (mkEntry p) := by
  simp only [mapProcessSpecific, descend, pathOf, bind]
  cases nextTable (charge k task) pml4e (pml4eIndex v) with
  | none => rfl
  | some r =>
    simp only [Option.bind_some]
    cases nextTable r.2 r.1 (pdpeIndex v) with
    | none => rfl
    | some r' =>
      simp only [Option.bind_some]
      cases nextTable r'.2 r'.1 (pdeIndex v) with
      | none => rfl
      | some r'' => rfl

def missing (m : Nat → Fin 512 → Word) : Nat → List (Fin 512) → Nat
  | _, [] => 0
  | f, i :: p => (next (m f i)).elim (p.length + 1) (fun g => missing m g p)

theorem missing_blank {m : Nat → Fin 512 → Word} {f : Nat} (h : ∀ j, isPresent (m f j) = false)
    (p : List (Fin 512)) : missing m f p = p.length := by
  cases p with
  | nil => rfl
  | cons i p => rw [missing, next_eq_none (h i)]; rfl

theorem descend_spec {R : Set Nat} {r₀ : Nat} (hr₀ : r₀ ∈ R) (p : List (Fin 512)) :
    ∀ {k k' : Kernel} {table t' : Word} {q : List (Fin 512)}, MemInv R k →
      q.length + p.length = 3 → follow next k.mem r₀ q = some (frameAt table) →
      LowFor k (missing k.mem (frameAt table) p) → descend k table p = some (t', k') →
      ∃ taken, Grows R k k' taken ∧ taken.ncard = missing k.mem (frameAt table) p ∧
        follow next k'.mem r₀ (q ++ p) = some (frameAt t') := by
  induction p with
  | nil =>
    intro k k' table t' q h _ hx _ hs
    obtain ⟨rfl, rfl⟩ := Prod.mk.inj (Option.some.inj hs)
    exact ⟨∅, Grows.refl h, Set.ncard_empty _, by simpa using hx⟩
  | cons i p ih =>
    intro k k' table t' q h hlen hx hlow hs
    rw [List.length_cons] at hlen
    rw [descend, Option.bind_eq_some_iff] at hs
    obtain ⟨⟨t₁, k₁⟩, h₁, hs⟩ := hs
    have hlow1 : isPresent (k.mem (frameAt table) i) = false → LowFor k 1 := by
      intro habs
      rw [missing, next_eq_none habs] at hlow
      exact hlow.mono (by simp)
    obtain ⟨hx₁, hcase⟩ := nextTable_spec h hr₀ (by omega) hx hlow1 h₁
    have hlen₁ : (q ++ [i]).length + p.length = 3 := by
      rw [List.length_append, List.length_singleton]; omega
    have happ : q ++ i :: p = q ++ [i] ++ p := by simp
    rw [happ]
    rcases hcase with ⟨hp, rfl⟩ | ⟨habs, hleast, hgrow, hblank⟩
    · -- the level is present
      have hframe : frameOf (k₁.mem (frameAt table) i) = frameAt t₁ := by
        rw [RadixForest.follow_snoc, hx, Option.bind_some, next_eq_some hp] at hx₁
        exact Option.some.inj hx₁
      have hmiss : missing k₁.mem (frameAt table) (i :: p) = missing k₁.mem (frameAt t₁) p := by
        rw [missing, next_eq_some hp, ← hframe]; rfl
      rw [hmiss] at hlow ⊢
      exact ih h hlen₁ hx₁ hlow hs
    · have hmiss : missing k.mem (frameAt table) (i :: p) = p.length + 1 := by
        rw [missing, next_eq_none habs]; rfl
      have hmiss₁ := missing_blank hblank p
      rw [hmiss] at hlow ⊢
      obtain ⟨taken, hgrow', hcard, hx'⟩ := ih hgrow.inv hlen₁ hx₁
        (by rw [hmiss₁]; exact hlow.next hleast hgrow.free) hs
      refine ⟨{frameAt t₁} ∪ taken, hgrow.trans hgrow', ?_, hx'⟩
      have hnot : frameAt t₁ ∉ taken := by
        intro hm
        have hm' := hgrow'.taken_free hm
        rw [hgrow.free] at hm'
        exact hm'.2 rfl
      rw [Set.singleton_union, Set.ncard_insert_of_notMem hnot
        ((freeFrames_finite _).subset hgrow'.taken_free), hcard, hmiss₁]

theorem descend_isSome {R : Set Nat} {r₀ : Nat} (hr₀ : r₀ ∈ R) (p : List (Fin 512)) :
    ∀ {k : Kernel} {table : Word} {q : List (Fin 512)}, MemInv R k →
      q.length + p.length = 3 → follow next k.mem r₀ q = some (frameAt table) →
      missing k.mem (frameAt table) p ≤ (lowFrames k).ncard →
      ∃ r, descend k table p = some r := by
  induction p with
  | nil => intro k table q _ _ _ _; exact ⟨_, rfl⟩
  | cons i p ih =>
    intro k table q h hlen hx hsup
    rw [List.length_cons] at hlen
    have hne : isPresent (k.mem (frameAt table) i) = false → 0 < (lowFrames k).ncard := by
      intro habs
      have hmiss : missing k.mem (frameAt table) (i :: p) = p.length + 1 := by
        rw [missing, next_eq_none habs]; rfl
      omega
    obtain ⟨⟨t₁, k₁⟩, h₁⟩ := nextTable_isSome h.zero table i (fun habs =>
      ((Set.ncard_pos (lowFrames_finite k)).mp (hne habs)).mono Set.inter_subset_left)
    obtain ⟨hx₁, hcase⟩ := nextTable_spec h hr₀ (by omega) hx (fun habs => Or.inr (hne habs)) h₁
    have hlen₁ : (q ++ [i]).length + p.length = 3 := by
      rw [List.length_append, List.length_singleton]; omega
    rw [descend, h₁, Option.bind_some]
    rcases hcase with ⟨hp, rfl⟩ | ⟨habs, hleast, hgrow, hblank⟩
    · have hframe : frameOf (k₁.mem (frameAt table) i) = frameAt t₁ := by
        rw [RadixForest.follow_snoc, hx, Option.bind_some, next_eq_some hp] at hx₁
        exact Option.some.inj hx₁
      refine ih h hlen₁ hx₁ ?_
      rw [missing, next_eq_some hp, hframe] at hsup
      exact hsup
    · refine ih hgrow.inv hlen₁ hx₁ ?_
      rw [missing, next_eq_none habs] at hsup
      have hmem : frameAt t₁ ∈ lowFrames k :=
        ⟨hleast.1, LowFor.least (n := 0) (Or.inr (hne habs)) hleast⟩
      rw [missing_blank hblank, lowFrames_unset hgrow.free,
        Set.ncard_sdiff_singleton_of_mem hmem]
      simp only [Option.elim_none] at hsup
      omega

/-! ## The whole call -/

/-- What one call of `map_process_specific` does: the page of `v` in the tree at
`r₀` now leads to `p`, and tables were added on the frames `taken`. -/
structure Maps (R : Set Nat) (r₀ : Nat) (v p : Word) (k k' : Kernel) (taken : Set Nat) : Prop where
  inv : MemInv R k'
  taken_free : taken ⊆ freeFrames k.memMap
  free : freeFrames k'.memMap = freeFrames k.memMap \ taken
  nodes : nodes next 3 k'.mem R = nodes next 3 k.mem R ∪ taken
  keep : ∀ r ∈ R, ∀ p f, p.length ≤ 3 → follow next k.mem r p = some f →
    follow next k'.mem r p = some f
  walks : ∀ r ∈ R, ∀ a, walk k' r a =
    if r = r₀ ∧ vpn a = vpn v then some (mkEntry p) else walk k r a
  entries : ∀ f i, k'.mem f i = k.mem f i ∨ k'.mem f i &&& 7 = 7 ∧
    (isPresent (k.mem f i) = false ∨ follow next k'.mem r₀ (pathOf v) = some f ∧ ptIndex v = i)
  outside : ∀ f, f ∉ RadixForest.nodes next 3 k'.mem R → k'.mem f = k.mem f
  same : SameTasks k k'

theorem charge_spec (k : Kernel) (task : Option Slot) :
    (charge k task).mem = k.mem ∧ (charge k task).memMap = k.memMap ∧ SameTasks k (charge k task) := by
  cases task with
  | none => exact ⟨rfl, rfl, SameTasks.refl k⟩
  | some t => exact ⟨rfl, rfl, ⟨rfl, rfl, rfl⟩⟩

theorem MemInv.congr {R : Set Nat} {k k' : Kernel} (h : MemInv R k) (hm : k'.mem = k.mem)
    (hb : k'.memMap = k.memMap) : MemInv R k' := by
  refine ⟨?_, ?_, ?_, ?_, ?_⟩
  · rw [hm]; exact h.forest
  · rw [hm]; exact h.below
  · rw [hm, hb]; exact h.used
  · rw [hb]; exact h.zero
  · rw [hm, hb]; exact h.blank

/-- The last write of the call, into a last table of the tree at `r₀`. -/
theorem maps_of_grows {R : Set Nat} {r₀ : Nat} {k k₁ : Kernel} {taken : Set Nat} {v p pt : Word}
    (hr₀ : r₀ ∈ R) (h : Grows R k k₁ taken)
    (hpt : follow next k₁.mem r₀ (pathOf v) = some (frameAt pt)) :
    Maps R r₀ v p k (k₁.setEntry pt (ptIndex v) (mkEntry p)) taken := by
  have hF := h.inv.forest
  have hfollow := fun {r : Nat} (hr : r ∈ R) {q : List (Fin 512)} (hq : q.length ≤ 3) =>
    RadixForest.follow_set (i := ptIndex v) (w := mkEntry p) hF hr₀ hpt (pathOf_length v) hr hq
  have hnodes : nodes next 3 (put k₁.mem (frameAt pt) (ptIndex v) (mkEntry p)) R =
      nodes next 3 k₁.mem R := RadixForest.nodes_congr (fun r hr q hq => hfollow hr hq)
  have hptn : frameAt pt ∈ nodes next 3 k₁.mem R :=
    RadixForest.mem_nodes hr₀ (pathOf_length v).le hpt
  refine ⟨⟨?_, ?_, ?_, h.inv.zero, ?_⟩, h.taken_free, h.free, ?_, ?_, ?_, ?_, ?_, ?_⟩
  · exact hF.congr (fun r hr q hq => hfollow hr hq)
  · intro f hf
    exact h.inv.below f (hnodes ▸ hf)
  · intro f hf
    exact h.inv.used f (hnodes ▸ hf)
  · intro f hf i
    have hne : f ≠ frameAt pt := by rintro rfl; exact h.inv.used _ hptn hf
    simp only [Kernel.setEntry]
    rw [RadixForest.put_of_ne _ hne]
    exact h.inv.blank f hf i
  · simp only [Kernel.setEntry]
    rw [hnodes, h.nodes]
  · intro r hr q f hq hf
    simp only [Kernel.setEntry]
    rw [hfollow hr hq]
    exact h.keep r hr q f hq hf
  · intro r hr a
    simp only [walk, Kernel.setEntry]
    rw [RadixForest.leaf_set hF hr₀ hpt (pathOf_length v) (by simp) hr (pathOf_length a).le,
      h.leaves r hr _ _ (pathOf_length a)]
    simp only [path_eq_iff]
  · intro f i
    simp only [Kernel.setEntry]
    by_cases hwrite : f = frameAt pt ∧ i = ptIndex v
    · obtain ⟨rfl, rfl⟩ := hwrite
      rw [RadixForest.put_self]
      exact Or.inr ⟨mkEntry_flags p, Or.inr ⟨(hfollow hr₀ (pathOf_length v).le).trans hpt, rfl⟩⟩
    · have hsame : put k₁.mem (frameAt pt) (ptIndex v) (mkEntry p) f i = k₁.mem f i := by
        by_cases hf : f = frameAt pt
        · subst hf
          exact RadixForest.put_index_of_ne _ _ (fun hi => hwrite ⟨rfl, hi⟩) _
        · rw [RadixForest.put_of_ne _ hf]
      rw [hsame]
      rcases h.entries f i with he | ⟨habs, hfl, -⟩
      · exact Or.inl he
      · exact Or.inr ⟨hfl, Or.inl habs⟩
  · intro f hf
    simp only [Kernel.setEntry] at hf ⊢
    rw [hnodes] at hf
    have hne : f ≠ frameAt pt := by rintro rfl; exact hf hptn
    rw [RadixForest.put_of_ne _ hne]
    funext i
    rcases h.entries f i with he | ⟨-, -, hm⟩
    · exact he
    · exact absurd hm hf
  · exact h.same.trans ⟨rfl, rfl, rfl⟩

theorem mapProcessSpecific_spec {R : Set Nat} {k k' : Kernel} {v p pml4e : Word}
    {task : Option Slot} (h : MemInv R k) (hr : frameAt pml4e ∈ R)
    (hlow : LowFor k (missing k.mem (frameAt pml4e) (pathOf v)))
    (hs : mapProcessSpecific k v p pml4e task = some k') :
    ∃ taken, Maps R (frameAt pml4e) v p k k' taken ∧
      taken.ncard = missing k.mem (frameAt pml4e) (pathOf v) := by
  obtain ⟨hm, hb, hsame⟩ := charge_spec k task
  rw [mapProcessSpecific_eq, Option.map_eq_some_iff] at hs
  obtain ⟨⟨pt, k₁⟩, hd, rfl⟩ := hs
  have hlow' : LowFor (charge k task) (missing (charge k task).mem (frameAt pml4e) (pathOf v)) := by
    rw [hm]
    rcases hlow with hl | hl
    · exact Or.inl (by rw [hb]; exact hl)
    · exact Or.inr (by rw [lowFrames, hb]; exact hl)
  obtain ⟨taken, hgrow, hcard, hpt⟩ := descend_spec hr (pathOf v) (q := []) (h.congr hm hb) rfl rfl
    hlow' hd
  have hmaps := maps_of_grows (p := p) hr hgrow hpt
  rw [hm] at hcard
  refine ⟨taken, ⟨hmaps.inv, ?_, ?_, ?_, ?_, ?_, ?_, ?_, hsame.trans hmaps.same⟩, hcard⟩
  · rw [← hb]; exact hmaps.taken_free
  · rw [← hb]; exact hmaps.free
  · rw [← hm]; exact hmaps.nodes
  · rw [← hm]; exact hmaps.keep
  · have hwalk := hmaps.walks
    simp only [walk, hm] at hwalk ⊢
    exact hwalk
  · rw [← hm]; exact hmaps.entries
  · rw [← hm]; exact hmaps.outside

theorem mapProcessSpecific_isSome {R : Set Nat} {k : Kernel} {pml4e : Word} (v p : Word)
    (task : Option Slot) (h : MemInv R k) (hr : frameAt pml4e ∈ R)
    (hsup : missing k.mem (frameAt pml4e) (pathOf v) ≤ (lowFrames k).ncard) :
    ∃ k', mapProcessSpecific k v p pml4e task = some k' := by
  obtain ⟨hm, hb, -⟩ := charge_spec k task
  have hlf : lowFrames (charge k task) = lowFrames k := by rw [lowFrames, lowFrames, hb]
  obtain ⟨r, hd⟩ := descend_isSome hr (pathOf v) (q := []) (h.congr hm hb) rfl rfl
    (by rw [hm, hlf]; exact hsup)
  rw [mapProcessSpecific_eq, hd]
  exact ⟨_, rfl⟩

end PageMap
