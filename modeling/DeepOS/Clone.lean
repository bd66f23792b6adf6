import DeepOS.VirtAlloc

/-!
# Cloning a page directory

`clone_page_directory` copies a tree of tables level by level; the last tables
are copied word by word, so both trees lead to the same frames. Each new table
comes from `i_virt_alloc`, which writes into the tables in use while the copy
runs, also when these are the tables being copied.
-/
namespace Clone

open PhyMem TaskTable PageTable PageMap VirtAlloc
open RadixForest (follow leaf nodes Forest put TreeIn SameLeaves)

/-- The body of the loop of `clone_page_directory`. -/
def cloneEntry (clone : Word → Kernel → Option (Word × Kernel)) (level : Nat) (tabSrc tabNew : Word)
    (k : Kernel) (i : Fin 512) : Option Kernel :=
  if isPresent (k.entry tabSrc i) then
    let virt := iPhyToVirt (k.entry tabSrc i &&& MEM_FLAG_MASK)
    if level = 1 then some (k.setEntry tabNew i (k.entry tabSrc i))
    else (clone virt k).map fun r =>
      r.2.setEntry tabNew i (iVirtToPhy r.1 ||| (r.2.entry tabSrc i &&& 0xFFF))
  else some k

/-- The new table and the state; level 0 is not reached from level 4. -/
def clonePageDirectory : Nat → Word → Kernel → Option (Word × Kernel)
  | 0, _, _ => none
  | level + 1, tabSrc, k =>
    (iVirtAlloc k).bind fun r =>
      (Transition.run (cloneEntry (clonePageDirectory level) (level + 1) tabSrc r.1) r.2
        (List.finRange 512)).map fun k => (r.1, k)

def tableCount (m : Nat → Fin 512 → Word) : Nat → Nat → Nat
  | 0, _ => 1
  | d + 1, r => (1 :: (List.finRange 512).map
      (fun i => (next (m r i)).elim 0 (tableCount m d))).sum

theorem tableCount_succ (m : Nat → Fin 512 → Word) (d r : Nat) :
    tableCount m (d + 1) r = 1 + ((List.finRange 512).map
      (fun i => (next (m r i)).elim 0 (tableCount m d))).sum := by
  rw [tableCount, List.sum_cons]

theorem tableCount_congr {m m' : Nat → Fin 512 → Word} {S : Set Nat} (hm : ∀ f ∈ S, m' f = m f)
    (d : Nat) : ∀ {r : Nat}, TreeIn next d m r S → tableCount m' d r = tableCount m d r := by
  induction d with
  | zero => intro r _; rfl
  | succ d ih =>
    intro r h
    have hr : m' r = m r := hm r h.root_mem
    have hsub : ∀ i, (next (m' r i)).elim 0 (tableCount m' d) =
        (next (m r i)).elim 0 (tableCount m d) := by
      intro i
      rw [hr]
      cases hg : next (m r i) with
      | none => rw [Option.elim_none, Option.elim_none]
      | some g => rw [Option.elim_some, Option.elim_some, ih (h.child hg)]
    have hcount := tableCount_succ m d r
    have hcount' := tableCount_succ m' d r
    generalize List.finRange 512 = is at hcount hcount'
    rw [hcount, hcount', funext hsub]

/-- The entry written for a cloned table leads to it, with the flags of the old one. -/
theorem next_cloned {e v : Word} (he : isPresent e = true) :
    next (iVirtToPhy v ||| (e &&& 0xFFF)) = some (frameAt v) := by
  have hp : isPresent (iVirtToPhy v ||| (e &&& 0xFFF)) = true := by
    simp only [isPresent, bne_iff_ne, ne_eq, PRESENT] at he ⊢
    intro h
    apply he
    apply BitVec.eq_of_getLsbD_eq
    intro i hi
    have hb := congrArg (fun w => w.getLsbD i) h
    simp only [BitVec.getLsbD_and, BitVec.getLsbD_or] at hb ⊢
    have hbits : ∀ j : Fin 64, (1 : Word).getLsbD j = true → (0xFFF : Word).getLsbD j = true := by
      decide
    cases h1 : (1 : Word).getLsbD i with
    | false => simp
    | true =>
      have h2 : (0xFFF : Word).getLsbD i = true := hbits ⟨i, hi⟩ h1
      have h0 : (0 : Word).getLsbD i = false := BitVec.getLsbD_zero
      rw [h1, h2, Bool.and_true, Bool.and_true, h0] at hb
      rw [Bool.and_true, h0]
      exact (Bool.or_eq_false_iff.mp hb).2
  rw [next_eq_some hp, frameAt, frameOf_eq_shift, frameOf_eq_shift]
  congr 2
  rw [BitVec.ushiftRight_or_distrib, BitVec.ushiftRight_and_distrib]
  simp

/-! ## The copy of one table -/

/-- What cloning the tree of depth `d` at `src` does: a tree on the frames `T` with
the same leaves, and nothing else outside the frames taken. -/
structure Cloned (d src dst : Nat) (k k' : Kernel) (T : Set Nat) : Prop where
  fresh : Fresh k k'
  tree : TreeIn next d k'.mem dst T
  taken : T ⊆ freeFrames k.memMap \ freeFrames k'.memMap
  low : ∀ f ∈ T, f < WINDOW_FRAMES
  leaves : SameLeaves next d k.mem src k'.mem dst
  count : (freeFrames k.memMap \ freeFrames k'.memMap).ncard = 2 * tableCount k.mem d src

theorem ncard_taken {k k₁ k₂ : Kernel} (h₁ : freeFrames k₁.memMap ⊆ freeFrames k.memMap)
    (h₂ : freeFrames k₂.memMap ⊆ freeFrames k₁.memMap) :
    (freeFrames k.memMap \ freeFrames k₂.memMap).ncard =
      (freeFrames k.memMap \ freeFrames k₁.memMap).ncard +
        (freeFrames k₁.memMap \ freeFrames k₂.memMap).ncard := by
  have hsplit : freeFrames k.memMap \ freeFrames k₂.memMap =
      (freeFrames k.memMap \ freeFrames k₁.memMap) ∪
        (freeFrames k₁.memMap \ freeFrames k₂.memMap) := by
    ext f
    constructor
    · rintro ⟨hf, hf₂⟩
      by_cases hf₁ : f ∈ freeFrames k₁.memMap
      · exact Or.inr ⟨hf₁, hf₂⟩
      · exact Or.inl ⟨hf, hf₁⟩
    · rintro (⟨hf, hf₁⟩ | ⟨hf₁, hf₂⟩)
      · exact ⟨hf, fun hf₂ => hf₁ (h₂ hf₂)⟩
      · exact ⟨h₁ hf₁, hf₂⟩
  have hdis : Disjoint (freeFrames k.memMap \ freeFrames k₁.memMap)
      (freeFrames k₁.memMap \ freeFrames k₂.memMap) :=
    Set.disjoint_left.mpr (fun f hf hf' => hf.2 hf'.1)
  rw [hsplit, Set.ncard_union_eq hdis ((freeFrames_finite _).subset Set.sdiff_subset)
    ((freeFrames_finite _).subset Set.sdiff_subset)]

/-- Writing into a frame taken since `k`. -/
theorem fresh_setEntry {k k₁ : Kernel} {table : Word} (h : Fresh k k₁)
    (hg : frameAt table ∈ freeFrames k.memMap) (hg₁ : frameAt table ∉ freeFrames k₁.memMap)
    (i : Fin 512) (e : Word) : Fresh k (k₁.setEntry table i e) := by
  have hother : ∀ f, f ≠ frameAt table → (k₁.setEntry table i e).mem f = k₁.mem f :=
    fun f hf => RadixForest.put_of_ne _ hf _ _
  refine ⟨fun f hf => ?_, h.sub, fun f hf => ?_, h.same.trans ⟨rfl, rfl, rfl⟩⟩
  · rw [hother f (by rintro rfl; exact hf hg)]
    exact h.outside f hf
  · rw [hother f (by rintro rfl; exact hg₁ hf)]
    exact h.still f hf

/-- A last table copied word by word. -/
structure CopyingLast (k₀ k : Kernel) (s g : Nat) (done : List (Fin 512)) : Prop where
  memMap : k.memMap = k₀.memMap
  same : SameTasks k₀ k
  other : ∀ f, f ≠ g → k.mem f = k₀.mem f
  copied : ∀ i ∈ done, k.mem g i = if isPresent (k₀.mem s i) then k₀.mem s i else 0
  todo : ∀ i, i ∉ done → k.mem g i = 0

theorem copyingLast_step {k₀ k k' : Kernel} {tabSrc tabNew : Word} {done : List (Fin 512)}
    {i : Fin 512} {clone : Word → Kernel → Option (Word × Kernel)}
    (hne : frameAt tabSrc ≠ frameAt tabNew) (hi : i ∉ done)
    (h : CopyingLast k₀ k (frameAt tabSrc) (frameAt tabNew) done)
    (hs : cloneEntry clone 1 tabSrc tabNew k i = some k') :
    CopyingLast k₀ k' (frameAt tabSrc) (frameAt tabNew) (done ++ [i]) := by
  have hsrc : k.mem (frameAt tabSrc) = k₀.mem (frameAt tabSrc) := h.other _ hne
  have hmem : ∀ j, j ∈ done ++ [i] ↔ j ∈ done ∨ j = i := by simp
  rw [cloneEntry, Kernel.entry, hsrc] at hs
  cases hp : isPresent (k₀.mem (frameAt tabSrc) i) with
  | false =>
    rw [hp] at hs
    simp only [Bool.false_eq_true, if_false, Option.some.injEq] at hs
    subst hs
    refine ⟨h.memMap, h.same, h.other, ?_, fun j hj => h.todo j (fun hm => hj ((hmem j).mpr (Or.inl hm)))⟩
    intro j hj
    rcases (hmem j).mp hj with hj | rfl
    · exact h.copied j hj
    · rw [hp, h.todo j hi]
      rfl
  | true =>
    rw [hp] at hs
    simp only [if_true, Option.some.injEq] at hs
    subst hs
    refine ⟨h.memMap, h.same.trans ⟨rfl, rfl, rfl⟩, ?_, ?_, ?_⟩
    · intro f hf
      exact (RadixForest.put_of_ne k.mem hf _ _).trans (h.other f hf)
    · intro j hj
      simp only [Kernel.setEntry]
      by_cases hji : j = i
      · subst hji
        rw [RadixForest.put_self, hp]
        rfl
      · rw [RadixForest.put_index_of_ne _ _ hji]
        rcases (hmem j).mp hj with hj | hj
        · exact h.copied j hj
        · exact absurd hj hji
    · intro j hj
      simp only [Kernel.setEntry]
      rw [RadixForest.put_index_of_ne _ _ (fun hji => hj ((hmem j).mpr (Or.inr hji)))]
      exact h.todo j (fun hm => hj ((hmem j).mpr (Or.inl hm)))

/-- A table of links whose subtrees for the indices `done` have been cloned; the
clone of the subtree at index `i` lies on the frames `T i`. -/
structure Copying (d : Nat) (k₀ k : Kernel) (s g : Nat) (done : List (Fin 512))
    (T : Fin 512 → Set Nat) : Prop where
  fresh : Fresh k₀ k
  new : g ∈ freeFrames k₀.memMap ∧ g ∉ freeFrames k.memMap
  todo : ∀ i, i ∉ done → k.mem g i = 0
  taken : ∀ i, T i ⊆ freeFrames k₀.memMap \ freeFrames k.memMap
  apart : ∀ i, g ∉ T i
  disjoint : ∀ i j f, f ∈ T i → f ∈ T j → i = j
  empty : ∀ i, i ∉ done → T i = ∅
  low : ∀ i, ∀ f ∈ T i, f < WINDOW_FRAMES
  copied : ∀ i ∈ done, next (k₀.mem s i) = none ∧ next (k.mem g i) = none ∨
    ∃ c c', next (k₀.mem s i) = some c ∧ next (k.mem g i) = some c' ∧
      TreeIn next d k.mem c' (T i) ∧ SameLeaves next d k₀.mem c k.mem c'
  count : (freeFrames k₀.memMap \ freeFrames k.memMap).ncard =
    2 + 2 * (done.map (fun i => (next (k₀.mem s i)).elim 0 (tableCount k₀.mem d))).sum

def Clones (d : Nat) (clone : Word → Kernel → Option (Word × Kernel)) : Prop :=
  ∀ {k k' : Kernel} {src ptr : Word} {S : Set Nat}, Ready k →
    TreeIn next d k.mem (frameAt src) S → (∀ f ∈ S, f ∉ freeFrames k.memMap) →
    LowFor k (2 * tableCount k.mem d (frameAt src)) → clone src k = some (ptr, k') →
    ∃ T, Cloned d (frameAt src) (frameAt ptr) k k' T

/-- An index of the loop was not met before. -/
theorem index_not_mem {done rest : List (Fin 512)} {i : Fin 512}
    (h : done ++ i :: rest = List.finRange 512) : i ∉ done := by
  have hnd := List.nodup_finRange 512
  rw [← h] at hnd
  intro hm
  exact (List.nodup_append.mp hnd).2.2 i hm i (List.mem_cons_self ..) rfl

/-- The state in which the loop starts. -/
theorem copying_start {d : Nat} {k k₀ : Kernel} {tabSrc tabNew : Word} (hready : Ready k)
    (hlow : LowFor k 2) (halloc : iVirtAlloc k = some (tabNew, k₀)) :
    Copying d k k₀ (frameAt tabSrc) (frameAt tabNew) [] (fun _ => ∅) := by
  obtain ⟨g₁, g, hne, hg₁, hg, hgW, rfl, hfresh, hfree₀, hzero⟩ := iVirtAlloc_spec hready hlow halloc
  have hat : frameAt (window g) = g := frameAt_window (freeFrames_lt hg)
  refine ⟨hfresh, ?_, ?_, fun _ => Set.empty_subset _, fun _ => Set.notMem_empty _,
    fun _ _ _ hf => hf.elim, fun _ _ => rfl, fun _ _ hf => hf.elim,
    fun i hi => (List.not_mem_nil hi).elim, ?_⟩
  · rw [hat, hfree₀]
    exact ⟨hg, fun hm => hm.2 (Or.inr rfl)⟩
  · intro i _
    rw [hat, hzero]
  · rw [ncard_pair_taken hne hg₁ hg hfree₀]
    rfl

section Step

variable {d level : Nat} {k₀ k : Kernel} {tabSrc tabNew : Word} {done rest : List (Fin 512)}
  {i : Fin 512} {T : Fin 512 → Set Nat} {S : Set Nat}
  {clone : Word → Kernel → Option (Word × Kernel)}

/-- An absent entry is skipped. -/
theorem copying_skip (hi : i ∉ done)
    (h : Copying d k₀ k (frameAt tabSrc) (frameAt tabNew) done T)
    (habs : isPresent (k₀.mem (frameAt tabSrc) i) = false) :
    Copying d k₀ k (frameAt tabSrc) (frameAt tabNew) (done ++ [i]) T := by
  have hmem : ∀ j, j ∈ done ++ [i] ↔ j ∈ done ∨ j = i := by simp
  refine ⟨h.fresh, h.new, fun j hj => h.todo j (fun hm => hj ((hmem j).mpr (Or.inl hm))), h.taken,
    h.apart, h.disjoint, fun j hj => h.empty j (fun hm => hj ((hmem j).mpr (Or.inl hm))), h.low,
    ?_, ?_⟩
  · intro j hj
    rcases (hmem j).mp hj with hj | rfl
    · exact h.copied j hj
    · refine Or.inl ⟨next_eq_none habs, ?_⟩
      rw [h.todo j hi]
      rfl
  · rw [h.count, List.map_append, List.sum_append]
    simp [next_eq_none habs]

/-- A link is followed: its subtree is cloned and the clone linked into the new table. -/
theorem copying_clone {k₁ : Kernel} {ptr : Word} {c : Nat} {T' : Set Nat} (hi : i ∉ done)
    (hS : TreeIn next (d + 1) k₀.mem (frameAt tabSrc) S)
    (hfree : ∀ f ∈ S, f ∉ freeFrames k₀.memMap)
    (h : Copying d k₀ k (frameAt tabSrc) (frameAt tabNew) done T)
    (hp : isPresent (k₀.mem (frameAt tabSrc) i) = true)
    (hc : next (k₀.mem (frameAt tabSrc) i) = some c)
    (hclone : Cloned d c (frameAt ptr) k k₁ T') :
    Copying d k₀ (k₁.setEntry tabNew i
        (iVirtToPhy ptr ||| (k₁.entry tabSrc i &&& 0xFFF)))
      (frameAt tabSrc) (frameAt tabNew) (done ++ [i]) (Function.update T i T') := by
  have hmem : ∀ j, j ∈ done ++ [i] ↔ j ∈ done ∨ j = i := by simp
  have hkS : ∀ f ∈ S, k.mem f = k₀.mem f := fun f hf => h.fresh.outside f (hfree f hf)
  have hchild : TreeIn next d k₀.mem c S := hS.child hc
  have hf₁ : Fresh k₀ k₁ := h.fresh.trans hclone.fresh
  have hnew₁ : frameAt tabNew ∉ freeFrames k₁.memMap := fun hm => h.new.2 (hclone.fresh.sub hm)
  have hentry : k₁.entry tabSrc i = k₀.mem (frameAt tabSrc) i := by
    rw [Kernel.entry, hf₁.outside _ (hfree _ hS.root_mem)]
  -- frames taken before this index keep their contents
  have hold : ∀ f, f ∉ freeFrames k.memMap → f ≠ frameAt tabNew →
      (k₁.setEntry tabNew i (iVirtToPhy ptr ||| (k₁.entry tabSrc i &&& 0xFFF))).mem f = k.mem f :=
    fun f hf hne => (RadixForest.put_of_ne _ hne _ _).trans (hclone.fresh.outside f hf)
  have hT'new : frameAt tabNew ∉ T' := fun hm => h.new.2 (hclone.taken hm).1
  have hT'mem : ∀ f ∈ T',
      (k₁.setEntry tabNew i (iVirtToPhy ptr ||| (k₁.entry tabSrc i &&& 0xFFF))).mem f = k₁.mem f :=
    fun f hf => RadixForest.put_of_ne _ (by rintro rfl; exact hT'new hf) _ _
  have hTT' : ∀ j f, f ∈ T j → f ∉ T' := fun j f hf hf' => (h.taken j hf).2 (hclone.taken hf').1
  refine ⟨fresh_setEntry hf₁ h.new.1 hnew₁ _ _, ⟨h.new.1, hnew₁⟩, ?_, ?_, ?_, ?_, ?_, ?_, ?_, ?_⟩
  · intro j hj
    simp only [Kernel.setEntry]
    rw [RadixForest.put_index_of_ne _ _ (fun hji => hj ((hmem j).mpr (Or.inr hji))),
      hclone.fresh.outside _ h.new.2]
    exact h.todo j (fun hm => hj ((hmem j).mpr (Or.inl hm)))
  · intro j f hf
    by_cases hj : j = i
    · subst hj
      rw [Function.update_self] at hf
      exact ⟨h.fresh.sub (hclone.taken hf).1, (hclone.taken hf).2⟩
    · rw [Function.update_of_ne hj] at hf
      exact ⟨(h.taken j hf).1, fun hm => (h.taken j hf).2 (hclone.fresh.sub hm)⟩
  · intro j
    by_cases hj : j = i
    · subst hj; rw [Function.update_self]; exact hT'new
    · rw [Function.update_of_ne hj]; exact h.apart j
  · intro a b f ha hb
    by_cases hai : a = i <;> by_cases hbi : b = i
    · rw [hai, hbi]
    · subst hai
      rw [Function.update_self] at ha
      rw [Function.update_of_ne hbi] at hb
      exact absurd ha (hTT' b f hb)
    · subst hbi
      rw [Function.update_self] at hb
      rw [Function.update_of_ne hai] at ha
      exact absurd hb (hTT' a f ha)
    · rw [Function.update_of_ne hai] at ha
      rw [Function.update_of_ne hbi] at hb
      exact h.disjoint a b f ha hb
  · intro j hj
    rw [Function.update_of_ne (fun hji => hj ((hmem j).mpr (Or.inr hji)))]
    exact h.empty j (fun hm => hj ((hmem j).mpr (Or.inl hm)))
  · intro j f hf
    by_cases hj : j = i
    · subst hj; rw [Function.update_self] at hf; exact hclone.low f hf
    · rw [Function.update_of_ne hj] at hf; exact h.low j f hf
  · intro j hj
    by_cases hji : j = i
    · subst hji
      refine Or.inr ⟨c, frameAt ptr, hc, ?_, ?_, ?_⟩
      · simp only [Kernel.setEntry]
        rw [RadixForest.put_self, hentry]
        exact next_cloned hp
      · rw [Function.update_self]
        exact hclone.tree.congr hT'mem
      · have hleaves : SameLeaves next d k₀.mem c k₁.mem (frameAt ptr) := by
          intro p l hpl
          rw [hclone.leaves p l hpl, hchild.leaf_eq hkS hpl.le l]
        exact hleaves.congr hclone.tree hT'mem
    · rcases (hmem j).mp hj with hj | hj
      · have hjt : ∀ f ∈ T j, (k₁.setEntry tabNew i
            (iVirtToPhy ptr ||| (k₁.entry tabSrc i &&& 0xFFF))).mem f = k.mem f :=
          fun f hf => hold f (h.taken j hf).2 (by rintro rfl; exact h.apart j hf)
        have hword : (k₁.setEntry tabNew i
            (iVirtToPhy ptr ||| (k₁.entry tabSrc i &&& 0xFFF))).mem (frameAt tabNew) j =
              k.mem (frameAt tabNew) j := by
          simp only [Kernel.setEntry]
          rw [RadixForest.put_index_of_ne _ _ hji, hclone.fresh.outside _ h.new.2]
        rw [hword, Function.update_of_ne hji]
        rcases h.copied j hj with hn | ⟨a, a', ha, ha', ht, hl⟩
        · exact Or.inl hn
        · exact Or.inr ⟨a, a', ha, ha', ht.congr hjt, hl.congr ht hjt⟩
      · exact absurd hj hji
  · have hcount : tableCount k.mem d c = tableCount k₀.mem d c := tableCount_congr hkS d hchild
    have htaken := ncard_taken h.fresh.sub hclone.fresh.sub
    rw [h.count, hclone.count, hcount] at htaken
    simp only [Kernel.setEntry]
    rw [htaken, List.map_append, List.sum_append]
    simp only [List.map_cons, List.map_nil, List.sum_cons, List.sum_nil, hc, Option.elim_some]
    omega

/-- The frames left are enough for the subtree at index `i`. -/
theorem copying_cost {c : Nat} (hdone : done ++ i :: rest = List.finRange 512)
    (hS : TreeIn next (d + 1) k₀.mem (frameAt tabSrc) S)
    (hfree : ∀ f ∈ S, f ∉ freeFrames k₀.memMap)
    (h : Copying d k₀ k (frameAt tabSrc) (frameAt tabNew) done T)
    (hc : next (k₀.mem (frameAt tabSrc) i) = some c) :
    (freeFrames k₀.memMap \ freeFrames k.memMap).ncard + 2 * tableCount k.mem d c ≤
      2 * tableCount k₀.mem (d + 1) (frameAt tabSrc) := by
  have hkS : ∀ f ∈ S, k.mem f = k₀.mem f := fun f hf => h.fresh.outside f (hfree f hf)
  have hcount := tableCount_succ k₀.mem d (frameAt tabSrc)
  rw [h.count, tableCount_congr hkS d (hS.child hc), hcount, ← hdone, List.map_append,
    List.sum_append, List.map_cons, List.sum_cons, hc, Option.elim_some]
  omega

/-- The table a link leads to, as the loop computes its address. -/
theorem frameAt_link (e : Word) : frameAt (iPhyToVirt (e &&& MEM_FLAG_MASK)) = frameOf e := by
  rw [frameAt_iPhyToVirt]
  exact frameOf_getAddress e

theorem copying_step {k₁ : Kernel} (hclones : Clones d clone) (hlevel : level ≠ 1)
    (hready : Ready k₀) (hdone : done ++ i :: rest = List.finRange 512)
    (hS : TreeIn next (d + 1) k₀.mem (frameAt tabSrc) S)
    (hfree : ∀ f ∈ S, f ∉ freeFrames k₀.memMap)
    (hlow : LowFor k₀ (2 * tableCount k₀.mem (d + 1) (frameAt tabSrc)))
    (h : Copying d k₀ k (frameAt tabSrc) (frameAt tabNew) done T)
    (hs : cloneEntry clone level tabSrc tabNew k i = some k₁) :
    ∃ T, Copying d k₀ k₁ (frameAt tabSrc) (frameAt tabNew) (done ++ [i]) T := by
  have hi := index_not_mem hdone
  have hsrc : k.entry tabSrc i = k₀.mem (frameAt tabSrc) i := by
    rw [Kernel.entry, h.fresh.outside _ (hfree _ hS.root_mem)]
  rw [cloneEntry, hsrc] at hs
  cases hp : isPresent (k₀.mem (frameAt tabSrc) i) with
  | false =>
    rw [hp] at hs
    simp only [Bool.false_eq_true, if_false, Option.some.injEq] at hs
    subst hs
    exact ⟨T, copying_skip hi h hp⟩
  | true =>
    rw [hp] at hs
    simp only [if_true, if_neg hlevel, Option.map_eq_some_iff] at hs
    obtain ⟨⟨ptr, k₂⟩, hclone, rfl⟩ := hs
    have hc := next_eq_some hp
    have hkS : ∀ f ∈ S, k.mem f = k₀.mem f := fun f hf => h.fresh.outside f (hfree f hf)
    have hchild := (hS.child hc).congr hkS
    have hlow₁ : LowFor k (2 * tableCount k.mem d (frameOf (k₀.mem (frameAt tabSrc) i))) := by
      have hcost := copying_cost hdone hS hfree h hc
      exact (VirtAlloc.LowFor.fresh hlow h.fresh (le_refl _)).mono (by omega)
    obtain ⟨T', hT'⟩ := hclones (hready.fresh h.fresh) (by rw [frameAt_link]; exact hchild)
      (fun f hf hm => hfree f hf (h.fresh.sub hm)) (by rw [frameAt_link]; exact hlow₁) hclone
    rw [frameAt_link] at hT'
    exact ⟨_, copying_clone hi hS hfree h hp hc hT'⟩

end Step

/-- The last level. -/
theorem clones_zero : Clones 0 (clonePageDirectory 1) := by
  intro k k' src ptr S hready hS hfree hlow hs
  rw [clonePageDirectory, Option.bind_eq_some_iff] at hs
  obtain ⟨⟨tabNew, k₀⟩, halloc, hs⟩ := hs
  rw [Option.map_eq_some_iff] at hs
  obtain ⟨k₂, hrun, hres⟩ := hs
  obtain ⟨rfl, rfl⟩ := Prod.mk.inj hres
  obtain ⟨g₁, g, hne, hg₁, hg, hgW, rfl, hfresh, hfree₀, hzero⟩ := iVirtAlloc_spec hready hlow halloc
  have hat : frameAt (window g) = g := frameAt_window (freeFrames_lt hg)
  have hsg : frameAt src ≠ frameAt (window g) := by
    intro he
    rw [hat] at he
    exact hfree _ hS.root_mem (by rw [he]; exact hg)
  have hloop : CopyingLast k₀ k₂ (frameAt src) (frameAt (window g)) (List.finRange 512) := by
    refine Transition.run_loop _ (P := fun done k => CopyingLast k₀ k (frameAt src)
      (frameAt (window g)) done) ?_ ?_ hrun
    · intro done i rest k₁ k₂ hdone h hs
      exact copyingLast_step hsg (index_not_mem hdone) h hs
    · refine ⟨rfl, SameTasks.refl _, fun _ _ => rfl, fun i hi => (List.not_mem_nil hi).elim, ?_⟩
      intro i _
      rw [hat, hzero]
  rw [hat] at hloop hsg ⊢
  have hgk₂ : g ∉ freeFrames k₂.memMap := by
    rw [hloop.memMap, hfree₀]
    exact fun hm => hm.2 (Or.inr rfl)
  have hfresh₂ : Fresh k k₂ := by
    refine ⟨fun f hf => ?_, ?_, fun f hf => ?_, hfresh.same.trans hloop.same⟩
    · rw [hloop.other f (by rintro rfl; exact hf hg)]
      exact hfresh.outside f hf
    · rw [hloop.memMap]; exact hfresh.sub
    · rw [hloop.other f (by rintro rfl; exact hgk₂ hf)]
      exact hfresh.still f (hloop.memMap ▸ hf)
  refine ⟨{g}, hfresh₂, TreeIn.single g, ?_, ?_, ?_, ?_⟩
  · rintro f rfl
    exact ⟨hg, hgk₂⟩
  · rintro f rfl
    exact hgW
  · intro p i hp
    obtain rfl := List.length_eq_zero_iff.mp hp
    have hword := hloop.copied i (List.mem_finRange i)
    rw [hfresh.outside _ (hfree _ hS.root_mem)] at hword
    simp only [leaf, follow, Option.bind_some, hword]
    cases hp : isPresent (k.mem (frameAt src) i) with
    | true => rfl
    | false =>
      have hnone : next (0 : Word) = none := rfl
      simp only [Bool.false_eq_true, if_false, hnone, next_eq_none hp, Option.isSome_none]
  · rw [hloop.memMap, ncard_pair_taken hne hg₁ hg hfree₀]
    rfl

theorem clones_succ {d : Nat} (ih : Clones d (clonePageDirectory (d + 1))) :
    Clones (d + 1) (clonePageDirectory (d + 2)) := by
  intro k k' src ptr S hready hS hfree hlow hs
  rw [clonePageDirectory, Option.bind_eq_some_iff] at hs
  obtain ⟨⟨tabNew, k₀⟩, halloc, hs⟩ := hs
  rw [Option.map_eq_some_iff] at hs
  obtain ⟨k₂, hrun, hres⟩ := hs
  obtain ⟨rfl, rfl⟩ := Prod.mk.inj hres
  have hcount := tableCount_succ k.mem d (frameAt src)
  obtain ⟨g₁, g, hne, hg₁, hg, hgW, rfl, hfresh, hfree₀, hzero⟩ :=
    iVirtAlloc_spec hready (hlow.mono (by rw [hcount]; omega)) halloc
  have hat : frameAt (window g) = g := frameAt_window (freeFrames_lt hg)
  have hstart : Copying d k k₀ (frameAt src) (frameAt (window g)) [] (fun _ => ∅) :=
    copying_start hready (hlow.mono (by rw [hcount]; omega)) halloc
  have hloop : ∃ T, Copying d k k₂ (frameAt src) (frameAt (window g)) (List.finRange 512) T := by
    refine Transition.run_loop _ (P := fun done k₁ => ∃ T, Copying d k k₁ (frameAt src)
      (frameAt (window g)) done T) ?_ ⟨_, hstart⟩ hrun
    rintro done i rest k₁ k₂ hdone ⟨T, h⟩ hs
    exact copying_step ih (by omega) hready hdone hS hfree hlow h hs
  obtain ⟨T, h⟩ := hloop
  have hall : ∀ i, i ∈ List.finRange 512 := List.mem_finRange
  refine ⟨insert (frameAt (window g)) (⋃ i, T i), h.fresh, ?_, ?_, ?_, ?_, ?_⟩
  · refine TreeIn.node h.apart h.disjoint (fun i c' hc' => ?_)
    rcases h.copied i (hall i) with ⟨-, hn⟩ | ⟨c, c'', -, hc'', ht, -⟩
    · rw [hn] at hc'; cases hc'
    · rw [hc''] at hc'
      obtain rfl := Option.some.inj hc'
      exact ht
  · rintro f (rfl | hf)
    · exact h.new
    · obtain ⟨i, hf⟩ := Set.mem_iUnion.mp hf
      exact h.taken i hf
  · rintro f (rfl | hf)
    · rw [hat]; exact hgW
    · obtain ⟨i, hf⟩ := Set.mem_iUnion.mp hf
      exact h.low i f hf
  · refine SameLeaves.node (fun i => ?_)
    rcases h.copied i (hall i) with hn | ⟨c, c', hc, hc', -, hl⟩
    · exact Or.inl hn
    · exact Or.inr ⟨c, c', hc, hc', hl⟩
  · rw [h.count, hcount]
    omega

/-- Cloning a tree with `d + 1` levels of tables. -/
theorem clones (d : Nat) : Clones d (clonePageDirectory (d + 1)) := by
  induction d with
  | zero => exact clones_zero
  | succ d ih => exact clones_succ ih

/-! ## Enough frames -/

theorem clone_isSome (d : Nat) : ∀ {k : Kernel} {src : Word} {S : Set Nat}, Ready k →
    TreeIn next d k.mem (frameAt src) S → (∀ f ∈ S, f ∉ freeFrames k.memMap) →
    2 * tableCount k.mem d (frameAt src) ≤ (lowFrames k).ncard →
    ∃ r, clonePageDirectory (d + 1) src k = some r := by
  induction d with
  | zero =>
    intro k src S hready hS hfree hsup
    obtain ⟨⟨tabNew, k₀⟩, halloc⟩ := iVirtAlloc_isSome hready hsup
    obtain ⟨k', hrun, -⟩ := Transition.run_loop_some
      (cloneEntry (clonePageDirectory 0) 1 src tabNew) (List.finRange 512)
      (P := fun _ _ => True) (s := k₀) (fun done i rest k _ _ => by
        rw [cloneEntry]
        split
        · exact ⟨_, if_pos rfl, trivial⟩
        · exact ⟨_, rfl, trivial⟩) trivial
    rw [clonePageDirectory, halloc, Option.bind_some]
    dsimp only
    rw [hrun]
    exact ⟨_, rfl⟩
  | succ d ih =>
    intro k src S hready hS hfree hsup
    have hcount := tableCount_succ k.mem d (frameAt src)
    obtain ⟨⟨tabNew, k₀⟩, halloc⟩ := iVirtAlloc_isSome hready (by rw [hcount] at hsup; omega)
    have hstart : Copying d k k₀ (frameAt src) (frameAt tabNew) [] (fun _ => ∅) :=
      copying_start hready (Or.inr (by rw [hcount] at hsup; omega)) halloc
    obtain ⟨k', hrun, -⟩ := Transition.run_loop_some
      (cloneEntry (clonePageDirectory (d + 1)) (d + 2) src tabNew) (List.finRange 512)
      (P := fun done k₁ => ∃ T, Copying d k k₁ (frameAt src) (frameAt tabNew) done T) (s := k₀)
      (by
        rintro done i rest k₁ hdone ⟨T, h⟩
        have hsome : ∃ k₂, cloneEntry (clonePageDirectory (d + 1)) (d + 2) src tabNew k₁ i = some k₂ := by
          have hsrc : k₁.entry src i = k.mem (frameAt src) i := by
            rw [Kernel.entry, h.fresh.outside _ (hfree _ hS.root_mem)]
          rw [cloneEntry, hsrc]
          cases hp : isPresent (k.mem (frameAt src) i) with
          | false => exact ⟨_, if_neg (by decide)⟩
          | true =>
            have hc := next_eq_some hp
            have hchild : TreeIn next d k₁.mem
                (frameAt (iPhyToVirt (k.mem (frameAt src) i &&& MEM_FLAG_MASK))) S := by
              rw [frameAt_link]
              exact (hS.child hc).congr (fun f hf => h.fresh.outside f (hfree f hf))
            have hleft := ncard_lowFrames_fresh h.fresh
            have hcost := copying_cost hdone hS hfree h hc
            obtain ⟨r, hr⟩ := ih (hready.fresh h.fresh) hchild
              (fun f hf hm => hfree f hf (h.fresh.sub hm)) (by rw [frameAt_link]; omega)
            rw [if_pos rfl, if_neg (by omega), hr]
            exact ⟨_, rfl⟩
        obtain ⟨k₂, hk₂⟩ := hsome
        exact ⟨k₂, hk₂, copying_step (clones d) (by omega) hready hdone hS hfree (Or.inr hsup) h hk₂⟩)
      ⟨_, hstart⟩
    rw [clonePageDirectory, halloc, Option.bind_some]
    dsimp only
    rw [hrun]
    exact ⟨_, rfl⟩

end Clone
