import DeepOS.PageMap

/-!
# The page-table store law

A tree under any sequence of `map_process_specific` calls behaves as a store
indexed by pages: a page leads to the address mapped last, every other page keeps
its walk, and the frames that leave the bitmap are the tables that were missing.
-/
namespace StoreLaw

open PhyMem TaskTable PageTable PageMap
open RadixForest (follow leaf nodes Forest TreeIn)

abbrev Mapping := Word × Word

def mapCall (pml4e : Word) (task : Option Slot) (k : Kernel) (c : Mapping) : Option Kernel :=
  mapProcessSpecific k c.1 c.2 pml4e task

def levels (pml4e : Word) (k : Kernel) (c : Mapping) : Nat :=
  missing k.mem (frameAt pml4e) (pathOf c.1)

/-- The allocator holds enough frames below 256 MB for the missing levels. -/
def Supplied (pml4e : Word) (k : Kernel) (c : Mapping) : Prop :=
  levels pml4e k c ≤ (lowFrames k).ncard

def lastMapped : List Mapping → Word → Option Word
  | [], _ => none
  | c :: cs, a => (lastMapped cs a).or (if vpn a = vpn c.1 then some c.2 else none)

/-- The entry is the last one on the walk of a page that a call names. -/
def NamedLeaf (pml4e : Word) (cs : List Mapping) (k : Kernel) (f : Nat) (i : Fin 512) : Prop :=
  ∃ c ∈ cs, follow next k.mem (frameAt pml4e) (pathOf c.1) = some f ∧ ptIndex c.1 = i

def totalLevels (pml4e : Word) (task : Option Slot) (k : Kernel) : List Mapping → Nat
  | [] => 0
  | c :: cs => levels pml4e k c +
      (mapCall pml4e task k c).elim 0 (fun k' => totalLevels pml4e task k' cs)

theorem map_run {pml4e : Word} {task : Option Slot} (cs : List Mapping) :
    ∀ {k : Kernel}, MemInv {frameAt pml4e} k →
      Transition.Along (mapCall pml4e task) (Supplied pml4e) k cs →
      ∃ k', Transition.run (mapCall pml4e task) k cs = some k' ∧ MemInv {frameAt pml4e} k' ∧
        (∀ a, walk k' (frameAt pml4e) a =
          ((lastMapped cs a).map mkEntry).or (walk k (frameAt pml4e) a)) ∧
        (∀ q f, q.length ≤ 3 → follow next k.mem (frameAt pml4e) q = some f →
          follow next k'.mem (frameAt pml4e) q = some f) ∧
        (∀ f i, k'.mem f i = k.mem f i ∨ k'.mem f i &&& 7 = 7 ∧
          (isPresent (k.mem f i) = false ∨ NamedLeaf pml4e cs k' f i)) ∧
        freeFrames k'.memMap ⊆ freeFrames k.memMap ∧
        (freeFrames k.memMap \ freeFrames k'.memMap).ncard = totalLevels pml4e task k cs := by
  induction cs with
  | nil =>
    intro k h _
    exact ⟨k, rfl, h, fun _ => rfl, fun _ _ _ hf => hf, fun _ _ => Or.inl rfl, subset_rfl,
      by simp [totalLevels]⟩
  | cons c cs ih =>
    intro k h hsup
    obtain ⟨k₁, h₁⟩ := mapProcessSpecific_isSome c.1 c.2 task h rfl hsup.1
    have hstep : mapCall pml4e task k c = some k₁ := h₁
    obtain ⟨taken, hmaps, hcard⟩ := mapProcessSpecific_spec h rfl (Or.inr hsup.1) h₁
    obtain ⟨k', hrun, hinv, hwalk, hkeep, hentry, hfree, htotal⟩ := ih hmaps.inv (hsup.2 k₁ hstep)
    have hsplit : freeFrames k.memMap \ freeFrames k'.memMap =
        taken ∪ (freeFrames k₁.memMap \ freeFrames k'.memMap) := by
      rw [hmaps.free] at hfree ⊢
      ext f
      constructor
      · rintro ⟨hf, hf'⟩
        by_cases ht : f ∈ taken
        · exact Or.inl ht
        · exact Or.inr ⟨⟨hf, ht⟩, hf'⟩
      · rintro (ht | ⟨⟨hf, -⟩, hf'⟩)
        · exact ⟨hmaps.taken_free ht, fun hf' => (hfree hf').2 ht⟩
        · exact ⟨hf, hf'⟩
    have hdis : Disjoint taken (freeFrames k₁.memMap \ freeFrames k'.memMap) := by
      rw [Set.disjoint_left]
      intro f hf hf'
      rw [hmaps.free] at hf'
      exact hf'.1.2 hf
    refine ⟨k', ?_, hinv, ?_, ?_, ?_, ?_, ?_⟩
    · exact (Transition.run_cons_eq_some _).mpr ⟨k₁, hstep, hrun⟩
    · intro a
      rw [hwalk a, hmaps.walks _ rfl a, lastMapped]
      cases lastMapped cs a with
      | some p => simp
      | none =>
        by_cases hp : vpn a = vpn c.1
        · simp [hp]
        · simp [hp]
    · intro q f hq hf
      exact hkeep q f hq (hmaps.keep _ rfl q f hq hf)
    · intro f i
      rcases hmaps.entries f i with h₁ | ⟨h7, hold⟩
      · rcases hentry f i with he | ⟨h7, hold | ⟨d, hd, hf⟩⟩
        · exact Or.inl (he.trans h₁)
        · exact Or.inr ⟨h7, Or.inl (by rw [← h₁]; exact hold)⟩
        · exact Or.inr ⟨h7, Or.inr ⟨d, List.mem_cons_of_mem c hd, hf⟩⟩
      · have h7' : k'.mem f i &&& 7 = 7 := by
          rcases hentry f i with he | ⟨h7', -⟩
          · rw [he]; exact h7
          · exact h7'
        rcases hold with habs | ⟨hf, hi⟩
        · exact Or.inr ⟨h7', Or.inl habs⟩
        · exact Or.inr ⟨h7', Or.inr ⟨c, List.mem_cons_self .., hkeep _ f (pathOf_length c.1).le hf, hi⟩⟩
    · refine hfree.trans ?_
      rw [hmaps.free]
      exact Set.sdiff_subset
    · rw [hsplit, Set.ncard_union_eq hdis ((freeFrames_finite _).subset hmaps.taken_free)
        ((freeFrames_finite _).subset Set.sdiff_subset), hcard, htotal, totalLevels, hstep]
      rfl

theorem missing_le (m : Nat → Fin 512 → Word) (f : Nat) (p : List (Fin 512)) :
    missing m f p ≤ p.length := by
  induction p generalizing f with
  | nil => rfl
  | cons i p ih =>
    rw [missing, List.length_cons]
    cases next (m f i) with
    | none => rfl
    | some g => exact (ih g).trans (Nat.le_succ _)

/-- Three frames for each call are enough. -/
theorem supplied_of_three {pml4e : Word} {task : Option Slot} (cs : List Mapping) :
    ∀ {k : Kernel}, MemInv {frameAt pml4e} k → 3 * cs.length ≤ (lowFrames k).ncard →
      Transition.Along (mapCall pml4e task) (Supplied pml4e) k cs := by
  induction cs with
  | nil => intro k _ _; trivial
  | cons c cs ih =>
    intro k h hcount
    rw [List.length_cons] at hcount
    have hle : levels pml4e k c ≤ 3 := missing_le _ _ (pathOf c.1)
    have hsup : Supplied pml4e k c := by rw [Supplied]; omega
    refine ⟨hsup, fun k₁ hstep => ?_⟩
    obtain ⟨taken, hmaps, hcard⟩ := mapProcessSpecific_spec h rfl (Or.inr hsup) hstep
    have hlow : lowFrames k₁ = lowFrames k \ taken := by
      rw [lowFrames, lowFrames, hmaps.free]
      ext f
      simp only [Set.mem_inter_iff, Set.mem_sdiff]
      tauto
    have htaken : taken.ncard ≤ 3 := hcard.trans_le hle
    have hleft := Set.le_ncard_sdiff taken (lowFrames k)
      ((freeFrames_finite _).subset hmaps.taken_free)
    rw [← hlow] at hleft
    exact ih hmaps.inv (by omega)

/-- Present entries above the last level are kept: only leaves are stored over. -/
theorem upper_kept {pml4e : Word} {k k' : Kernel} {cs : List Mapping}
    (h : MemInv {frameAt pml4e} k')
    (hkeep : ∀ q f, q.length ≤ 3 → follow next k.mem (frameAt pml4e) q = some f →
      follow next k'.mem (frameAt pml4e) q = some f)
    (hentry : ∀ f i, k'.mem f i = k.mem f i ∨ k'.mem f i &&& 7 = 7 ∧
      (isPresent (k.mem f i) = false ∨ NamedLeaf pml4e cs k' f i))
    {q : List (Fin 512)} {f : Nat} {i : Fin 512} (hq : q.length < 3)
    (hf : follow next k.mem (frameAt pml4e) q = some f) (hp : isPresent (k.mem f i) = true) :
    k'.mem f i = k.mem f i := by
  rcases hentry f i with he | ⟨-, habs | ⟨c, -, hleaf, -⟩⟩
  · exact he
  · rw [hp] at habs
    cases habs
  · -- the frame would be reached by a short path and by one of length three
    have hpath := (h.forest _ rfl _ rfl q (pathOf c.1) f hq.le (pathOf_length c.1).le
      (hkeep q f hq.le hf) hleaf).2
    have hlen := congrArg List.length hpath
    rw [pathOf_length] at hlen
    omega

/-- Any sequence of calls that the allocator can supply succeeds. Afterwards every
page mapped leads to its last address with all three attributes, every other page
keeps its walk or its absence, each entry written carries the attributes and was
absent before or is the leaf of a page mapped, the present entries above the leaves
are as before, the tree is well formed, and as many frames have left the bitmap as
levels were missing. -/
theorem page_table_store_law (k : Kernel) (pml4e : Word) (task : Option Slot) (cs : List Mapping)
    (h : MemInv {frameAt pml4e} k) (haligned : ∀ c ∈ cs, c.2 &&& 0xFFF = 0)
    (hsup : Transition.Along (mapCall pml4e task) (Supplied pml4e) k cs) :
    ∃ k', Transition.run (mapCall pml4e task) k cs = some k' ∧ MemInv {frameAt pml4e} k' ∧
      (∀ a p, lastMapped cs a = some p →
        walk k' (frameAt pml4e) a = some (mkEntry p) ∧ getPhyAddr k' a pml4e = p) ∧
      (∀ a, lastMapped cs a = none → walk k' (frameAt pml4e) a = walk k (frameAt pml4e) a) ∧
      (∀ q f i, q.length < 3 → follow next k.mem (frameAt pml4e) q = some f →
        isPresent (k.mem f i) = true → k'.mem f i = k.mem f i) ∧
      (∀ f i, k'.mem f i = k.mem f i ∨ k'.mem f i &&& 7 = 7 ∧
        (isPresent (k.mem f i) = false ∨ NamedLeaf pml4e cs k' f i)) ∧
      freeFrames k'.memMap ⊆ freeFrames k.memMap ∧
      (freeFrames k.memMap \ freeFrames k'.memMap).ncard = totalLevels pml4e task k cs := by
  obtain ⟨k', hrun, hinv, hwalk, hkeep, hentry, hfree, hcard⟩ := map_run cs h hsup
  have hmem : ∀ (ds : List Mapping) a p, lastMapped ds a = some p → ∃ c ∈ ds, c.2 = p := by
    intro ds a p
    induction ds with
    | nil => intro hl; cases hl
    | cons c ds ih =>
      intro hl
      rw [lastMapped, Option.or_eq_some_iff] at hl
      rcases hl with hl | ⟨-, hl⟩
      · obtain ⟨d, hd, hp⟩ := ih hl
        exact ⟨d, List.mem_cons_of_mem c hd, hp⟩
      · split at hl
        · exact ⟨c, List.mem_cons_self .., Option.some.inj hl⟩
        · cases hl
  refine ⟨k', hrun, hinv, ?_, ?_, ?_, hentry, hfree, hcard⟩
  · intro a p hl
    have hw : walk k' (frameAt pml4e) a = some (mkEntry p) := by rw [hwalk a, hl]; rfl
    obtain ⟨c, hc, rfl⟩ := hmem cs a p hl
    exact ⟨hw, by rw [getPhyAddr_eq hw, mkEntry_address (haligned c hc)]⟩
  · intro a hl
    rw [hwalk a, hl]
    rfl
  · intro q f i hq hf hp
    exact upper_kept hinv hkeep hentry hq hf hp

/-! ## A small memory -/

/-- One chain of tables on the frames 1 to 4. The entry of the root is `e`; the
last table maps the window addresses of the first 512 frames. -/
def smallMem (e : Word) : Nat → Fin 512 → Word := fun f i =>
  if f = 1 ∧ i = 511 then e
  else if f = 2 ∧ i = 511 then 0x3007
  else if f = 3 ∧ i = 384 then 0x4007
  else if f = 4 then mkEntry (frameAddr i)
  else 0

def smallMap : MemMap := fun i => if i = 0 then 0xFFFFFFFFFFFFFFE0 else 0

def smallKernel (e : Word) : Kernel where
  mem := smallMem e
  memMap := smallMap
  tasks := fun _ => TaskMem.zero
  currentMemUsage := fun _ => 0
  currentTask := none
  curPml4eVirt := iPhyToVirt 0x1000

theorem freeFrames_smallMap : freeFrames smallMap = Set.Ico 5 64 := by
  ext f
  rw [mem_freeFrames, mmapTest, BitArray.test_eq, Set.mem_Ico]
  by_cases hf : f < 64
  · have hbits : ∀ j : Fin 64, (0xFFFFFFFFFFFFFFE0 : Word).getLsbD j = decide (5 ≤ j.val) := by decide
    have hdiv : f / 64 = 0 := by omega
    have hmod : f % 64 = f := by omega
    rw [hdiv, hmod, smallMap, if_pos rfl, hbits ⟨f, hf⟩, FRAMES]
    simp only [decide_eq_true_eq]
    omega
  · have hdiv : f / 64 ≠ 0 := by omega
    rw [smallMap, if_neg hdiv]
    simp
    omega

theorem lowFrames_small (e : Word) : (lowFrames (smallKernel e)).ncard = 59 := by
  have hlow : lowFrames (smallKernel e) = Set.Ico 5 64 := by
    rw [lowFrames, show (smallKernel e).memMap = smallMap from rfl, freeFrames_smallMap]
    ext f
    simp only [Set.mem_inter_iff, Set.mem_Ico, Set.mem_ofPred_eq, WINDOW_FRAMES]
    omega
  rw [hlow, ← Finset.coe_Ico, Set.ncard_coe_finset, Nat.card_Ico]

theorem small_tree {e : Word} (he : next e = some 2) :
    TreeIn next 3 (smallMem e) 1 {1, 2, 3, 4} := by
  have h3 : TreeIn next 1 (smallMem e) 3 {3, 4} :=
    (TreeIn.single 4).cons (i := 384) (by simp)
      (by rw [show smallMem e 3 384 = 0x4007 by simp [smallMem]]; decide)
      (fun j hj => by simp [smallMem, hj, next, isPresent])
  have h2 : TreeIn next 2 (smallMem e) 2 {2, 3, 4} :=
    h3.cons (i := 511) (by simp)
      (by rw [show smallMem e 2 511 = 0x3007 by simp [smallMem]]; decide)
      (fun j hj => by simp [smallMem, hj, next, isPresent])
  exact h2.cons (i := 511) (by simp) (by simpa [smallMem] using he)
    (fun j hj => by simp [smallMem, hj, next, isPresent])

theorem small_inv {e : Word} (he : next e = some 2) : MemInv {1} (smallKernel e) := by
  have htree := small_tree he
  have hnodes : ∀ f ∈ nodes next 3 (smallMem e) {1}, 1 ≤ f ∧ f ≤ 4 := by
    rintro f ⟨r, rfl, p, hp, hf⟩
    have := htree.mem p f hp hf
    simp only [Set.mem_insert_iff, Set.mem_singleton_iff] at this
    omega
  refine ⟨htree.forest, ?_, ?_, ?_, ?_⟩
  · intro f hf
    have := hnodes f hf
    rw [WINDOW_FRAMES]
    omega
  · intro f hf hfree
    have := hnodes f hf
    rw [show (smallKernel e).memMap = smallMap from rfl, freeFrames_smallMap, Set.mem_Ico] at hfree
    omega
  · rw [show (smallKernel e).memMap = smallMap from rfl, freeFrames_smallMap, Set.mem_Ico]
    omega
  · intro f hf i
    rw [show (smallKernel e).memMap = smallMap from rfl, freeFrames_smallMap, Set.mem_Ico] at hf
    have hzero : smallMem e f i = 0 := by
      simp [smallMem, show f ≠ 1 by omega, show f ≠ 2 by omega, show f ≠ 3 by omega,
        show f ≠ 4 by omega]
    rw [show (smallKernel e).mem f i = smallMem e f i from rfl, hzero]
    rfl

/-- The page at 4 MB is mapped to two frames in turn; the second one stays. -/
theorem page_table_store_law_mapped_twice :
    ∃ k', Transition.run (mapCall (iPhyToVirt 0x1000) none) (smallKernel 0x2007)
        [(0x400000, 0x80000), (0x400123, 0x90000)] = some k' ∧
      getPhyAddr k' 0x400777 (iPhyToVirt 0x1000) = 0x90000 ∧
      walk k' 1 0 = walk (smallKernel 0x2007) 1 0 := by
  have hroot : frameAt (iPhyToVirt 0x1000) = 1 := by rw [frameAt_iPhyToVirt]; decide
  have hinv : MemInv {frameAt (iPhyToVirt 0x1000)} (smallKernel 0x2007) := by
    rw [hroot]
    exact small_inv (by decide)
  obtain ⟨k', hrun, -, hmapped, hother, -⟩ := page_table_store_law (smallKernel 0x2007)
    (iPhyToVirt 0x1000) none [(0x400000, 0x80000), (0x400123, 0x90000)] hinv (by simp)
    (supplied_of_three _ hinv (by rw [lowFrames_small]; decide))
  refine ⟨k', hrun, (hmapped 0x400777 0x90000 (by decide)).2, ?_⟩
  have h := hother 0 (by decide)
  rw [hroot] at h
  exact h

/-- When an entry of the path is present without the other two attributes, the
call maps the page and leaves that entry as it is. -/
theorem existing_entry_keeps_flags :
    ∃ k', MemInv {frameAt (iPhyToVirt 0x1000)} (smallKernel 0x2001) ∧
      Supplied (iPhyToVirt 0x1000) (smallKernel 0x2001) (0xFFFFFFFFF0080000, 0x80000) ∧
      mapProcessSpecific (smallKernel 0x2001) 0xFFFFFFFFF0080000 0x80000 (iPhyToVirt 0x1000) none =
        some k' ∧
      k'.entry (iPhyToVirt 0x1000) (pml4eIndex 0xFFFFFFFFF0080000) &&&
        (PRESENT ||| WRITABLE ||| USER_MODE) ≠ PRESENT ||| WRITABLE ||| USER_MODE := by
  have hroot : frameAt (iPhyToVirt 0x1000) = 1 := by rw [frameAt_iPhyToVirt]; decide
  have hinv : MemInv {frameAt (iPhyToVirt 0x1000)} (smallKernel 0x2001) := by
    rw [hroot]
    exact small_inv (by decide)
  have hsup : Supplied (iPhyToVirt 0x1000) (smallKernel 0x2001) (0xFFFFFFFFF0080000, 0x80000) := by
    rw [Supplied, lowFrames_small]
    exact (missing_le _ _ _).trans (by decide)
  obtain ⟨k', hs⟩ := mapProcessSpecific_isSome 0xFFFFFFFFF0080000 0x80000 none
    hinv rfl hsup
  refine ⟨k', hinv, hsup, hs, ?_⟩
  have hflags : (mapProcessSpecific (smallKernel 0x2001) 0xFFFFFFFFF0080000 0x80000
      (iPhyToVirt 0x1000) none).map (fun k => k.entry (iPhyToVirt 0x1000) 511) = some 0x2001 := by
    decide +kernel
  rw [hs] at hflags
  have hentry : k'.entry (iPhyToVirt 0x1000) 511 = 0x2001 := Option.some.inj hflags
  rw [show pml4eIndex 0xFFFFFFFFF0080000 = 511 by decide, hentry]
  decide

end StoreLaw
