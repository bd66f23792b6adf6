import DeepOS.Clone
import DeepOS.StoreLaw

/-!
# A clone and its original

The clone of a page directory translates every address as the original does and
shares no table with it. From then on the two are independent stores: mapping
pages in one of them changes no walk of the other.
-/
namespace CloneLaw

open PhyMem TaskTable PageTable PageMap VirtAlloc Clone StoreLaw
open RadixForest (follow leaf nodes Forest TreeIn SameLeaves)

abbrev TreeCall := Bool × Mapping

def mapTree (pml4e : Bool → Word) (task : Option Slot) (k : Kernel) (c : TreeCall) : Option Kernel :=
  mapProcessSpecific k c.2.1 c.2.2 (pml4e c.1) task

def Low (pml4e : Bool → Word) (k : Kernel) (c : TreeCall) : Prop :=
  LowFor k (missing k.mem (frameAt (pml4e c.1)) (pathOf c.2.1))

def callsOn (b : Bool) (cs : List TreeCall) : List Mapping :=
  (cs.filter (fun c => c.1 = b)).map Prod.snd

/-- Calls on two trees that share no table act on each tree as if it were alone. -/
theorem two_trees_run (pml4e : Bool → Word) {task : Option Slot}
    (hne : frameAt (pml4e true) ≠ frameAt (pml4e false)) (cs : List TreeCall) :
    ∀ {k k' : Kernel}, MemInv {frameAt (pml4e true), frameAt (pml4e false)} k →
      Transition.Along (mapTree pml4e task) (Low pml4e) k cs →
      Transition.run (mapTree pml4e task) k cs = some k' →
      MemInv {frameAt (pml4e true), frameAt (pml4e false)} k' ∧
      ∀ b a, walk k' (frameAt (pml4e b)) a =
        ((lastMapped (callsOn b cs) a).map mkEntry).or (walk k (frameAt (pml4e b)) a) := by
  have hmem : ∀ b, frameAt (pml4e b) ∈
      ({frameAt (pml4e true), frameAt (pml4e false)} : Set Nat) := by
    intro b
    cases b with
    | true => exact Or.inl rfl
    | false => exact Or.inr rfl
  have hinj : ∀ b b', frameAt (pml4e b) = frameAt (pml4e b') ↔ b = b' := by
    intro b b'
    cases b <;> cases b'
    · simp
    · simp [hne.symm]
    · simp [hne]
    · simp
  induction cs with
  | nil =>
    intro k k' h _ hr
    rw [Transition.run_nil, Option.some.injEq] at hr
    subst hr
    exact ⟨h, fun b a => rfl⟩
  | cons c cs ih =>
    intro k k' h hlow hr
    obtain ⟨k₁, h₁, hr⟩ := (Transition.run_cons_eq_some _).mp hr
    obtain ⟨taken, hmaps, -⟩ := mapProcessSpecific_spec h (hmem c.1) hlow.1 h₁
    obtain ⟨hinv, hwalk⟩ := ih hmaps.inv (hlow.2 k₁ h₁) hr
    refine ⟨hinv, fun b a => ?_⟩
    rw [hwalk b a, hmaps.walks _ (hmem b) a]
    simp only [hinj]
    by_cases hb : b = c.1
    · have hcalls : callsOn b (c :: cs) = c.2 :: callsOn b cs := by simp [callsOn, hb]
      rw [hcalls, lastMapped]
      cases lastMapped (callsOn b cs) a with
      | some p => simp
      | none =>
        by_cases hp : vpn a = vpn c.2.1
        · simp [hb, hp]
        · simp [hp]
    · have hcalls : callsOn b (c :: cs) = callsOn b cs := by simp [callsOn, Ne.symm hb]
      rw [hcalls]
      simp [hb]

/-- The tables of a well-formed tree. -/
theorem MemInv.treeIn {k : Kernel} {r : Nat} (h : MemInv {r} k) :
    TreeIn next 3 k.mem r (nodes next 3 k.mem {r}) :=
  ⟨fun p _ hp hf => ⟨r, rfl, p, hp, hf⟩,
    fun p p' f hp hp' hf hf' => (h.forest r rfl r rfl p p' f hp hp' hf hf').2⟩

/-- The tables of two roots are those of either one. -/
theorem nodes_insert (m : Nat → Fin 512 → Word) (r : Nat) (R : Set Nat) :
    nodes next 3 m (insert r R) = nodes next 3 m {r} ∪ nodes next 3 m R := by
  ext f
  constructor
  · rintro ⟨a, ha, p, hp, hf⟩
    rcases ha with rfl | ha
    · exact Or.inl ⟨a, rfl, p, hp, hf⟩
    · exact Or.inr ⟨a, ha, p, hp, hf⟩
  · rintro (⟨a, ha, p, hp, hf⟩ | ⟨a, ha, p, hp, hf⟩)
    · exact ⟨a, Or.inl ha, p, hp, hf⟩
    · exact ⟨a, Or.inr ha, p, hp, hf⟩

/-- A clone joins the trees that were there. -/
theorem MemInv.insert_clone {R : Set Nat} {k k' : Kernel} {src dst : Nat} {T : Set Nat}
    (h : MemInv R k) (hc : Cloned 3 src dst k k' T) : MemInv (insert dst R) k' ∧
      ∀ f ∈ nodes next 3 k'.mem R, f ∉ T := by
  have hinv := VirtAlloc.MemInv.fresh h hc.fresh
  have hdis : ∀ f ∈ nodes next 3 k'.mem R, f ∉ T := by
    intro f hf hT
    rw [hc.fresh.nodes_same h] at hf
    exact h.used f hf (hc.taken hT).1
  have hdst : ∀ f ∈ nodes next 3 k'.mem {dst}, f ∈ T := by
    rintro f ⟨r, rfl, p, hp, hf⟩
    exact hc.tree.mem p f hp hf
  refine ⟨⟨hinv.forest.insert hc.tree hdis, ?_, ?_, hinv.zero, hinv.blank⟩, hdis⟩
  · intro f hf
    rw [nodes_insert] at hf
    rcases hf with hf | hf
    · exact hc.low f (hdst f hf)
    · exact hinv.below f hf
  · intro f hf
    rw [nodes_insert] at hf
    rcases hf with hf | hf
    · exact (hc.taken (hdst f hf)).2
    · exact hinv.used f hf

/-- `clone_page_directory(src, 4)` returns a tree with the walks of `src`, leaves
the walks of `src` alone and shares no table with it; later mappings in the two
trees, in any order, do not see each other. `src` may be the tree in use. -/
theorem clone_preserves_and_separates (k : Kernel) (src : Word) (hsrc : MemInv {frameAt src} k)
    (hready : Ready k) (hsup : 2 * tableCount k.mem 3 (frameAt src) ≤ (lowFrames k).ncard) :
    ∃ dst k', clonePageDirectory 4 src k = some (dst, k') ∧
      MemInv {frameAt dst, frameAt src} k' ∧
      (∀ v, walk k' (frameAt dst) v = walk k (frameAt src) v) ∧
      (∀ v, walk k' (frameAt src) v = walk k (frameAt src) v) ∧
      Disjoint (nodes next 3 k'.mem {frameAt dst}) (nodes next 3 k'.mem {frameAt src}) ∧
      ∀ (task : Option Slot) (cs : List TreeCall) (k'' : Kernel),
        Transition.Along (mapTree (fun b => if b then dst else src) task)
          (Low (fun b => if b then dst else src)) k' cs →
        Transition.run (mapTree (fun b => if b then dst else src) task) k' cs = some k'' →
        ∀ b a, walk k'' (frameAt (if b then dst else src)) a =
          ((lastMapped (callsOn b cs) a).map mkEntry).or
            (walk k' (frameAt (if b then dst else src)) a) := by
  obtain ⟨⟨dst, k'⟩, hs⟩ := clone_isSome 3 hready (MemInv.treeIn hsrc) hsrc.used hsup
  obtain ⟨T, hc⟩ := clones 3 hready (MemInv.treeIn hsrc) hsrc.used (Or.inr hsup) hs
  obtain ⟨hinv, hdis⟩ := MemInv.insert_clone hsrc hc
  have hne : frameAt dst ≠ frameAt src := by
    intro he
    exact hdis (frameAt src) (RadixForest.root_mem_nodes rfl) (he ▸ hc.tree.root_mem)
  refine ⟨dst, k', hs, hinv, ?_, ?_, ?_, ?_⟩
  · exact fun v => hc.leaves (pathOf v) (ptIndex v) (pathOf_length v)
  · exact fun v => hc.fresh.walk_eq hsrc rfl v
  · rw [Set.disjoint_left]
    rintro f ⟨r, rfl, p, hp, hf⟩ hf'
    exact hdis f hf' (hc.tree.mem p f hp hf)
  · intro task cs k'' hlow hrun
    exact (two_trees_run (fun b => if b then dst else src) hne cs hinv hlow hrun).2

/-- The tables in use are cloned: four tables, on eight frames. -/
theorem clone_preserves_and_separates_small :
    ∃ dst k', clonePageDirectory 4 (iPhyToVirt 0x1000) (smallKernel 0x2007) = some (dst, k') ∧
      (smallKernel 0x2007).curPml4eVirt = iPhyToVirt 0x1000 ∧
      walk k' (frameAt dst) (window 7) = some 0x7007 ∧
      walk k' 1 (window 7) = some 0x7007 := by
  have hroot : frameAt (iPhyToVirt 0x1000) = 1 := by rw [frameAt_iPhyToVirt]; decide
  have hinv : MemInv {frameAt (iPhyToVirt 0x1000)} (smallKernel 0x2007) := by
    rw [hroot]
    exact small_inv (by decide)
  have hwin : ∀ f : Fin 64, walk (smallKernel 0x2007) 1 (window f) = some (mkEntry (frameAddr f)) := by
    decide +kernel
  have hready : Ready (smallKernel 0x2007) := by
    refine ⟨hinv, ?_⟩
    rintro f ⟨hf, -⟩
    rw [show (smallKernel 0x2007).memMap = smallMap from rfl, freeFrames_smallMap, Set.mem_Ico] at hf
    rw [Windowed, show (smallKernel 0x2007).cr3 = 1 from hroot]
    exact hwin ⟨f, by omega⟩
  have hcount : tableCount (smallMem 0x2007) 3 1 = 4 := by decide +kernel
  obtain ⟨dst, k', hs, -, hdst, hsrc, -⟩ := clone_preserves_and_separates (smallKernel 0x2007)
    (iPhyToVirt 0x1000) hinv hready (by
      rw [hroot, lowFrames_small, show (smallKernel 0x2007).mem = smallMem 0x2007 from rfl, hcount]
      decide)
  have hwalk : walk (smallKernel 0x2007) 1 (window 7) = some 0x7007 := by decide +kernel
  rw [hroot] at hdst hsrc
  exact ⟨dst, k', hs, rfl, (hdst _).trans hwalk, (hsrc _).trans hwalk⟩

end CloneLaw
