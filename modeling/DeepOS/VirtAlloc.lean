import DeepOS.PageMap

/-!
# Pages for the kernel

`i_virt_alloc` takes two frames, maps each at its window address in the tables in
use and clears it; the second one is the result. Where the window already maps
the free frames, the two mappings write entries that are there already, so the
call changes nothing but the frames it takes.
-/
namespace VirtAlloc

open PhyMem TaskTable PageTable PageMap
open RadixForest (follow leaf nodes Forest put)

/-- `memset((void*)virt, 0, 4096)`; no result when the page is not mapped. -/
def memsetPage (k : Kernel) (virt : Word) : Option Kernel :=
  (translate k k.cr3 virt).map fun f =>
    { k with mem := Function.update k.mem f (fun _ => 0) }

/-- One half of `i_virt_alloc`. -/
def allocPage (k : Kernel) : Option (Word × Kernel) := do
  let (phyAdd, k) ← k.pageAlloc
  let virtAdd := iPhyToVirt phyAdd
  let k ← mapProcess k virtAdd phyAdd
  let k ← memsetPage k virtAdd
  some (virtAdd, k)

def iVirtAlloc (k : Kernel) : Option (Word × Kernel) := do
  let (_, k) ← allocPage k
  allocPage k

/-- The window address of a frame. -/
def window (f : Nat) : Word := iPhyToVirt (frameAddr f)

/-- The tables at `root` map the window address of `f` to `f`. -/
def Windowed (k : Kernel) (root f : Nat) : Prop :=
  walk k root (window f) = some (mkEntry (frameAddr f))

@[simp] theorem frameAt_window {f : Nat} (hf : f < FRAMES) : frameAt (window f) = f := by
  rw [window, frameAt_iPhyToVirt, frameOf_frameAddr hf]

/-- Only frames that were free have changed, and of these only some that were taken. -/
structure Fresh (k k' : Kernel) : Prop where
  outside : ∀ f, f ∉ freeFrames k.memMap → k'.mem f = k.mem f
  sub : freeFrames k'.memMap ⊆ freeFrames k.memMap
  still : ∀ f ∈ freeFrames k'.memMap, k'.mem f = k.mem f
  same : SameTasks k k'

theorem Fresh.refl (k : Kernel) : Fresh k k :=
  ⟨fun _ _ => rfl, subset_rfl, fun _ _ => rfl, SameTasks.refl k⟩

theorem Fresh.trans {k k' k'' : Kernel} (h : Fresh k k') (h' : Fresh k' k'') : Fresh k k'' where
  outside := fun f hf => (h'.outside f (fun hm => hf (h.sub hm))).trans (h.outside f hf)
  sub := h'.sub.trans h.sub
  still := fun f hf => (h'.still f hf).trans (h.still f (h'.sub hf))
  same := h.same.trans h'.same

section

variable {R : Set Nat} {k k' : Kernel} (h : MemInv R k) (hf : Fresh k k')

include h hf

theorem Fresh.nodes_eq : ∀ f ∈ nodes next 3 k.mem R, k'.mem f = k.mem f :=
  fun f hfn => hf.outside f (h.used f hfn)

theorem Fresh.follow_eq {r : Nat} (hr : r ∈ R) {p : List (Fin 512)} (hp : p.length ≤ 3) :
    follow next k'.mem r p = follow next k.mem r p :=
  RadixForest.follow_outside (hf.nodes_eq h) hr hp

theorem Fresh.walk_eq {r : Nat} (hr : r ∈ R) (a : Word) : walk k' r a = walk k r a :=
  RadixForest.leaf_outside (hf.nodes_eq h) hr (pathOf_length a).le _

theorem Fresh.nodes_same : nodes next 3 k'.mem R = nodes next 3 k.mem R :=
  RadixForest.nodes_congr (fun _ hr _ hp => hf.follow_eq h hr hp)

/-- Trees do not notice changes to free frames. -/
theorem MemInv.fresh : MemInv R k' where
  forest := h.forest.congr (fun _ hr _ hp => hf.follow_eq h hr hp)
  below := fun f hfn => h.below f (hf.nodes_same h ▸ hfn)
  used := fun f hfn hm => h.used f (hf.nodes_same h ▸ hfn) (hf.sub hm)
  zero := fun hm => h.zero (hf.sub hm)
  blank := fun f hm i => by
    rw [hf.still f hm]
    exact h.blank f (hf.sub hm) i

end

/-- The frames below 256 MB that are left. -/
theorem ncard_lowFrames_fresh {k k' : Kernel} (hf : Fresh k k') :
    (lowFrames k).ncard - (freeFrames k.memMap \ freeFrames k'.memMap).ncard ≤
      (lowFrames k').ncard := by
  have hlow : lowFrames k' = lowFrames k \ (freeFrames k.memMap \ freeFrames k'.memMap) := by
    ext f
    simp only [lowFrames, Set.mem_inter_iff, Set.mem_sdiff]
    constructor
    · rintro ⟨hm, hl⟩
      exact ⟨⟨hf.sub hm, hl⟩, fun hn => hn.2 hm⟩
    · rintro ⟨⟨hm, hl⟩, hn⟩
      refine ⟨?_, hl⟩
      by_contra hm'
      exact hn ⟨hm, hm'⟩
  rw [hlow]
  exact Set.le_ncard_sdiff _ _ ((freeFrames_finite _).subset Set.sdiff_subset)

theorem LowFor.fresh {k k' : Kernel} {n t : Nat} (h : LowFor k n) (hf : Fresh k k')
    (ht : (freeFrames k.memMap \ freeFrames k'.memMap).ncard ≤ t) : LowFor k' (n - t) := by
  rcases h with h | h
  · exact Or.inl (fun f hm => h f (hf.sub hm))
  · have hleft := ncard_lowFrames_fresh hf
    exact Or.inr (by omega)

/-! ## Writing an entry that is there already -/

theorem descend_present {R : Set Nat} {r₀ pt : Nat} {k : Kernel} (h : MemInv R k) (hr₀ : r₀ ∈ R)
    (p : List (Fin 512)) :
    ∀ {table : Word} {q : List (Fin 512)}, q.length + p.length = 3 →
      follow next k.mem r₀ q = some (frameAt table) → follow next k.mem r₀ (q ++ p) = some pt →
      ∃ t, descend k table p = some (t, k) ∧ frameAt t = pt := by
  induction p with
  | nil =>
    intro table q _ hx hpt
    rw [List.append_nil, hx] at hpt
    exact ⟨table, rfl, Option.some.inj hpt⟩
  | cons i p ih =>
    intro table q hlen hx hpt
    rw [List.length_cons] at hlen
    have happ : q ++ i :: p = q ++ [i] ++ p := by simp
    rw [happ] at hpt
    obtain ⟨g, hg⟩ := RadixForest.follow_prefix hpt
    have hpres : isPresent (k.mem (frameAt table) i) = true := by
      rw [RadixForest.follow_snoc, hx, Option.bind_some] at hg
      by_contra hne
      rw [next_eq_none (by simpa using hne)] at hg
      cases hg
    have hframe : frameOf (k.mem (frameAt table) i) = g := by
      rw [RadixForest.follow_snoc, hx, Option.bind_some, next_eq_some hpres] at hg
      exact Option.some.inj hg
    have hlen₁ : (q ++ [i]).length + p.length = 3 := by
      rw [List.length_append, List.length_singleton]; omega
    have hbelow := h.below g (RadixForest.mem_nodes hr₀ (by omega) hg)
    have hnext : nextTable k table i =
        some (getAddress (k.mem (frameAt table) i) ||| DUMB_MAPPING_VIRT, k) := by
      rw [nextTable, Kernel.entry, if_pos hpres]
    have hat : frameAt (getAddress (k.mem (frameAt table) i) ||| DUMB_MAPPING_VIRT) = g := by
      rw [frameAt_or (by rw [frameOf_getAddress, hframe]; exact hbelow), frameOf_getAddress, hframe]
    rw [descend, hnext, Option.bind_some]
    exact ih hlen₁ (by rw [hat]; exact hg) hpt

/-- Mapping a page to where it leads already only counts the usage. -/
theorem mapProcessSpecific_noop {R : Set Nat} {k : Kernel} {v p pml4e : Word} {task : Option Slot}
    (h : MemInv R k) (hr : frameAt pml4e ∈ R)
    (hw : walk k (frameAt pml4e) v = some (mkEntry p)) :
    mapProcessSpecific k v p pml4e task = some (charge k task) := by
  obtain ⟨hm, hb, -⟩ := charge_spec k task
  obtain ⟨pt, hpt, -, hentry⟩ := RadixForest.leaf_eq_some.mp hw
  obtain ⟨t, ht, hat⟩ := descend_present (h.congr hm hb) hr (pathOf v) (q := []) rfl rfl
    (by rw [hm]; exact hpt)
  rw [mapProcessSpecific_eq, ht, Option.map_some]
  have hsame : put (charge k task).mem (frameAt t) (ptIndex v) (mkEntry p) = (charge k task).mem := by
    rw [hat, ← hentry, ← hm]
    exact RadixForest.put_same _ _ _
  simp only [Kernel.setEntry, hsame]

/-! ## Taking pages -/

/-- The tables in use are well formed and map the window of the free frames. -/
structure Ready (k : Kernel) : Prop where
  inv : MemInv {k.cr3} k
  window : ∀ f ∈ lowFrames k, Windowed k k.cr3 f

theorem SameTasks.cr3_eq {k k' : Kernel} (h : SameTasks k k') : k'.cr3 = k.cr3 := by
  rw [Kernel.cr3, Kernel.cr3, h.curPml4eVirt]

theorem Ready.fresh {k k' : Kernel} (h : Ready k) (hf : Fresh k k') : Ready k' := by
  have hcr3 := SameTasks.cr3_eq hf.same
  refine ⟨?_, ?_⟩
  · rw [hcr3]
    exact MemInv.fresh h.inv hf
  · rintro f ⟨hm, hl⟩
    rw [Windowed, hcr3, hf.walk_eq h.inv rfl]
    exact h.window f ⟨hf.sub hm, hl⟩

/-- Taking a frame without touching memory. -/
theorem fresh_unset (k : Kernel) (g : Nat) :
    Fresh k { k with memMap := mmapUnset k.memMap g } := by
  refine ⟨fun _ _ => rfl, ?_, fun _ _ => rfl, ⟨rfl, rfl, rfl⟩⟩
  rw [freeFrames_unset]
  exact Set.sdiff_subset

/-- The state after the lowest free frame `g` was taken, mapped and cleared. -/
def afterAlloc (k : Kernel) (g : Nat) : Kernel :=
  { charge { k with memMap := mmapUnset k.memMap g } k.currentTask with
    mem := Function.update k.mem g (fun _ => 0) }

theorem allocPage_eq {k : Kernel} {g : Nat} (h : Ready k) (hg : IsLeast (freeFrames k.memMap) g)
    (hgW : g < WINDOW_FRAMES) : allocPage k = some (window g, afterAlloc k g) := by
  have hready := h.fresh (fresh_unset k g)
  have hwin : Windowed { k with memMap := mmapUnset k.memMap g } k.cr3 g := h.window g ⟨hg.1, hgW⟩
  obtain ⟨hm, -, hsame⟩ := charge_spec { k with memMap := mmapUnset k.memMap g } k.currentTask
  have htrans : translate (charge { k with memMap := mmapUnset k.memMap g } k.currentTask)
      (charge { k with memMap := mmapUnset k.memMap g } k.currentTask).cr3
      (window g) = some g := by
    have hwalk : walk (charge { k with memMap := mmapUnset k.memMap g } k.currentTask) k.cr3
        (window g) = some (mkEntry (frameAddr g)) := by
      rw [walk, hm]
      exact hwin
    rw [PageTable.translate, SameTasks.cr3_eq hsame]
    rw [show Kernel.cr3 { k with memMap := mmapUnset k.memMap g } = k.cr3 from rfl, hwalk,
      Option.map_some, frameOf_mkEntry, frameOf_frameAddr (freeFrames_lt hg.1)]
  simp only [allocPage, bind, pageAlloc_least_some h.inv.zero hg, Option.bind_some, mapProcess]
  rw [show iPhyToVirt (frameAddr g) = window g from rfl,
    mapProcessSpecific_noop hready.inv rfl hwin, Option.bind_some, memsetPage, htrans,
    Option.map_some, Option.bind_some, hm]
  rfl

theorem afterAlloc_free (k : Kernel) (g : Nat) :
    freeFrames (afterAlloc k g).memMap = freeFrames k.memMap \ {g} := by
  have hb := (charge_spec { k with memMap := mmapUnset k.memMap g } k.currentTask).2.1
  rw [show (afterAlloc k g).memMap =
    (charge { k with memMap := mmapUnset k.memMap g } k.currentTask).memMap from rfl, hb,
    freeFrames_unset]

theorem afterAlloc_fresh {k : Kernel} {g : Nat} (hg : g ∈ freeFrames k.memMap) :
    Fresh k (afterAlloc k g) := by
  have hsame := (charge_spec { k with memMap := mmapUnset k.memMap g } k.currentTask).2.2
  refine ⟨?_, ?_, ?_, ⟨hsame.tasks, hsame.currentTask, hsame.curPml4eVirt⟩⟩
  · intro f hf
    have hne : f ≠ g := by rintro rfl; exact hf hg
    exact Function.update_of_ne hne _ _
  · rw [afterAlloc_free]
    exact Set.sdiff_subset
  · intro f hf
    rw [afterAlloc_free] at hf
    exact Function.update_of_ne hf.2 _ _

theorem allocPage_spec {k k' : Kernel} {v : Word} (h : Ready k) (hlow : LowFor k 1)
    (hs : allocPage k = some (v, k')) :
    ∃ g, IsLeast (freeFrames k.memMap) g ∧ g < WINDOW_FRAMES ∧ v = window g ∧
      k' = afterAlloc k g := by
  have hs' := hs
  simp only [allocPage, bind, Option.bind_eq_some_iff] at hs'
  obtain ⟨⟨p, k₁⟩, halloc, -⟩ := hs'
  obtain ⟨g, hg, -⟩ := pageAlloc_some halloc
  have hgW : g < WINDOW_FRAMES := LowFor.least (n := 0) hlow hg
  rw [allocPage_eq h hg hgW] at hs
  obtain ⟨rfl, rfl⟩ := Prod.mk.inj (Option.some.inj hs)
  exact ⟨g, hg, hgW, rfl, rfl⟩

theorem allocPage_isSome {k : Kernel} (h : Ready k) (hsup : 1 ≤ (lowFrames k).ncard) :
    ∃ r, allocPage k = some r := by
  obtain ⟨g', hg', -⟩ := (Set.ncard_pos (lowFrames_finite k)).mp hsup
  obtain ⟨g, hg⟩ := exists_least (Set.nonempty_iff_ne_empty.mp ⟨g', hg'⟩)
  exact ⟨_, allocPage_eq h hg (LowFor.least (n := 0) (Or.inr hsup) hg)⟩

/-- `i_virt_alloc` takes two frames and returns the window address of the second. -/
theorem iVirtAlloc_spec {k k' : Kernel} {v : Word} (h : Ready k) (hlow : LowFor k 2)
    (hs : iVirtAlloc k = some (v, k')) :
    ∃ g₁ g, g₁ ≠ g ∧ g₁ ∈ freeFrames k.memMap ∧ g ∈ freeFrames k.memMap ∧ g < WINDOW_FRAMES ∧
      v = window g ∧ Fresh k k' ∧ freeFrames k'.memMap = freeFrames k.memMap \ {g₁, g} ∧
      k'.mem g = fun _ => 0 := by
  simp only [iVirtAlloc, bind, Option.bind_eq_some_iff] at hs
  obtain ⟨⟨v₁, k₁⟩, h₁, h₂⟩ := hs
  obtain ⟨g₁, hg₁, -, -, rfl⟩ := allocPage_spec h (hlow.mono (by decide)) h₁
  have hfresh := afterAlloc_fresh hg₁.1
  have hlow₁ : LowFor (afterAlloc k g₁) 1 := hlow.next hg₁ (afterAlloc_free k g₁)
  obtain ⟨g, hg, hgW, rfl, rfl⟩ := allocPage_spec (h.fresh hfresh) hlow₁ h₂
  have hmem := hg.1
  rw [afterAlloc_free] at hmem
  refine ⟨g₁, g, fun he => hmem.2 he.symm, hg₁.1, hmem.1, hgW, rfl,
    hfresh.trans (afterAlloc_fresh hg.1), ?_, Function.update_self _ _ _⟩
  rw [afterAlloc_free, afterAlloc_free, Set.sdiff_sdiff, Set.singleton_union]

def SecondFree (m : MemMap) (g : Nat) : Prop :=
  ∃ g₁, IsLeast (freeFrames m) g₁ ∧ IsLeast (freeFrames m \ {g₁}) g

/-- The lowest free frame is left unused, the one after it is the page. -/
theorem iVirtAlloc_second {k k' : Kernel} {v : Word} (h : Ready k) (hlow : LowFor k 2)
    (hs : iVirtAlloc k = some (v, k')) : ∃ g, SecondFree k.memMap g ∧ v = window g := by
  simp only [iVirtAlloc, bind, Option.bind_eq_some_iff] at hs
  obtain ⟨⟨v₁, k₁⟩, h₁, h₂⟩ := hs
  obtain ⟨g₁, hg₁, -, -, rfl⟩ := allocPage_spec h (hlow.mono (by decide)) h₁
  have hfresh := afterAlloc_fresh hg₁.1
  have hlow₁ : LowFor (afterAlloc k g₁) 1 := hlow.next hg₁ (afterAlloc_free k g₁)
  obtain ⟨g, hg, -, rfl, -⟩ := allocPage_spec (h.fresh hfresh) hlow₁ h₂
  rw [afterAlloc_free] at hg
  exact ⟨g, ⟨g₁, hg₁, hg⟩, rfl⟩

theorem iVirtAlloc_isSome {k : Kernel} (h : Ready k) (hsup : 2 ≤ (lowFrames k).ncard) :
    ∃ r, iVirtAlloc k = some r := by
  obtain ⟨⟨v₁, k₁⟩, h₁⟩ := allocPage_isSome h (by omega)
  obtain ⟨g₁, hg₁, hgW, -, rfl⟩ := allocPage_spec h (Or.inr (by omega)) h₁
  have hmem : g₁ ∈ lowFrames k := ⟨hg₁.1, hgW⟩
  have hsup₁ : 1 ≤ (lowFrames (afterAlloc k g₁)).ncard := by
    rw [lowFrames_unset (afterAlloc_free k g₁), Set.ncard_sdiff_singleton_of_mem hmem]
    omega
  obtain ⟨r, h₂⟩ := allocPage_isSome (h.fresh (afterAlloc_fresh hg₁.1)) hsup₁
  simp only [iVirtAlloc, bind, h₁, Option.bind_some]
  exact ⟨r, h₂⟩

/-- The two frames are gone. -/
theorem ncard_pair_taken {k k' : Kernel} {g₁ g : Nat} (hne : g₁ ≠ g)
    (h₁ : g₁ ∈ freeFrames k.memMap) (hg : g ∈ freeFrames k.memMap)
    (hfree : freeFrames k'.memMap = freeFrames k.memMap \ {g₁, g}) :
    (freeFrames k.memMap \ freeFrames k'.memMap).ncard = 2 := by
  have hsub : ({g₁, g} : Set Nat) ⊆ freeFrames k.memMap := by
    rintro f (rfl | rfl)
    · exact h₁
    · exact hg
  rw [hfree, Set.sdiff_sdiff_cancel_left hsub, Set.ncard_pair hne]

end VirtAlloc
