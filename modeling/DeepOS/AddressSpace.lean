import DeepOS.CloneLaw
import DeepOS.Process

/-!
# Address spaces

A frame is in the core when it is free or holds a page table. In a sound memory
every tree maps the window of every core frame. The core only ever shrinks: a
page leads to a frame outside it for good, and two trees that disagree on a page
go on disagreeing, because a page is only ever given a frame that was free.
-/
namespace AddressSpace

open PhyMem TaskTable PageTable PageMap VirtAlloc Clone
open RadixForest (follow leaf nodes Forest put)

def core (R : Set Nat) (k : Kernel) : Set Nat := freeFrames k.memMap ∪ nodes next 3 k.mem R

/-- The trees rooted at `R` are well formed and all map the window of the core. -/
structure Sound (R : Set Nat) (k : Kernel) : Prop where
  inv : MemInv R k
  low : ∀ f ∈ freeFrames k.memMap, f < WINDOW_FRAMES
  zero : 0 ∉ core R k
  mapped : ∀ r ∈ R, ∀ f ∈ core R k, Windowed k r f

/-- The page of `a` leads to a frame outside the core. -/
def Data (R : Set Nat) (k : Kernel) (r : Nat) (a : Word) : Prop :=
  ∃ f, translate k r a = some f ∧ f ∉ core R k

def Apart (R : Set Nat) (k : Kernel) (r s : Nat) (a : Word) : Prop :=
  ∃ f g, translate k r a = some f ∧ translate k s a = some g ∧ f ≠ g ∧ f ∉ core R k ∧ g ∉ core R k

/-- Frames outside the core keep their contents. -/
def Quiet (R : Set Nat) (k k' : Kernel) : Prop := ∀ f, f ∉ core R k → k'.mem f = k.mem f

/-- What the calls of the memory manager preserve. Roots may be added. -/
structure Evolves (R R' : Set Nat) (k k' : Kernel) : Prop where
  sound : Sound R' k'
  roots : R ⊆ R'
  free : freeFrames k'.memMap ⊆ freeFrames k.memMap
  core : core R' k' ⊆ core R k
  frames : ∀ r ∈ R, ∀ a f, translate k r a = some f → f ∉ AddressSpace.core R k →
    ∃ g, translate k' r a = some g ∧ g ∉ AddressSpace.core R' k' ∧ (g = f ∨ g ∈ freeFrames k.memMap)
  apart : ∀ r ∈ R, ∀ s ∈ R, r ≠ s → ∀ a, Apart R k r s a → Apart R' k' r s a

theorem Evolves.trans {R R' R'' : Set Nat} {k k' k'' : Kernel} (h : Evolves R R' k k')
    (h' : Evolves R' R'' k' k'') : Evolves R R'' k k'' where
  sound := h'.sound
  roots := h.roots.trans h'.roots
  free := h'.free.trans h.free
  core := h'.core.trans h.core
  frames := by
    intro r hr a f hf hfc
    obtain ⟨g, hg, hgc, hor⟩ := h.frames r hr a f hf hfc
    obtain ⟨g', hg', hgc', hor'⟩ := h'.frames r (h.roots hr) a g hg hgc
    refine ⟨g', hg', hgc', ?_⟩
    rcases hor' with rfl | hm
    · exact hor
    · exact Or.inr (h.free hm)
  apart := fun r hr s hs hne a hd =>
    h'.apart r (h.roots hr) s (h.roots hs) hne a (h.apart r hr s hs hne a hd)

theorem Evolves.data {R R' : Set Nat} {k k' : Kernel} (h : Evolves R R' k k') {r : Nat} (hr : r ∈ R)
    {a : Word} (hd : Data R k r a) : Data R' k' r a := by
  obtain ⟨f, hf, hfc⟩ := hd
  obtain ⟨g, hg, hgc, -⟩ := h.frames r hr a f hf hfc
  exact ⟨g, hg, hgc⟩

def Taken (R : Set Nat) (k₀ k : Kernel) (r : Nat) (a : Word) : Prop :=
  ∃ g ∈ freeFrames k₀.memMap, translate k r a = some g ∧ g ∉ core R k

theorem Evolves.taken {R R' : Set Nat} {k₀ k k' : Kernel} (h : Evolves R R' k k')
    (hsub : freeFrames k.memMap ⊆ freeFrames k₀.memMap) {r : Nat} (hr : r ∈ R) {a : Word}
    (ht : Taken R k₀ k r a) : Taken R' k₀ k' r a := by
  obtain ⟨f, hfree, hf, hfc⟩ := ht
  obtain ⟨g, hg, hgc, hor⟩ := h.frames r hr a f hf hfc
  refine ⟨g, ?_, hg, hgc⟩
  rcases hor with rfl | hm
  · exact hfree
  · exact hsub hm

theorem Taken.data {R : Set Nat} {k₀ k : Kernel} {r : Nat} {a : Word} (h : Taken R k₀ k r a) :
    Data R k r a := by
  obtain ⟨g, -, hg, hgc⟩ := h
  exact ⟨g, hg, hgc⟩

theorem Quiet.trans {R R' : Set Nat} {k k' k'' : Kernel} (h : Quiet R k k') (h' : Quiet R' k' k'')
    (hcore : core R' k' ⊆ core R k) : Quiet R k k'' :=
  fun f hf => (h' f (fun hm => hf (hcore hm))).trans (h f hf)

/-! ## The window -/

theorem MemInv.mono {R R' : Set Nat} {k : Kernel} (h : MemInv R k) (hR : R' ⊆ R) : MemInv R' k where
  forest := h.forest.mono hR
  below := fun f hf => h.below f (RadixForest.nodes_mono hR hf)
  used := fun f hf => h.used f (RadixForest.nodes_mono hR hf)
  zero := h.zero
  blank := h.blank

theorem window_toNat {g : Nat} (hg : g < WINDOW_FRAMES) :
    (window g).toNat = 18446744073441116160 + g * 4096 := by
  rw [WINDOW_FRAMES] at hg
  rw [window, iPhyToVirt, BitVec.toNat_add, frameAddr_toNat (by rw [FRAMES]; omega),
    dumb_toNat]
  omega

theorem window_ne_zero {g : Nat} (hg : g < WINDOW_FRAMES) : window g ≠ 0 := by
  intro h0
  have htoNat := window_toNat hg
  rw [h0, show (0 : Word).toNat = 0 from rfl] at htoNat
  omega

theorem vpn_window {f : Nat} (hf : f < WINDOW_FRAMES) : vpn (window f) = 2 ^ 36 - 65536 + f := by
  have htoNat := window_toNat hf
  rw [WINDOW_FRAMES] at hf
  rw [vpn, htoNat]
  omega

theorem translate_page {k : Kernel} {r : Nat} {a v : Word} (h : vpn a = vpn v) :
    translate k r a = translate k r v := by
  obtain ⟨hp, hi⟩ := (path_eq_iff a v).mpr h
  rw [PageTable.translate, PageTable.translate, walk, walk, hp, hi]

section

variable {R : Set Nat} {k : Kernel} (h : Sound R k)

include h

theorem Sound.core_lt {f : Nat} (hf : f ∈ core R k) : f < WINDOW_FRAMES := by
  rcases hf with hf | hf
  · exact h.low f hf
  · exact h.inv.below f hf

theorem Sound.translate_window {r f : Nat} (hr : r ∈ R) (hf : f ∈ core R k) :
    translate k r (window f) = some f := by
  have hlt := h.core_lt hf
  rw [WINDOW_FRAMES] at hlt
  rw [PageTable.translate, h.mapped r hr f hf, Option.map_some, frameOf_mkEntry,
    frameOf_frameAddr (by rw [FRAMES]; omega)]

theorem Sound.ready (hr : k.cr3 ∈ R) : Ready k :=
  ⟨MemInv.mono h.inv (Set.singleton_subset_iff.mpr hr), fun f hf => h.mapped _ hr f (Or.inl hf.1)⟩

theorem Sound.lowFor (n : Nat) : LowFor k n := Or.inl h.low

/-- A data page is none of the window pages of the core. -/
theorem Sound.off_window {r : Nat} {a : Word} (hr : r ∈ R) (hd : Data R k r a) {f : Nat}
    (hf : f ∈ core R k) : vpn a ≠ vpn (window f) := by
  obtain ⟨g, hg, hgc⟩ := hd
  intro hv
  rw [translate_page hv, h.translate_window hr hf, Option.some.injEq] at hg
  exact hgc (hg ▸ hf)

end

/-! ## Steps that evolve memory -/

theorem translate_congr {k k' : Kernel} {r r' : Nat} {a : Word} (h : walk k' r' a = walk k r a) :
    translate k' r' a = translate k r a := by
  rw [PageTable.translate, PageTable.translate, h]

/-- Every walk is kept, but for pages of one tree that get a frame that was free. -/
theorem evolves_of_walks {R R' : Set Nat} {k k' : Kernel} (r₀ : Nat) (hs : Sound R' k')
    (hR : R ⊆ R') (hfree : freeFrames k'.memMap ⊆ freeFrames k.memMap)
    (hcore : core R' k' ⊆ core R k)
    (hw : ∀ r ∈ R, ∀ a, walk k' r a = walk k r a ∨
      r = r₀ ∧ ∃ g ∈ freeFrames k.memMap, g ∉ core R' k' ∧ translate k' r a = some g) :
    Evolves R R' k k' := by
  refine ⟨hs, hR, hfree, hcore, ?_, ?_⟩
  · intro r hr a f hf hfc
    rcases hw r hr a with heq | ⟨-, g, hgfree, hgc, hg⟩
    · exact ⟨f, (translate_congr heq).trans hf, fun hm => hfc (hcore hm), Or.inl rfl⟩
    · exact ⟨g, hg, hgc, Or.inr hgfree⟩
  · rintro r hr s hs hne a ⟨f, g, hf, hg, hfg, hfc, hgc⟩
    rcases hw r hr a with heq | ⟨rfl, f', hf'free, hf'c, hf'⟩
    · have hf' := (translate_congr heq).trans hf
      rcases hw s hs a with heq' | ⟨-, g', hg'free, hg'c, hg'⟩
      · exact ⟨f, g, hf', (translate_congr heq').trans hg, hfg, fun hm => hfc (hcore hm),
          fun hm => hgc (hcore hm)⟩
      · exact ⟨f, g', hf', hg', fun he => hfc (he ▸ Or.inl hg'free), fun hm => hfc (hcore hm), hg'c⟩
    · rcases hw s hs a with heq' | ⟨rfl, -⟩
      · exact ⟨f', g, hf', (translate_congr heq').trans hg, fun he => hgc (he ▸ Or.inl hf'free), hf'c,
          fun hm => hgc (hcore hm)⟩
      · exact absurd rfl hne

theorem quiet_fresh {R : Set Nat} {k k' : Kernel} (hf : Fresh k k') : Quiet R k k' :=
  fun f hfc => hf.outside f (fun hm => hfc (Or.inl hm))

section

variable {R : Set Nat} {k k' : Kernel} (h : Sound R k)

include h

/-- The tables are as they were, and free frames still hold no present entry. -/
theorem Sound.of_nodes (hb : k'.memMap = k.memMap) (hm : ∀ f ∈ nodes next 3 k.mem R, k'.mem f = k.mem f)
    (hblank : ∀ f ∈ freeFrames k.memMap, ∀ i, isPresent (k'.mem f i) = false) :
    Sound R k' ∧ core R k' = core R k ∧ ∀ r ∈ R, ∀ a, walk k' r a = walk k r a := by
  have hfollow : ∀ r ∈ R, ∀ p : List (Fin 512), p.length ≤ 3 →
      follow next k'.mem r p = follow next k.mem r p :=
    fun r hr p hp => RadixForest.follow_outside hm hr hp
  have hwalk : ∀ r ∈ R, ∀ a, walk k' r a = walk k r a :=
    fun r hr a => RadixForest.leaf_outside hm hr (pathOf_length a).le _
  have hsame : nodes next 3 k'.mem R = nodes next 3 k.mem R := RadixForest.nodes_congr hfollow
  have hcore : core R k' = core R k := by rw [core, core, hsame, hb]
  have hinv : MemInv R k' := by
    refine ⟨h.inv.forest.congr hfollow, ?_, ?_, ?_, ?_⟩
    · rw [hsame]; exact h.inv.below
    · rw [hsame, hb]; exact h.inv.used
    · rw [hb]; exact h.inv.zero
    · rw [hb]; exact hblank
  refine ⟨⟨hinv, ?_, ?_, ?_⟩, hcore, hwalk⟩
  · rw [hb]; exact h.low
  · rw [hcore]; exact h.zero
  · intro r hr f hf
    rw [Windowed, hwalk r hr]
    exact h.mapped r hr f (hcore ▸ hf)

/-- Only frames outside the core were written. -/
theorem Sound.evolves_outside (hm : ∀ f ∈ core R k, k'.mem f = k.mem f)
    (hb : k'.memMap = k.memMap) : Evolves R R k k' := by
  have hblank : ∀ f ∈ freeFrames k.memMap, ∀ i, isPresent (k'.mem f i) = false := by
    intro f hf i
    rw [hm f (Or.inl hf)]
    exact h.inv.blank f hf i
  obtain ⟨hs, hcore, hwalk⟩ := h.of_nodes hb (fun f hf => hm f (Or.inr hf)) hblank
  exact evolves_of_walks 0 hs subset_rfl (by rw [hb]) hcore.le (fun r hr a => Or.inl (hwalk r hr a))

theorem Sound.evolves_same (hm : k'.mem = k.mem) (hb : k'.memMap = k.memMap) : Evolves R R k k' :=
  h.evolves_outside (fun f _ => congrFun hm f) hb

theorem Sound.core_fresh (hf : Fresh k k') : core R k' ⊆ core R k := by
  rintro f (hm | hm)
  · exact Or.inl (hf.sub hm)
  · rw [hf.nodes_same h.inv] at hm
    exact Or.inr hm

theorem Sound.evolves_fresh (hf : Fresh k k') : Evolves R R k k' := by
  have hcore := h.core_fresh hf
  refine evolves_of_walks 0 ⟨MemInv.fresh h.inv hf, fun f hm => h.low f (hf.sub hm),
    fun hm => h.zero (hcore hm), ?_⟩ subset_rfl hf.sub hcore
    (fun r hr a => Or.inl (hf.walk_eq h.inv hr a))
  intro r hr f hm
  rw [Windowed, hf.walk_eq h.inv hr]
  exact h.mapped r hr f (hcore hm)

/-- A frame that was taken and not made a table is outside the core. -/
theorem Sound.taken_not_core (hf : Fresh k k') {g : Nat} (hg : g ∈ freeFrames k.memMap)
    (hg' : g ∉ freeFrames k'.memMap) : g ∉ core R k' := by
  rintro (hm | hm)
  · exact hg' hm
  · rw [hf.nodes_same h.inv] at hm
    exact h.inv.used g hm hg

end

/-- A frame is taken and a page that is no window page of the core is mapped to it. -/
theorem Sound.evolves_map {R : Set Nat} {k₀ k k' : Kernel} {r₀ g : Nat} {v : Word} {taken : Set Nat}
    (h : Sound R k₀) (hf : Fresh k₀ k) (hr₀ : r₀ ∈ R) (hg : g ∈ freeFrames k₀.memMap)
    (hg' : g ∉ freeFrames k.memMap) (hoff : ∀ f ∈ core R k, vpn v ≠ vpn (window f))
    (hmap : Maps R r₀ v (frameAddr g) k k' taken) :
    Evolves R R k₀ k' ∧ Quiet R k₀ k' ∧ translate k' r₀ v = some g ∧ g ∉ core R k' := by
  have hs := (h.evolves_fresh hf).sound
  have hcore : core R k' ⊆ core R k := by
    rintro f (hm | hm)
    · rw [hmap.free] at hm
      exact Or.inl hm.1
    · rw [hmap.nodes] at hm
      rcases hm with hm | hm
      · exact Or.inr hm
      · exact Or.inl (hmap.taken_free hm)
  have hgc : g ∉ core R k' := fun hm => h.taken_not_core hf hg hg' (hcore hm)
  have hcore₀ := hcore.trans (h.core_fresh hf)
  have hgv : ∀ a, vpn a = vpn v → translate k' r₀ a = some g := by
    intro a ha
    rw [PageTable.translate, hmap.walks r₀ hr₀, if_pos ⟨rfl, ha⟩, Option.map_some, frameOf_mkEntry,
      frameOf_frameAddr (freeFrames_lt hg)]
  refine ⟨?_, ?_, hgv v rfl, hgc⟩
  · refine evolves_of_walks r₀ ⟨hmap.inv, ?_, fun hm => h.zero (hcore₀ hm), ?_⟩ subset_rfl ?_ hcore₀ ?_
    · intro f hm
      rw [hmap.free] at hm
      exact hs.low f hm.1
    · intro r hr f hm
      rw [Windowed, hmap.walks r hr, if_neg (fun hc => hoff f (hcore hm) hc.2.symm)]
      exact hs.mapped r hr f (hcore hm)
    · rw [hmap.free]
      exact Set.sdiff_subset.trans hf.sub
    · intro r hr a
      rw [hmap.walks r hr]
      by_cases hc : r = r₀ ∧ vpn a = vpn v
      · refine Or.inr ⟨hc.1, g, hg, hgc, ?_⟩
        rw [hc.1]
        exact hgv a hc.2
      · rw [if_neg hc]
        exact Or.inl (hf.walk_eq h.inv hr a)
  · intro f hfc
    rw [hmap.outside f (fun hm => hfc (hcore₀ (Or.inr hm)))]
    exact quiet_fresh hf f hfc

/-- A clone joins the address spaces. -/
theorem Sound.evolves_clone {R : Set Nat} {k k' : Kernel} {src dst : Nat} {T : Set Nat}
    (h : Sound R k) (hsrc : src ∈ R) (hc : Cloned 3 src dst k k' T) :
    Evolves R (insert dst R) k k' ∧ dst ∉ R := by
  obtain ⟨hinv, hdis⟩ := CloneLaw.MemInv.insert_clone h.inv hc
  have hdst : ∀ f ∈ nodes next 3 k'.mem {dst}, f ∈ T := by
    rintro f ⟨r, rfl, p, hp, hf⟩
    exact hc.tree.mem p f hp hf
  have hcore : core (insert dst R) k' ⊆ core R k := by
    rintro f (hm | hm)
    · exact Or.inl (hc.fresh.sub hm)
    · rw [CloneLaw.nodes_insert] at hm
      rcases hm with hm | hm
      · exact Or.inl (hc.taken (hdst f hm)).1
      · rw [hc.fresh.nodes_same h.inv] at hm
        exact Or.inr hm
  refine ⟨evolves_of_walks 0 ⟨hinv, fun f hm => h.low f (hc.fresh.sub hm),
    fun hm => h.zero (hcore hm), ?_⟩ (Set.subset_insert _ _) hc.fresh.sub hcore
    (fun r hr a => Or.inl (hc.fresh.walk_eq h.inv hr a)), ?_⟩
  · intro r hr f hm
    rw [Windowed]
    rcases hr with rfl | hr
    · rw [walk, hc.leaves (pathOf _) (ptIndex _) (pathOf_length _)]
      exact h.mapped src hsrc f (hcore hm)
    · rw [hc.fresh.walk_eq h.inv hr]
      exact h.mapped r hr f (hcore hm)
  · intro hm
    exact h.inv.used dst (RadixForest.root_mem_nodes hm) (hc.taken hc.tree.root_mem).1

end AddressSpace
