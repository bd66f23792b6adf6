import DeepOS.Supply

/-!
# What the loader leaves in memory

`map_exe_format` gives every page of a segment a frame as it was left, also a page
that an earlier segment has already filled, and then writes the segment's bytes.
So a page shows the bytes of the last segment that reaches it, and the leftovers
of its frame elsewhere.
-/
namespace LoadedBytes

open PhyMem TaskTable PageTable PageMap VirtAlloc Process AddressSpace TaskPages LoadImage Supply
open RadixForest (put nodes)

/-! ## Bytes of a page -/

def getByte (w : Word) (i : Nat) : BitVec 8 := (w >>> (8 * i)).setWidth 8

theorem getLsbD_low (n : Nat) : (255#64).getLsbD n = decide (n < 8) := by
  have hbits : (255 : Nat).testBit n = decide (n < 8) := Nat.testBit_two_pow_sub_one 8 n
  rw [BitVec.getLsbD_ofNat, hbits]
  by_cases hn : n < 8
  · simp [hn, show n < 64 by omega]
  · simp [hn]

theorem getByte_setByte (w : Word) {i j : Nat} (hi : i < 8) (hj : j < 8) (b : BitVec 8) :
    getByte (setByte w i b) j = if j = i then b else getByte w j := by
  apply BitVec.eq_of_getLsbD_eq
  intro n hn
  have hlt : 8 * j + n < 64 := by omega
  simp only [getByte, setByte, BitVec.getLsbD_setWidth, BitVec.getLsbD_ushiftRight, BitVec.getLsbD_or,
    BitVec.getLsbD_and, BitVec.getLsbD_not, BitVec.getLsbD_shiftLeft, BitVec.ofNat_eq_ofNat,
    getLsbD_low, hn, hlt, decide_true, Bool.true_and]
  by_cases h : j = i
  · subst h
    simp [hn, show n < 64 by omega]
  · rw [if_neg h]
    rcases Nat.lt_or_gt_of_ne h with hji | hji
    · have h1 : 8 * j + n < 8 * i := by omega
      simp [h1, hn]
    · have h1 : ¬ 8 * j + n < 8 * i := by omega
      have h2 : ¬ 8 * j + n - 8 * i < 8 := by omega
      simp [h1, h2, hn, BitVec.getLsbD_of_ge b _ (Nat.le_of_not_lt h2)]

def byteIn (page : Fin 512 → Word) (v : Word) : BitVec 8 := getByte (page (wordIndex v)) (v.toNat % 8)

def loadByte (k : Kernel) (v : Word) : Option (BitVec 8) := (access k v).map fun f => byteIn (k.mem f) v

/-- Two canonical addresses in one page that stand for the same byte are equal. -/
theorem eq_of_place {v x : Word} (hv : Canonical v) (hx : Canonical x) (hp : vpn v = vpn x)
    (hw : wordIndex v = wordIndex x) (hb : v.toNat % 8 = x.toNat % 8) : v = x := by
  rw [vpn, vpn] at hp
  rw [Canonical] at hv hx
  have hw' := congrArg Fin.val hw
  rw [wordIndex, wordIndex, index_val, index_val] at hw'
  apply BitVec.eq_of_toNat_eq
  omega

theorem byteIn_put (m : Nat → Fin 512 → Word) (g : Nat) (v x : Word) (b : BitVec 8) :
    byteIn (put m g (wordIndex v) (setByte (m g (wordIndex v)) (v.toNat % 8) b) g) x =
      if wordIndex x = wordIndex v ∧ x.toNat % 8 = v.toNat % 8 then b else byteIn (m g) x := by
  have hv : v.toNat % 8 < 8 := Nat.mod_lt _ (by decide)
  have hx : x.toNat % 8 < 8 := Nat.mod_lt _ (by decide)
  by_cases hw : wordIndex x = wordIndex v
  · rw [byteIn, hw, RadixForest.put_self, getByte_setByte _ hv hx, byteIn, hw]
    simp
  · rw [byteIn, RadixForest.put_index_of_ne _ _ hw, if_neg (fun hc => hw hc.1), byteIn]

/-! ## Views of an address space -/

/-- What a user address shows: nothing known, the leftovers of its frame, or a byte. -/
abbrev Shown := Word → Option (Option (BitVec 8))

/-- Since `k₀`, the pages of the addresses that `val` knows were put on distinct
frames that were free, and show what `val` says. -/
structure View (R : Set Nat) (k₀ k : Kernel) (val : Shown) : Prop where
  sound : Sound R k
  cr3 : k.cr3 = k₀.cr3
  sub : freeFrames k.memMap ⊆ freeFrames k₀.memMap
  still : ∀ f ∈ freeFrames k.memMap, k.mem f = k₀.mem f
  shows : ∀ x c, Canonical x → val x = some c → ∃ g ∈ freeFrames k₀.memMap,
    translate k k₀.cr3 x = some g ∧ g ∉ core R k ∧
      byteIn (k.mem g) x = c.getD (byteIn (k₀.mem g) x)
  apart : ∀ x y f, Canonical x → Canonical y → (val x).isSome → (val y).isSome →
    translate k k₀.cr3 x = some f → translate k k₀.cr3 y = some f → vpn x = vpn y

section

variable {R : Set Nat} {t : Slot} {k₀ k k' : Kernel} {val : Shown}

theorem view_start (h : Sound R k₀) : View R k₀ k₀ fun _ => none where
  sound := h
  cr3 := rfl
  sub := subset_rfl
  still := fun _ _ => rfl
  shows := fun _ _ _ hx => by cases hx
  apart := fun _ _ _ _ _ hx => by cases hx

theorem View.modifyTask (h : View R k₀ k val) (change : TaskMem → TaskMem) :
    View R k₀ (modifyTask k t change) val :=
  ⟨(evolves_modify h.sound t change).sound, h.cr3, h.sub, h.still, h.shows, h.apart⟩

/-- A page is put on the next free frame. -/
def Shown.page (val : Shown) (v : Word) : Shown := fun x => if vpn x = vpn v then some none else val x

theorem View.mapPage {v : Word} (h : View R k₀ k val) (hr : k₀.cr3 ∈ R) (hoff : OffWindow v)
    (hs : Process.mapPage t k v = some k') : View R k₀ k' (val.page v) := by
  simp only [Process.mapPage, bind, Option.bind_eq_some_iff] at hs
  obtain ⟨⟨p, k₁⟩, halloc, k₂, hmap, hs⟩ := hs
  obtain ⟨g, hg, rfl, rfl⟩ := pageAlloc_some halloc
  have hcr3 : k.cr3 ∈ R := h.cr3 ▸ hr
  have hsound := (h.sound.evolves_fresh (fresh_unset k g)).sound
  obtain ⟨taken, hmaps, -⟩ := mapProcessSpecific_spec hsound.inv hcr3 (hsound.lowFor _) hmap
  obtain ⟨hev, hq, -, -⟩ := allocMap_spec h.sound hcr3 hoff halloc hmap
  have hnot : g ∉ freeFrames (mmapUnset k.memMap g) := by
    rw [freeFrames_unset]
    exact fun hm => hm.2 rfl
  have hgcore : g ∉ core R k₂ := by
    have hsub : core R k₂ ⊆ core R { k with memMap := mmapUnset k.memMap g } := by
      rintro f (hm | hm)
      · rw [hmaps.free] at hm
        exact Or.inl hm.1
      · rw [hmaps.nodes] at hm
        rcases hm with hm | hm
        · exact Or.inr hm
        · exact Or.inl (hmaps.taken_free hm)
    exact fun hm => h.sound.taken_not_core (fresh_unset k g) hg.1 hnot (hsub hm)
  -- the new page leads to `g`, every other one where it led
  have hnew : ∀ x, vpn x = vpn v → translate k₂ k₀.cr3 x = some g := by
    intro x hx
    rw [PageTable.translate, hmaps.walks _ hr, if_pos ⟨h.cr3.symm, hx⟩, Option.map_some,
      frameOf_mkEntry, frameOf_frameAddr (freeFrames_lt hg.1)]
  have hold : ∀ x, vpn x ≠ vpn v → translate k₂ k₀.cr3 x = translate k k₀.cr3 x := by
    intro x hx
    rw [PageTable.translate, hmaps.walks _ hr, if_neg (fun hc => hx hc.2)]
    rfl
  have hview : View R k₀ k₂ (val.page v) := by
    refine ⟨hev.sound, ?_, hev.free.trans h.sub, ?_, ?_, ?_⟩
    · rw [SameTasks.cr3_eq hmaps.same]
      exact h.cr3
    · intro f hf
      rw [hmaps.outside f (fun hm => hev.sound.inv.used f hm hf)]
      exact h.still f (hev.free hf)
    · intro x c hx hc
      by_cases hxv : vpn x = vpn v
      · obtain rfl : c = none := by
          rw [Shown.page, if_pos hxv] at hc
          exact (Option.some.inj hc).symm
        refine ⟨g, h.sub hg.1, hnew x hxv, hgcore, ?_⟩
        rw [hmaps.outside g (fun hm => hgcore (Or.inr hm))]
        exact congrArg (byteIn · x) (h.still g hg.1)
      · rw [Shown.page, if_neg hxv] at hc
        obtain ⟨f, hf, htr, hfc, hbyte⟩ := h.shows x c hx hc
        refine ⟨f, hf, (hold x hxv).trans htr, fun hm => hfc (hev.core hm), ?_⟩
        rw [hq f hfc]
        exact hbyte
    · -- the new frame was free, those of the other pages were not
      have hfresh : ∀ y, Canonical y → vpn y ≠ vpn v → (val y).isSome → translate k k₀.cr3 y ≠ some g := by
        intro y hy hyv hv hyg
        obtain ⟨c, hc⟩ := Option.isSome_iff_exists.mp hv
        obtain ⟨f, -, htr, hfc, -⟩ := h.shows y c hy hc
        rw [htr, Option.some.injEq] at hyg
        exact hfc (hyg ▸ Or.inl hg.1)
      intro x y f hx hy hxs hys hxf hyf
      by_cases hxv : vpn x = vpn v
      · by_cases hyv : vpn y = vpn v
        · exact hxv.trans hyv.symm
        · rw [hnew x hxv] at hxf
          rw [hold y hyv] at hyf
          rw [Shown.page, if_neg hyv] at hys
          exact absurd (hyf.trans hxf.symm) (hfresh y hy hyv hys)
      · by_cases hyv : vpn y = vpn v
        · rw [hnew y hyv] at hyf
          rw [hold x hxv] at hxf
          rw [Shown.page, if_neg hxv] at hxs
          exact absurd (hxf.trans hyf.symm) (hfresh x hx hxv hxs)
        · rw [hold x hxv] at hxf
          rw [hold y hyv] at hyf
          rw [Shown.page, if_neg hxv] at hxs
          rw [Shown.page, if_neg hyv] at hys
          exact h.apart x y f hx hy hxs hys hxf hyf
  rw [Option.some.injEq] at hs
  subst hs
  exact hview.modifyTask _

def Shown.byte (val : Shown) (v : Word) (b : BitVec 8) : Shown :=
  fun x => if x = v then some (some b) else val x

theorem View.storeByte {v : Word} {b : BitVec 8} (h : View R k₀ k val) (hr : k₀.cr3 ∈ R) (hv : Canonical v)
    (hknown : (val v).isSome) (hs : Process.storeByte k v b = some k') : View R k₀ k' (val.byte v b) := by
  obtain ⟨c, hc⟩ := Option.isSome_iff_exists.mp hknown
  obtain ⟨g, hg, htr, hgc, -⟩ := h.shows v c hv hc
  have htr' : translate k k.cr3 v = some g := by rw [h.cr3, htr]
  rw [Process.storeByte, access, if_pos hv, htr', Option.map_some, Option.some.injEq] at hs
  have hbyte := fun x => byteIn_put k.mem g v x b
  have hout : ∀ f, f ≠ g → put k.mem g (wordIndex v)
      (setByte (k.mem g (wordIndex v)) (v.toNat % 8) b) f = k.mem f :=
    fun f hf => RadixForest.put_of_ne _ hf _ _
  simp only at hs
  generalize put k.mem g (wordIndex v) (setByte (k.mem g (wordIndex v)) (v.toNat % 8) b) = m
    at hs hbyte hout
  subst hs
  have hcore : ∀ f ∈ core R k, m f = k.mem f := fun f hf => hout f (fun he => hgc (he ▸ hf))
  have hev : Evolves R R k { k with mem := m } := h.sound.evolves_outside hcore rfl
  have hwalk : ∀ x, translate { k with mem := m } k₀.cr3 x = translate k k₀.cr3 x := fun x =>
    translate_congr (RadixForest.leaf_outside (fun f hf => hcore f (Or.inr hf)) hr (pathOf_length x).le _)
  have hknew : ∀ x, ((val.byte v b) x).isSome → (val x).isSome := by
    intro x hx
    by_cases hxv : x = v
    · exact hxv ▸ hknown
    · rwa [Shown.byte, if_neg hxv] at hx
  refine ⟨hev.sound, h.cr3, h.sub, ?_, ?_, ?_⟩
  · exact fun f hf => (hcore f (Or.inl hf)).trans (h.still f hf)
  · intro x d hx hd
    by_cases hxv : x = v
    · subst hxv
      rw [Shown.byte, if_pos rfl, Option.some.injEq] at hd
      subst hd
      refine ⟨g, hg, (hwalk x).trans htr, fun hm => hgc (hev.core hm), ?_⟩
      rw [show ({ k with mem := m } : Kernel).mem = m from rfl, hbyte x, if_pos ⟨rfl, rfl⟩]
      rfl
    · rw [Shown.byte, if_neg hxv] at hd
      obtain ⟨f, hf, htrx, hfc, hfb⟩ := h.shows x d hx hd
      refine ⟨f, hf, (hwalk x).trans htrx, fun hm => hfc (hev.core hm), ?_⟩
      change byteIn (m f) x = _
      by_cases hfg : f = g
      · subst hfg
        have hpage : vpn x = vpn v := h.apart x v f hx hv (by rw [hd]; rfl) hknown htrx htr
        rw [hbyte x, if_neg (fun hcc => hxv (eq_of_place hx hv hpage hcc.1 hcc.2))]
        exact hfb
      · rw [hout f hfg]
        exact hfb
  · intro x y f hx hy hxs hys hxf hyf
    rw [hwalk] at hxf hyf
    exact h.apart x y f hx hy (hknew x hxs) (hknew y hys) hxf hyf

/-- A byte that is known is read back. -/
theorem View.loadByte {v : Word} {c : Option (BitVec 8)} (h : View R k₀ k val) (hv : Canonical v)
    (hc : val v = some c) : ∃ g ∈ freeFrames k₀.memMap,
      LoadedBytes.loadByte k v = some (c.getD (byteIn (k₀.mem g) v)) := by
  obtain ⟨g, hg, htr, -, hbyte⟩ := h.shows v c hv hc
  refine ⟨g, hg, ?_⟩
  rw [LoadedBytes.loadByte, access, if_pos hv, h.cr3, htr, Option.map_some, hbyte]

theorem View.congr {val' : Shown} (h : View R k₀ k val) (hval : ∀ x, Canonical x → val' x = val x) :
    View R k₀ k val' := by
  refine ⟨h.sound, h.cr3, h.sub, h.still, ?_, ?_⟩
  · intro x c hx hc
    rw [hval x hx] at hc
    exact h.shows x c hx hc
  · intro x y f hx hy hxs hys
    rw [hval x hx] at hxs
    rw [hval y hy] at hys
    exact h.apart x y f hx hy hxs hys

end

/-! ## One segment -/

def segmentPages (s : Segment) : List Word := pagesFrom s.leastStart s.pageNeeded.toNat

def Covers (s : Segment) (x : Word) : Prop := ∃ v ∈ segmentPages s, vpn x = vpn v

def Contains (s : Segment) (x : Word) : Prop :=
  s.vaddr.toNat ≤ x.toNat ∧ x.toNat < s.vaddr.toNat + s.sizeInMemory.toNat

instance decidableCovers (s : Segment) (x : Word) : Decidable (Covers s x) :=
  inferInstanceAs (Decidable (∃ v ∈ segmentPages s, vpn x = vpn v))

instance decidableContains (s : Segment) (x : Word) : Decidable (Contains s x) :=
  inferInstanceAs (Decidable (_ ∧ _))

/-- The bytes of a segment over what was there. -/
def Shown.segment (val : Shown) (s : Segment) : Shown := fun x =>
  if Covers s x then
    some (if Contains s x then some (s.onDisk (x.toNat - s.vaddr.toNat)) else none)
  else val x

/-- The first `n` bytes of a segment over what was there. -/
def Shown.bytes (val : Shown) (s : Segment) (n : Nat) : Shown := fun x =>
  if s.vaddr.toNat ≤ x.toNat ∧ x.toNat < s.vaddr.toNat + n then
    some (some (s.onDisk (x.toNat - s.vaddr.toNat)))
  else val x

section

variable {R : Set Nat} {t : Slot} {k₀ k k' : Kernel} {val : Shown} {s : Segment}

theorem Linked.pageNeeded_ne_zero (hl : Linked s) (hz : s.sizeInMemory.toNat ≠ 0) :
    s.pageNeeded ≠ 0 := by
  have hleast := toNat_leastStart s
  have hmax := toNat_maxEnd hl
  rw [Linked, dumb_toNat] at hl
  have hend : (s.vaddr + s.sizeInMemory - s.vaddr).toNat = s.sizeInMemory.toNat := by
    rw [BitVec.toNat_sub, BitVec.toNat_add]
    omega
  have hne : s.vaddr + s.sizeInMemory - s.vaddr ≠ 0 := by
    intro h0
    rw [h0] at hend
    exact hz hend.symm
  rw [Segment.pageNeeded, if_pos hne]
  intro h0
  have hnat := congrArg BitVec.toNat h0
  rw [BitVec.toNat_udiv, BitVec.toNat_sub, hmax, hleast, show (0x1000 : Word).toNat = 4096 from rfl,
    show (0 : Word).toNat = 0 from rfl] at hnat
  omega

/-- The bytes of a segment are in its pages. -/
theorem Linked.covers (hl : Linked s) {x : Word} (hx : Contains s x) : Covers s x := by
  obtain ⟨hlow, hhigh⟩ := hx
  have hn := Linked.pageNeeded_ne_zero hl (by omega)
  refine ⟨BitVec.ofNat 64 (x.toNat / 4096 * 4096), ?_, ?_⟩
  · refine (mem_pagesFrom hl hn _).mpr ⟨x.toNat / 4096, by omega, by omega, ?_⟩
    rw [BitVec.toNat_ofNat]
    omega
  · rw [vpn, vpn, BitVec.toNat_ofNat]
    omega

/-- Below the window, with addresses that the processor accepts. -/
structure Placed (s : Segment) : Prop where
  linked : Linked s
  canonical : ∀ i < s.sizeInMemory.toNat, Canonical (s.vaddr + BitVec.ofNat 64 i)

theorem Placed.offWindow (h : Placed s) {v : Word} (hv : v ∈ segmentPages s) : OffWindow v := by
  have hn : s.pageNeeded ≠ 0 := by
    intro h0
    rw [segmentPages, h0] at hv
    simp [pagesFrom] at hv
  exact offWindow_of_canonical h.linked hn h.canonical hv

theorem foldl_page (vs : List Word) (val : Shown) (x : Word) :
    (vs.foldl Shown.page val) x = if ∃ v ∈ vs, vpn x = vpn v then some none else val x := by
  induction vs generalizing val with
  | nil => simp
  | cons v vs ih =>
    rw [List.foldl_cons, ih, Shown.page]
    by_cases hx : vpn x = vpn v
    · simp [hx]
    · simp [hx]

/-- The pages of a segment are put on fresh frames. -/
theorem View.mapPages (h : View R k₀ k val) (hr : k₀.cr3 ∈ R) (vs : List Word)
    (hoff : ∀ v ∈ vs, OffWindow v) (hn : 4 * vs.length ≤ supply k) :
    ∃ k', Transition.run (Process.mapPage t) k vs = some k' ∧ View R k₀ k' (vs.foldl Shown.page val) ∧
      supply k ≤ supply k' + 4 * vs.length := by
  refine Transition.run_loop_some _ vs (P := fun done k' => View R k₀ k' (done.foldl Shown.page val) ∧
    supply k ≤ supply k' + 4 * done.length) ?_ ⟨h, by simp⟩
  rintro done v rest k₁ hvs ⟨hview, hsup⟩
  have hlen := congrArg List.length hvs
  rw [List.length_append, List.length_cons] at hlen
  obtain ⟨k₂, hmap, hk₂⟩ := mapPage_isSome (t := t) (v := v) hview.sound (hview.cr3 ▸ hr) (by omega)
  refine ⟨k₂, hmap, ?_, ?_⟩
  · rw [List.foldl_append]
    exact hview.mapPage hr (hoff v (hvs ▸ List.mem_append_right _ List.mem_cons_self)) hmap
  · rw [List.length_append, List.length_singleton]
    omega

/-- The bytes of a segment are written one after another. -/
theorem View.copyOnDisk (h : View R k₀ k val) (hr : k₀.cr3 ∈ R) (hs : Placed s)
    (hknown : ∀ x, Contains s x → (val x).isSome) :
    ∃ k', Transition.run (Process.copyOnDisk s) k (List.range s.sizeInMemory.toNat) = some k' ∧
      View R k₀ k' (val.bytes s s.sizeInMemory.toNat) ∧ supply k' = supply k := by
  refine Transition.run_range_some s.sizeInMemory.toNat
    (P := fun n k' => View R k₀ k' (val.bytes s n) ∧ supply k' = supply k) ?_ ⟨h.congr ?_, rfl⟩
  · rintro n hlt k₁ ⟨hview, hsup⟩
    have hl := hs.linked
    rw [Linked, dumb_toNat] at hl
    have haddr : (s.vaddr + BitVec.ofNat 64 n).toNat = s.vaddr.toNat + n := by
      rw [BitVec.toNat_add, BitVec.toNat_ofNat]
      omega
    have hcan := hs.canonical n hlt
    have hat : (val.bytes s n (s.vaddr + BitVec.ofNat 64 n)).isSome := by
      rw [Shown.bytes, if_neg (by omega)]
      exact hknown _ ⟨by omega, by omega⟩
    obtain ⟨c, hc⟩ := Option.isSome_iff_exists.mp hat
    obtain ⟨g, -, htr, -, -⟩ := hview.shows _ c hcan hc
    have hacc : access k₁ (s.vaddr + BitVec.ofNat 64 n) = some g := by
      rw [access, if_pos hcan, hview.cr3, htr]
    obtain ⟨k₂, hstore, hmap⟩ :
        ∃ k₂, Process.copyOnDisk s k₁ n = some k₂ ∧ k₂.memMap = k₁.memMap := by
      rw [Process.copyOnDisk, Process.storeByte, hacc, Option.map_some]
      exact ⟨_, rfl, rfl⟩
    have hsame : supply k₂ = supply k₁ := by rw [supply, supply, hmap]
    refine ⟨k₂, hstore, ?_, hsame.trans hsup⟩
    refine (hview.storeByte hr hcan hat hstore).congr ?_
    intro x hx
    rw [Shown.bytes, Shown.byte, Shown.bytes]
    by_cases hxv : x = s.vaddr + BitVec.ofNat 64 n
    · rw [if_pos hxv, hxv, haddr, if_pos (by omega), Nat.add_sub_cancel_left]
    · have hne : x.toNat ≠ s.vaddr.toNat + n := by
        intro he
        exact hxv (BitVec.eq_of_toNat_eq (he.trans haddr.symm))
      rw [if_neg hxv]
      by_cases hin : s.vaddr.toNat ≤ x.toNat ∧ x.toNat < s.vaddr.toNat + n
      · rw [if_pos hin, if_pos (by omega)]
      · rw [if_neg hin, if_neg (by omega)]
  · intro x _
    rw [Shown.bytes, if_neg (by omega)]

theorem View.mapSegment (h : View R k₀ k val) (hr : k₀.cr3 ∈ R) (hs : Placed s) (i : Nat)
    (hn : 4 * s.pageNeeded.toNat ≤ supply k) :
    ∃ k' j, Process.mapSegment t (k, i) s = some (k', j) ∧ View R k₀ k' (val.segment s) ∧
      supply k ≤ supply k' + 4 * s.pageNeeded.toNat := by
  by_cases hz : s.pageNeeded = 0
  · refine ⟨k, i, ?_, h.congr fun x _ => ?_, Nat.le_add_right _ _⟩
    · rw [Process.mapSegment, if_neg (fun hc => hc hz)]
    · have hno : ¬ Covers s x := by simp [Covers, segmentPages, pagesFrom, hz]
      rw [Shown.segment, if_neg hno]
  · have hlen : (segmentPages s).length = s.pageNeeded.toNat := by
      rw [segmentPages, pagesFrom, List.length_map, List.length_range]
    have hstart : View R k₀ (Process.modifyTask k t fun task => setVma task i s.leastStart s.maxEnd) val :=
      h.modifyTask _
    obtain ⟨k₁, hpages, hview₁, hsup₁⟩ := hstart.mapPages (t := t) hr (segmentPages s)
      (fun v hv => hs.offWindow hv) (by rw [hlen, supply_modifyTask]; exact hn)
    rw [hlen, supply_modifyTask] at hsup₁
    have hpage : ∀ x, Covers s x → (segmentPages s).foldl Shown.page val x = some none := by
      intro x hcov
      rw [foldl_page]
      exact if_pos hcov
    obtain ⟨k₂, hcopy, hview₂, hsup₂⟩ := hview₁.copyOnDisk hr hs (by
      intro x hx
      rw [hpage x (Linked.covers hs.linked hx)]
      rfl)
    refine ⟨k₂, i + 1, ?_, hview₂.congr ?_, by omega⟩
    · rw [segmentPages] at hpages
      simp only [Process.mapSegment, if_pos (show s.pageNeeded ≠ 0 from hz), bind, hpages, hcopy,
        Option.bind_some]
    · intro x _
      rw [Shown.segment]
      by_cases hin : Contains s x
      · rw [if_pos (Linked.covers hs.linked hin), if_pos hin]
        exact (if_pos hin).symm
      · refine Eq.trans ?_ (if_neg hin).symm
        by_cases hcov : Covers s x
        · rw [if_pos hcov, if_neg hin, hpage x hcov]
        · rw [if_neg hcov, foldl_page]
          exact (if_neg hcov).symm

def framesNeeded (segments : List Segment) : Nat := (segments.map fun s => 4 * s.pageNeeded.toNat).sum

theorem View.mapSegments (h : View R k₀ k val) (hr : k₀.cr3 ∈ R) (segments : List Segment)
    (hs : ∀ s ∈ segments, Placed s) (i : Nat) (hn : framesNeeded segments ≤ supply k) :
    ∃ r, Transition.run (Process.mapSegment t) (k, i) segments = some r ∧
      View R k₀ r.1 (segments.foldl Shown.segment val) ∧
      supply k ≤ supply r.1 + framesNeeded segments := by
  induction segments generalizing k i val with
  | nil => exact ⟨(k, i), rfl, h, Nat.le_add_right _ _⟩
  | cons s rest ih =>
    rw [framesNeeded, List.map_cons, List.sum_cons, ← framesNeeded] at hn ⊢
    obtain ⟨k₁, j, hseg, hview, hsup⟩ :=
      h.mapSegment (t := t) hr (hs s List.mem_cons_self) i (by omega)
    obtain ⟨r, hrun, hend, hrest⟩ :=
      ih hview (fun s' hs' => hs s' (List.mem_cons_of_mem _ hs')) j (by omega)
    refine ⟨r, ?_, ?_, by omega⟩
    · rw [Transition.run, hseg, Option.bind_some]
      exact hrun
    · rw [List.foldl_cons]
      exact hend

/-- The loader only ends when all bytes it writes have canonical addresses. -/
theorem canonical_of_run (segments : List Segment) (hl : ∀ s ∈ segments, Linked s) {r r' : Kernel × Nat}
    (hrun : Transition.run (Process.mapSegment t) r segments = some r') :
    ∀ s ∈ segments, ∀ i < s.sizeInMemory.toNat, Canonical (s.vaddr + BitVec.ofNat 64 i) := by
  induction segments generalizing r with
  | nil => simp
  | cons s rest ih =>
    obtain ⟨r₁, hseg, hrest⟩ := (Transition.run_cons_eq_some _).mp hrun
    intro s' hs'
    rcases List.mem_cons.mp hs' with rfl | hs'
    · intro i hi
      have hn := Linked.pageNeeded_ne_zero (hl s' List.mem_cons_self) (by omega)
      simp only [Process.mapSegment, if_pos hn, bind, Option.bind_eq_some_iff] at hseg
      obtain ⟨k₁, -, k₂, hcopy, -⟩ := hseg
      exact copyOnDisk_canonical hcopy i hi
    · exact ih (fun s hs => hl s (List.mem_cons_of_mem _ hs)) hrest s' hs'

/-! ## What is shown at the end -/

def lastOver (segments : List Segment) (x : Word) : Option Segment :=
  segments.reverse.find? fun s => decide (Covers s x)

theorem foldl_segment (segments : List Segment) (val : Shown) (x : Word) :
    segments.foldl Shown.segment val x = match lastOver segments x with
      | some s => some (if Contains s x then some (s.onDisk (x.toNat - s.vaddr.toNat)) else none)
      | none => val x := by
  induction segments generalizing val with
  | nil => rfl
  | cons s rest ih =>
    rw [List.foldl_cons, ih, lastOver, lastOver, List.reverse_cons, List.find?_append]
    cases rest.reverse.find? fun s => decide (Covers s x) with
    | some s' => rfl
    | none =>
      by_cases hs : Covers s x
      · simp [Shown.segment, hs]
      · simp [Shown.segment, hs]

end

end LoadedBytes
