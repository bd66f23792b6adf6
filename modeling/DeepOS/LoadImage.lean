import DeepOS.TaskPages

/-!
# Loading an image

`map_exe_format` gives every page of a segment a frame that was free and then
writes the bytes of the segment there. The processor refuses addresses that are
not canonical, so a segment that could be written lies away from the window, but
for the page at its end, which may be the window page of frame 0.
-/
namespace LoadImage

open PhyMem TaskTable PageTable PageMap VirtAlloc Process AddressSpace TaskPages
open RadixForest (put)

/-- The segment ends below the window. -/
def Linked (s : Segment) : Prop :=
  s.vaddr.toNat + s.sizeInMemory.toNat ≤ DUMB_MAPPING_VIRT.toNat

/-- The page of `v` is no window page but, at most, that of frame 0. -/
def OffWindow (v : Word) : Prop := ∀ f, 0 < f → f < WINDOW_FRAMES → vpn v ≠ vpn (window f)

/-! ## The pages of a segment -/

theorem toNat_leastStart (s : Segment) : s.leastStart.toNat = s.vaddr.toNat / 4096 * 4096 := by
  have hlt := s.vaddr.isLt
  rw [Segment.leastStart, BitVec.toNat_mul, BitVec.toNat_udiv, show (0x1000 : Word).toNat = 4096 from rfl]
  omega

section

variable {s : Segment} (hl : Linked s)

include hl

theorem toNat_end : (s.vaddr + s.sizeInMemory).toNat = s.vaddr.toNat + s.sizeInMemory.toNat := by
  rw [Linked, dumb_toNat] at hl
  rw [BitVec.toNat_add]
  omega

theorem toNat_maxEnd : s.maxEnd.toNat =
    (s.vaddr.toNat + s.sizeInMemory.toNat) / 4096 * 4096 + 4096 := by
  have hend := toNat_end hl
  rw [Linked, dumb_toNat] at hl
  rw [Segment.maxEnd, BitVec.toNat_add, BitVec.toNat_mul, BitVec.toNat_udiv, hend,
    show (0x1000 : Word).toNat = 4096 from rfl]
  omega

theorem toNat_pageNeeded (hn : s.pageNeeded ≠ 0) : s.pageNeeded.toNat =
    (s.vaddr.toNat + s.sizeInMemory.toNat) / 4096 - s.vaddr.toNat / 4096 + 1 := by
  have hleast := toNat_leastStart s
  have hmax := toNat_maxEnd hl
  rw [Segment.pageNeeded] at hn ⊢
  split at hn
  · rename_i hne
    rw [if_pos hne, BitVec.toNat_udiv, BitVec.toNat_sub_of_le (by rw [BitVec.le_def]; omega), hleast,
      hmax, show (0x1000 : Word).toNat = 4096 from rfl]
    omega
  · exact absurd rfl hn

theorem mem_pagesFrom (hn : s.pageNeeded ≠ 0) (a : Word) :
    a ∈ pagesFrom s.leastStart s.pageNeeded.toNat ↔ ∃ p, s.vaddr.toNat / 4096 ≤ p ∧
      p ≤ (s.vaddr.toNat + s.sizeInMemory.toNat) / 4096 ∧ a.toNat = p * 4096 := by
  have hleast := toNat_leastStart s
  have hcount := toNat_pageNeeded hl hn
  have hl' := hl
  rw [Linked, dumb_toNat] at hl'
  have hnat : ∀ i, i < s.pageNeeded.toNat →
      (s.leastStart + BitVec.ofNat 64 (i * 0x1000)).toNat = (s.vaddr.toNat / 4096 + i) * 4096 := by
    intro i hi
    rw [BitVec.toNat_add, BitVec.toNat_ofNat, hleast]
    omega
  simp only [pagesFrom, List.mem_map, List.mem_range]
  constructor
  · rintro ⟨i, hi, rfl⟩
    exact ⟨s.vaddr.toNat / 4096 + i, by omega, by omega, hnat i hi⟩
  · rintro ⟨p, hp, hp', ha⟩
    refine ⟨p - s.vaddr.toNat / 4096, by omega, ?_⟩
    apply BitVec.eq_of_toNat_eq
    rw [hnat _ (by omega), ha]
    congr 1
    omega

end

theorem size_ne_zero {s : Segment} (hn : s.pageNeeded ≠ 0) : s.sizeInMemory ≠ 0 := by
  intro h0
  apply hn
  rw [Segment.pageNeeded, h0]
  simp

/-- The page of a byte is one of the pages of the segment. -/
theorem page_of_byte {s : Segment} (hl : Linked s) (hn : s.pageNeeded ≠ 0) {i : Nat} (hi : i < s.sizeInMemory.toNat) :
    ∃ a ∈ pagesFrom s.leastStart s.pageNeeded.toNat, vpn (s.vaddr + BitVec.ofNat 64 i) = vpn a := by
  have hlt := s.vaddr.isLt
  have hl' := hl
  rw [Linked, dumb_toNat] at hl'
  refine ⟨BitVec.ofNat 64 ((s.vaddr.toNat + i) / 4096 * 4096), ?_, ?_⟩
  · refine (mem_pagesFrom hl hn _).mpr ⟨(s.vaddr.toNat + i) / 4096, by omega, by omega, ?_⟩
    rw [BitVec.toNat_ofNat]
    omega
  · rw [vpn, vpn, BitVec.toNat_add, BitVec.toNat_ofNat, BitVec.toNat_ofNat]
    omega

/-- The bytes were written, so the pages lie away from the window. -/
theorem offWindow_of_canonical {s : Segment} (hl : Linked s) (hn : s.pageNeeded ≠ 0)
    (hcan : ∀ i < s.sizeInMemory.toNat, Canonical (s.vaddr + BitVec.ofNat 64 i)) {a : Word}
    (ha : a ∈ pagesFrom s.leastStart s.pageNeeded.toNat) : OffWindow a := by
  obtain ⟨p, hp, hp', ha⟩ := (mem_pagesFrom hl hn a).mp ha
  have hz : 0 < s.sizeInMemory.toNat := by
    have hne := size_ne_zero hn
    rw [Nat.pos_iff_ne_zero]
    exact fun h0 => hne (BitVec.eq_of_toNat_eq h0)
  rw [Linked, dumb_toNat] at hl
  have hbyte : ∀ x, s.vaddr.toNat ≤ x → x < s.vaddr.toNat + s.sizeInMemory.toNat →
      x < 2 ^ 47 ∨ 2 ^ 64 - 2 ^ 47 ≤ x := by
    intro x hx hx'
    have hc := hcan (x - s.vaddr.toNat) (by omega)
    rw [Canonical, BitVec.toNat_add, BitVec.toNat_ofNat] at hc
    omega
  intro f hf hlt hv
  rw [vpn_window hlt, vpn, ha] at hv
  rw [WINDOW_FRAMES] at hlt
  -- the last byte written in the page, or in the one before it
  have hlast := hbyte (max s.vaddr.toNat
    (min (p * 4096 + 4095) (s.vaddr.toNat + s.sizeInMemory.toNat - 1))) (by omega) (by omega)
  omega

/-! ## Mapping the pages -/

variable {R : Set Nat} {t : Slot} {k k' : Kernel}

/-- A frame is taken and a page away from the window is mapped to it. -/
theorem allocMap_spec {k₁ : Kernel} {v p : Word} (h : Sound R k) (hr : k.cr3 ∈ R) (hoff : OffWindow v)
    (halloc : k.pageAlloc = some (p, k₁)) (hmap : mapProcess k₁ v p = some k') :
    Evolves R R k k' ∧ Quiet R k k' ∧ SameTasks k k' ∧ Taken R k k' k.cr3 v := by
  obtain ⟨g, hg, rfl, rfl⟩ := pageAlloc_some halloc
  have hfresh := fresh_unset k g
  have hsound := (h.evolves_fresh hfresh).sound
  obtain ⟨taken, hmaps, -⟩ := mapProcessSpecific_spec hsound.inv hr (hsound.lowFor _) hmap
  have hnot : g ∉ freeFrames (mmapUnset k.memMap g) := by
    rw [freeFrames_unset]
    exact fun hm => hm.2 rfl
  have hoffcore : ∀ f ∈ core R { k with memMap := mmapUnset k.memMap g }, vpn v ≠ vpn (window f) := by
    intro f hf
    refine hoff f (Nat.pos_of_ne_zero ?_) (hsound.core_lt hf)
    rintro rfl
    exact hsound.zero hf
  obtain ⟨hev, hq, hmapped, hgc⟩ := h.evolves_map hfresh hr hg.1 hnot hoffcore hmaps
  exact ⟨hev, hq, hfresh.same.trans hmaps.same, g, hg.1, hmapped, hgc⟩

theorem mapPage_spec {v : Word} (h : Sound R k) (hr : k.cr3 ∈ R) (hoff : OffWindow v)
    (hs : mapPage t k v = some k') :
    Works R t k k' ∧ Taken R k k' k.cr3 v ∧
      k'.tasks t = { k.tasks t with pages := v :: (k.tasks t).pages } := by
  simp only [mapPage, bind, Option.bind_eq_some_iff] at hs
  obtain ⟨⟨p, k₁⟩, halloc, k₂, hmap, hs⟩ := hs
  obtain ⟨hev, hq, hsame, htaken⟩ := allocMap_spec h hr hoff halloc hmap
  have hw : Works R t k k₂ := works_of_sameTasks hev hq hsame
  rw [Option.some.injEq] at hs
  subst hs
  have hgain : Works R t k₂ (gain k₂ t v) :=
    works_gain hev.sound (SameTasks.cr3_eq hsame ▸ htaken.data)
  refine ⟨hw.trans hgain hr, htaken, ?_⟩
  rw [gain, modifyTask_self, hsame.tasks]

theorem mapPages_spec {vs : List Word} (h : Sound R k) (hr : k.cr3 ∈ R) (hoff : ∀ v ∈ vs, OffWindow v)
    (hs : Transition.run (mapPage t) k vs = some k') :
    Works R t k k' ∧ (∀ v ∈ vs, Taken R k k' k.cr3 v ∧ v ∈ (k'.tasks t).pages) ∧
      (k'.tasks t).vma = (k.tasks t).vma := by
  refine Transition.run_loop (P := fun done k' => Works R t k k' ∧
    (∀ v ∈ done, Taken R k k' k.cr3 v ∧ v ∈ (k'.tasks t).pages) ∧
      (k'.tasks t).vma = (k.tasks t).vma) _ ?_ ⟨works_refl h, by simp, rfl⟩ hs
  rintro done v rest k₁ k₂ hvs ⟨hw, htaken, hvma⟩ hstep
  have hcr3 := hw.cr3
  obtain ⟨hw', htaken', htask⟩ := mapPage_spec hw.evolves.sound (hcr3.symm ▸ hr)
    (hoff v (hvs ▸ List.mem_append_right _ (List.mem_cons_self ..))) hstep
  refine ⟨hw.trans hw' hr, ?_, ?_⟩
  · intro a ha
    rw [List.mem_append, List.mem_singleton] at ha
    rcases ha with ha | rfl
    · obtain ⟨hat, hap⟩ := htaken a ha
      exact ⟨hw'.evolves.taken hw.evolves.free hr hat, hw'.kept a hap⟩
    · obtain ⟨g, hg, htr, hgc⟩ := htaken'
      rw [hcr3] at htr
      refine ⟨⟨g, hw.evolves.free hg, htr, hgc⟩, ?_⟩
      rw [htask]
      exact List.mem_cons_self ..
  · rw [htask]
    exact hvma

/-! ## Writing the bytes -/

/-- A store writes to one frame. -/
theorem storeByte_some {v : Word} {b : BitVec 8} (hs : storeByte k v b = some k') :
    ∃ f, translate k k.cr3 v = some f ∧ Canonical v ∧ (∀ f', f' ≠ f → k'.mem f' = k.mem f') ∧
      k' = { k with mem := k'.mem } := by
  rw [storeByte, Option.map_eq_some_iff] at hs
  obtain ⟨f, hf, rfl⟩ := hs
  rw [access] at hf
  split at hf
  · rename_i hcan
    exact ⟨f, hf, hcan, fun f' hne => RadixForest.put_of_ne _ hne _ _, rfl⟩
  · cases hf

theorem copyOnDisk_canonical {s : Segment} {n : Nat}
    (hs : Transition.run (copyOnDisk s) k (List.range n) = some k') :
    ∀ i < n, Canonical (s.vaddr + BitVec.ofNat 64 i) := by
  have hall : ∀ i ∈ List.range n, Canonical (s.vaddr + BitVec.ofNat 64 i) := by
    refine Transition.run_loop (P := fun done _ =>
      ∀ i ∈ done, Canonical (s.vaddr + BitVec.ofNat 64 i)) _ ?_ (by simp) hs
    intro done j rest k₁ k₂ _ hdone hstep i hi
    rw [List.mem_append, List.mem_singleton] at hi
    rcases hi with hi | rfl
    · exact hdone i hi
    · obtain ⟨f, -, hcan, -⟩ := storeByte_some hstep
      exact hcan
  exact fun i hi => hall i (List.mem_range.mpr hi)

/-- A store to a data page. -/
theorem evolves_store {v : Word} {b : BitVec 8} (h : Sound R k) (hd : Data R k k.cr3 v)
    (hs : storeByte k v b = some k') : Evolves R R k k' := by
  obtain ⟨f, hf, -, hout, heq⟩ := storeByte_some hs
  obtain ⟨g, hg, hgc⟩ := hd
  have hfg : f = g := Option.some.inj (hf.symm.trans hg)
  refine h.evolves_outside (fun f' hf' => hout f' ?_) (by rw [heq])
  rintro rfl
  exact hgc (hfg ▸ hf')

/-- A byte written to a page whose frame was free in `k₀`. -/
theorem works_store {k₀ : Kernel} {v : Word} {b : BitVec 8} (hw : Works R t k₀ k) (hr : k₀.cr3 ∈ R)
    (ht : Taken R k₀ k k₀.cr3 v) (hs : storeByte k v b = some k') : Works R t k₀ k' := by
  have hev := evolves_store hw.evolves.sound (hw.cr3.symm ▸ ht.data) hs
  obtain ⟨f, hf, -, hout, heq⟩ := storeByte_some hs
  obtain ⟨g, hg, htr, -⟩ := ht
  rw [hw.cr3, htr, Option.some.injEq] at hf
  subst hf
  rw [heq]
  rw [heq] at hev
  refine ⟨hw.evolves.trans hev, ?_, hw.others, hw.status, hw.pml4e, hw.currentTask, hw.curPml4eVirt,
    hw.ok, hw.kept, ?_⟩
  · intro f' hf'
    exact (hout f' (fun he => hf' (he ▸ Or.inl hg))).trans (hw.quiet f' hf')
  · intro a ha
    rcases hw.gained a ha with ha | hd
    · exact Or.inl ha
    · exact Or.inr (hev.data hr hd)

theorem works_copyOnDisk {k₀ : Kernel} {s : Segment} (hl : Linked s) (hn : s.pageNeeded ≠ 0)
    (hw : Works R t k₀ k) (hr : k₀.cr3 ∈ R)
    (ht : ∀ a ∈ pagesFrom s.leastStart s.pageNeeded.toNat, Taken R k₀ k k₀.cr3 a)
    (hs : Transition.run (copyOnDisk s) k (List.range s.sizeInMemory.toNat) = some k') :
    Works R t k₀ k' ∧ k'.tasks = k.tasks := by
  have hloop := Transition.run_loop (P := fun _ k' => Works R t k₀ k' ∧ k'.tasks = k.tasks ∧
    ∀ a ∈ pagesFrom s.leastStart s.pageNeeded.toNat, Taken R k₀ k' k₀.cr3 a) _ ?_ ⟨hw, rfl, ht⟩ hs
  · exact ⟨hloop.1, hloop.2.1⟩
  rintro done i rest k₁ k₂ hrange ⟨hw₁, htasks, ht₁⟩ hstep
  have hi : i < s.sizeInMemory.toNat :=
    List.mem_range.mp (hrange ▸ List.mem_append_right _ (List.mem_cons_self ..))
  obtain ⟨a, ha, hv⟩ := page_of_byte hl hn hi
  have htv : Taken R k₀ k₁ k₀.cr3 (s.vaddr + BitVec.ofNat 64 i) := by
    obtain ⟨g, hg, htr, hgc⟩ := ht₁ a ha
    refine ⟨g, hg, ?_, hgc⟩
    rw [translate_page hv]
    exact htr
  have hev := evolves_store hw₁.evolves.sound (hw₁.cr3.symm ▸ htv.data) hstep
  refine ⟨works_store hw₁ hr htv hstep, ?_, fun a ha => hev.taken hw₁.evolves.free hr (ht₁ a ha)⟩
  obtain ⟨-, -, -, -, heq⟩ := storeByte_some hstep
  rw [heq]
  exact htasks

/-! ## Segments -/

@[simp] theorem setVma_status (s : TaskMem) (i : Nat) (a b : Word) :
    (setVma s i a b).status = s.status := by
  rw [setVma]
  split_ifs <;> rfl

@[simp] theorem setVma_pages (s : TaskMem) (i : Nat) (a b : Word) :
    (setVma s i a b).pages = s.pages := by
  rw [setVma]
  split_ifs <;> rfl

/-- The tables of the task survive unless the entry three behind the array is written. -/
theorem setVma_pml4e {i : Nat} (hi : i ≤ VMA_DEF_COUNT + 1) (s : TaskMem) (a b : Word) :
    (setVma s i a b).pml4e = s.pml4e := by
  rw [setVma]
  split_ifs
  · rfl
  · rfl
  · rfl
  · omega

theorem setVma_scanned {j : Nat} (hj : j < VMA_SCANNED) (s : TaskMem) (i : Nat) (a b : Word) :
    (setVma s i a b).vma j = if j = i then ⟨a, b⟩ else s.vma j := by
  rw [VMA_SCANNED] at hj
  by_cases hi : i < VMA_DEF_COUNT
  · rw [setVma, if_pos hi]
    exact Function.update_apply ..
  · have hne : j ≠ i := by rw [VMA_DEF_COUNT] at hi; omega
    rw [if_neg hne, setVma, if_neg hi]
    split_ifs <;> rfl

theorem mapSegment_spec {s : Segment} {i j : Nat} (h : Sound R k) (hr : k.cr3 ∈ R) (hl : Linked s)
    (hi : i ≤ VMA_DEF_COUNT + 1) (hs : mapSegment t (k, i) s = some (k', j)) :
    Works R t k k' ∧ j ≤ if s.sizeInMemory = 0 then i else i + 1 := by
  rw [mapSegment] at hs
  split at hs
  · rename_i hn
    simp only [bind, Option.bind_eq_some_iff] at hs
    obtain ⟨k₂, hmap, k₃, hcopy, hs⟩ := hs
    obtain ⟨rfl, rfl⟩ := Prod.mk.inj (Option.some.inj hs)
    have h₁ := (evolves_modify h t fun task => setVma task i s.leastStart s.maxEnd).sound
    have hoff : ∀ a ∈ pagesFrom s.leastStart s.pageNeeded.toNat, OffWindow a :=
      fun a ha => offWindow_of_canonical hl hn (copyOnDisk_canonical hcopy) ha
    obtain ⟨hw₂, htaken, hvma⟩ := mapPages_spec h₁ hr hoff hmap
    obtain ⟨hw₃, htasks⟩ := works_copyOnDisk hl hn hw₂ hr (fun a ha => (htaken a ha).1) hcopy
    refine ⟨hw₃.after_modify h (by simp) (setVma_pml4e hi _ _ _) (by simp) ?_, ?_⟩
    · -- the new area lists the pages just mapped
      intro hok m hm
      rw [htasks, hvma, modifyTask_self, setVma_scanned hm]
      split
      · intro _
        have hleast := toNat_leastStart s
        refine ⟨by simp only; omega, fun x hx hx' => ?_⟩
        simp only [BitVec.le_def, BitVec.lt_def, toNat_maxEnd hl, hleast] at hx hx'
        have hx64 := x.isLt
        have hmem : BitVec.ofNat 64 (x.toNat / 4096 * 4096) ∈
            pagesFrom s.leastStart s.pageNeeded.toNat := by
          refine (mem_pagesFrom hl hn _).mpr ⟨x.toNat / 4096, by omega, by omega, ?_⟩
          rw [BitVec.toNat_ofNat]
          omega
        refine ⟨_, (htaken _ hmem).2, ?_⟩
        rw [vpn, vpn, BitVec.toNat_ofNat]
        omega
      · refine (hok m hm).mono (fun a ha => hw₂.kept a ?_)
        rw [modifyTask_self, setVma_pages]
        exact ha
    · rw [if_neg (size_ne_zero hn)]
  · obtain ⟨rfl, rfl⟩ := Prod.mk.inj (Option.some.inj hs)
    refine ⟨works_refl h, ?_⟩
    split <;> simp

/-- The segments that take an entry of the `vma` array. -/
def nonEmpty (segments : List Segment) : List Segment :=
  segments.filter fun s => s.sizeInMemory ≠ 0

/-- While no more than 102 entries are in use, loading keeps the tables of the task. -/
theorem mapSegments_spec (segments : List Segment) : ∀ {k : Kernel} {i : Nat} {r : Kernel × Nat},
    Sound R k → k.cr3 ∈ R → (∀ s ∈ segments, Linked s) →
    i + (nonEmpty segments).length ≤ VMA_DEF_COUNT + 2 →
    Transition.run (mapSegment t) (k, i) segments = some r → Works R t k r.1 := by
  induction segments with
  | nil =>
    intro k i r h _ _ _ hs
    rw [Transition.run_nil, Option.some.injEq] at hs
    subst hs
    exact works_refl h
  | cons s segments ih =>
    intro k i r h hr hl hcount hs
    obtain ⟨⟨k₁, j⟩, h₁, hs⟩ := (Transition.run_cons_eq_some _).mp hs
    by_cases h0 : s.sizeInMemory = 0
    · have hskip : mapSegment t (k, i) s = some (k, i) := by
        rw [mapSegment, if_neg (fun hn => size_ne_zero hn h0)]
      rw [hskip] at h₁
      obtain ⟨rfl, rfl⟩ := Prod.mk.inj (Option.some.inj h₁)
      refine ih h hr (fun s' hs' => hl s' (List.mem_cons_of_mem s hs')) ?_ hs
      simpa [nonEmpty, h0] using hcount
    · have hlen : (nonEmpty (s :: segments)).length = (nonEmpty segments).length + 1 := by
        rw [nonEmpty, List.filter_cons_of_pos (by simpa using h0), List.length_cons]
        rfl
      obtain ⟨hw, hj⟩ := mapSegment_spec h hr (hl s (List.mem_cons_self ..)) (by omega) h₁
      rw [if_neg h0] at hj
      exact hw.trans (ih hw.evolves.sound (hw.cr3.symm ▸ hr)
        (fun s' hs' => hl s' (List.mem_cons_of_mem s hs')) (by omega) hs) hr

/-- The image lies below the window and leaves the last entry of the overrun alone. -/
def ImageOk (image : Image) : Prop :=
  (∀ s ∈ image.segments, Linked s) ∧ (nonEmpty image.segments).length ≤ 99

/-- The areas of a task that has just got its stacks. -/
theorem setStacks_ok {s : TaskMem} {u v : Word} (hu : u.toNat % 4096 = 0) (hv : v.toNat % 4096 = 0) :
    TaskOk (setStacks s u v) := by
  intro i hi
  simp only [setStacks, stackAreas]
  split_ifs
  · exact areaOk_page hu (List.mem_cons_of_mem _ (List.mem_cons_self ..))
  · exact areaOk_page hv (List.mem_cons_self ..)
  · exact fun hne => absurd rfl hne
  · exact fun hne => absurd rfl hne

/-- The two stacks are pages of the task, and nothing else is listed in the first ten slots. -/
theorem works_setStacks {u v : Word} {k₁ k₂ : Kernel} (h : Sound R k) (hr : k.cr3 ∈ R)
    (hu : iVirtAlloc k = some (u, k₁)) (hv : iVirtAlloc k₁ = some (v, k₂)) :
    Works R t k (modifyTask k₂ t fun s => setStacks s u v) ∧ TaskOk (setStacks (k₂.tasks t) u v) := by
  obtain ⟨g, hg, rfl, hlt, hfresh, hgn, htr, hgc⟩ := iVirtAlloc_page h hr hu
  have hcr3 : k₁.cr3 = k.cr3 := SameTasks.cr3_eq hfresh.same
  have hw₁ : Works R t k k₁ := works_fresh h hfresh
  obtain ⟨g', hg', rfl, hlt', hfresh', hgn', htr', hgc'⟩ :=
    iVirtAlloc_page hw₁.evolves.sound (hcr3.symm ▸ hr) hv
  have hcr3' : k₂.cr3 = k₁.cr3 := SameTasks.cr3_eq hfresh'.same
  have hw₂ : Works R t k k₂ := hw₁.trans (works_fresh hw₁.evolves.sound hfresh') hr
  have hstacks : TaskOk (setStacks (k₂.tasks t) (window g) (window g')) :=
    setStacks_ok (window_aligned hlt) (window_aligned hlt')
  have hw₃ : Works R t k₂ (modifyTask k₂ t fun s => setStacks s (window g) (window g')) := by
    refine works_modify hw₂.evolves.sound _ rfl rfl (fun _ => hstacks) ?_ ?_
    · exact fun a ha => List.mem_cons_of_mem _ (List.mem_cons_of_mem _ ha)
    · intro a ha
      rw [hcr3', hcr3]
      rcases List.mem_cons.mp ha with rfl | ha
      · exact Or.inr ⟨g', hcr3 ▸ htr', hgc'⟩
      · rcases List.mem_cons.mp ha with rfl | ha
        · exact Or.inr ((hw₁.evolves.sound.evolves_fresh hfresh').data hr ⟨g, htr, hgc⟩)
        · exact Or.inl ha
  exact ⟨hw₂.trans hw₃ hr, hstacks⟩

theorem works_setRsp (h : Sound R k) : Works R t k (modifyTask k t setRsp) :=
  works_modify h _ rfl rfl (fun h => h) (fun _ ha => ha) (fun _ ha => Or.inl ha)

theorem loadImage_spec {image : Image} (h : Sound R k) (hr : k.cr3 ∈ R) (hok : ImageOk image)
    (hs : loadImage k t image = some k') : Works R t k k' ∧ TaskOk (k'.tasks t) := by
  simp only [loadImage, bind, Option.bind_eq_some_iff] at hs
  obtain ⟨⟨u, k₁⟩, hu, ⟨v, k₂⟩, hv, k₃, hmap, hs⟩ := hs
  obtain ⟨hw, hstacks⟩ := works_setStacks (t := t) h hr hu hv
  have hr₂ : (modifyTask k₂ t fun s => setStacks s u v).cr3 ∈ R := hw.cr3.symm ▸ hr
  rw [mapExeFormat, Option.map_eq_some_iff] at hmap
  obtain ⟨⟨k₄, j⟩, hmap, rfl⟩ := hmap
  have hw₄ : Works R t _ k₄ := mapSegments_spec image.segments hw.evolves.sound hr₂ hok.1
    (by rw [VMA_SEGMENT_START, VMA_DEF_COUNT]; exact Nat.add_le_add_left hok.2 3) hmap
  rw [Option.some.injEq] at hs
  subst hs
  have hw₅ : Works R t k₄ (modifyTask k₄ t setRsp) := works_setRsp hw₄.evolves.sound
  refine ⟨hw.trans (hw₄.trans hw₅ hr₂) hr, hw₅.ok (hw₄.ok ?_)⟩
  rw [modifyTask_self]
  exact hstacks

theorem kexecvpe_spec {c : ExecCall} (h : Sound R k) (hr : k.cr3 ∈ R)
    (hok : ∀ image, c.image = some image → ImageOk image) (hs : kexecvpe k t c = some k') :
    Works R t k k' ∧ (c.image.isSome → TaskOk (k'.tasks t)) := by
  simp only [kexecvpe, bind, Option.bind_eq_some_iff] at hs
  obtain ⟨k₁, hcopy, hs⟩ := hs
  have hw := (copyStrings_spec c.sizes h hr hcopy).toWorks
  cases himage : c.image with
  | none =>
    rw [himage] at hs
    exact ⟨Option.some.inj hs ▸ hw, fun hc => absurd hc (by simp)⟩
  | some image =>
    rw [himage] at hs
    obtain ⟨hw', htask⟩ := loadImage_spec hw.evolves.sound (hw.cr3.symm ▸ hr) (hok image himage) hs
    exact ⟨hw.trans hw' hr, fun _ => htask⟩

end LoadImage
