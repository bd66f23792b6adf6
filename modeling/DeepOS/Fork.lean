import DeepOS.TaskPages

/-!
# Forking

The child starts with a clone of the parent's tables, which leads every page to
the parent's frame. The copy loop then gives the child a frame of its own for
each page of the areas in the first ten `vma` slots, with the parent's bytes.
All other pages stay shared.
-/
namespace Fork

open PhyMem TaskTable PageTable PageMap VirtAlloc Clone Process AddressSpace TaskPages
open RadixForest (put)

def pagesIn (first stop : Word) : Set Nat := fun n => ∃ x : Word, first ≤ x ∧ x < stop ∧ vpn x = n

def covers (area : Vma) : Set Nat :=
  fun n => area.startAddr ≠ 0 ∧ n ∈ pagesIn area.startAddr area.endAddr

def coveredBy (s : TaskMem) (slots : List Nat) : Set Nat :=
  fun n => ∃ i ∈ slots, n ∈ covers (s.vma i)

theorem coveredBy_nil (s : TaskMem) : coveredBy s [] = ∅ := by
  ext n
  exact ⟨fun ⟨_, hm, _⟩ => absurd hm List.not_mem_nil, fun hm => hm.elim⟩

theorem coveredBy_snoc (s : TaskMem) (slots : List Nat) (i : Nat) :
    coveredBy s (slots ++ [i]) = coveredBy s slots ∪ covers (s.vma i) := by
  ext n
  constructor
  · rintro ⟨j, hj, hm⟩
    rw [List.mem_append, List.mem_singleton] at hj
    rcases hj with hj | rfl
    · exact Or.inl ⟨j, hj, hm⟩
    · exact Or.inr hm
  · rintro (⟨j, hj, hm⟩ | hm)
    · exact ⟨j, List.mem_append_left _ hj, hm⟩
    · exact ⟨i, by simp, hm⟩

/-- One of the first ten slots lists the page of `a`. -/
def Covered (s : TaskMem) (a : Word) : Prop := vpn a ∈ coveredBy s (List.range VMA_SCANNED)

/-! ## One page -/

/-- The child's page of `v` now leads to a copy of the frame `f`. -/
structure CopiesPage (R : Set Nat) (dst f : Nat) (v : Word) (k k' : Kernel) : Prop where
  evolves : Evolves R R k k'
  quiet : Quiet R k k'
  same : SameTasks k k'
  walks : ∀ r ∈ R, r ≠ dst → ∀ a, walk k' r a = walk k r a
  rest : ∀ a, vpn a ≠ vpn v → walk k' dst a = walk k dst a
  copy : ∃ g ∈ freeFrames k.memMap, translate k' dst v = some g ∧ g ∉ core R k' ∧ k'.mem g = k.mem f

/-- Before the copy: the frame `g` is taken, and the child's page of `v` leads to it. The
parent reads `f` at `v`, and `g` through the window. -/
structure ReadyToCopy (R : Set Nat) (dst f g : Nat) (v : Word) (k k' : Kernel) : Prop where
  taken : g ∈ freeFrames k.memMap
  below : g < WINDOW_FRAMES
  evolves : Evolves R R k k'
  quiet : Quiet R k k'
  same : SameTasks k k'
  walks : ∀ r ∈ R, r ≠ dst → ∀ a, walk k' r a = walk k r a
  rest : ∀ a, vpn a ≠ vpn v → walk k' dst a = walk k dst a
  page : translate k' dst v = some g
  outside : g ∉ core R k'
  source : translate k' k'.cr3 v = some f
  target : translate k' k'.cr3 (window g) = some g

section

variable {R : Set Nat} {k k₁ k' : Kernel} {child : Slot} {v p : Word} {dst f : Nat}

theorem readyToCopy (h : Sound R k) (hr : k.cr3 ∈ R) (hdst : dst ∈ R) (hne : k.cr3 ≠ dst)
    (hroot : frameAt (k.tasks child).pml4e = dst) (hf : translate k k.cr3 v = some f)
    (hfc : f ∉ core R k) (halloc : iVirtAlloc k = some (p, k₁))
    (hmap : mapProcessSpecific k₁ v (iVirtToPhy p) (k₁.tasks child).pml4e (some child) = some k') :
    ∃ g, p = window g ∧ ReadyToCopy R dst f g v k k' := by
  obtain ⟨g, hg, rfl, hlt, hfresh, hgn, htr, -⟩ := iVirtAlloc_page h hr halloc
  have h₁ := (h.evolves_fresh hfresh).sound
  have hphy : iVirtToPhy (window g) = frameAddr g := by
    rw [iVirtToPhy, window, iPhyToVirt, BitVec.add_sub_cancel]
  have hroot₁ : frameAt (k₁.tasks child).pml4e = dst := by rw [hfresh.same.tasks]; exact hroot
  rw [hphy] at hmap
  obtain ⟨taken, hmaps, -⟩ :=
    mapProcessSpecific_spec h₁.inv (by rw [hroot₁]; exact hdst) (h₁.lowFor _) hmap
  rw [hroot₁] at hmaps
  have hoff : ∀ f' ∈ core R k₁, vpn v ≠ vpn (window f') :=
    fun f' hf' => h₁.off_window hr ((h.evolves_fresh hfresh).data hr ⟨f, hf, hfc⟩) hf'
  obtain ⟨hev, hq, hmapped, hgc⟩ := h.evolves_map hfresh hdst hg hgn hoff hmaps
  have hwalk : ∀ r ∈ R, r ≠ dst → ∀ a, walk k' r a = walk k r a := by
    intro r hrR hrd a
    rw [hmaps.walks r hrR, if_neg (fun hc => hrd hc.1), hfresh.walk_eq h.inv hrR]
  have hsame : SameTasks k k' := hfresh.same.trans hmaps.same
  have hcr3 : k'.cr3 = k.cr3 := SameTasks.cr3_eq hsame
  refine ⟨g, rfl, hg, hlt, hev, hq, hsame, hwalk, ?_, hmapped, hgc, ?_, ?_⟩
  · intro a ha
    rw [hmaps.walks dst hdst, if_neg (fun hc => ha hc.2), hfresh.walk_eq h.inv hdst]
  · rw [hcr3, translate_congr (hwalk _ hr hne v)]
    exact hf
  · rw [hcr3, translate_congr (hwalk _ hr hne _), ← translate_congr (hfresh.walk_eq h.inv hr _)]
    exact htr

theorem copyPage_spec (h : Sound R k) (hr : k.cr3 ∈ R) (hdst : dst ∈ R) (hne : k.cr3 ≠ dst)
    (hroot : frameAt (k.tasks child).pml4e = dst) (hf : translate k k.cr3 v = some f)
    (hfc : f ∉ core R k) (hs : copyPage child k v = some k') : CopiesPage R dst f v k k' := by
  simp only [copyPage, bind, Option.bind_eq_some_iff] at hs
  obtain ⟨⟨p, k₁⟩, halloc, k₂, hmap, hcopy⟩ := hs
  obtain ⟨g, rfl, hready⟩ := readyToCopy h hr hdst hne hroot hf hfc halloc hmap
  have hgc₂ := hready.outside
  -- the copy reads the parent's frame and writes the new one
  simp only [memcpyPage, bind, Option.bind_eq_some_iff, Option.some.injEq] at hcopy
  obtain ⟨g', hg', f', hf', rfl⟩ := hcopy
  have haccess : ∀ {x : Word} {n m : Nat}, access k₂ x = some n → translate k₂ k₂.cr3 x = some m →
      n = m := by
    intro x n m hn hm
    rw [access] at hn
    split at hn
    · exact Option.some.inj (hn.symm.trans hm)
    · cases hn
  obtain rfl := haccess hg' hready.target
  obtain rfl := haccess hf' hready.source
  have hout : ∀ x, x ≠ g' → Function.update k₂.mem g' (k₂.mem f') x = k₂.mem x :=
    fun x hx => Function.update_of_ne hx _ _
  have hev₃ : Evolves R R k₂ { k₂ with mem := Function.update k₂.mem g' (k₂.mem f') } :=
    hready.evolves.sound.evolves_outside (fun x hx => hout x (fun he => hgc₂ (he ▸ hx))) rfl
  have hwalk₃ : ∀ r ∈ R, ∀ a,
      walk { k₂ with mem := Function.update k₂.mem g' (k₂.mem f') } r a = walk k₂ r a := by
    intro r hrR a
    exact RadixForest.leaf_outside (fun x hx => hout x (fun he => hgc₂ (he ▸ Or.inr hx))) hrR
      (pathOf_length a).le _
  refine ⟨hready.evolves.trans hev₃, ?_, hready.same.trans ⟨rfl, rfl, rfl⟩, ?_, ?_, g', hready.taken, ?_, ?_, ?_⟩
  · intro x hx
    exact (hout x (fun he => hx (he ▸ Or.inl hready.taken))).trans (hready.quiet x hx)
  · intro r hrR hrd a
    rw [hwalk₃ r hrR, hready.walks r hrR hrd]
  · intro a ha
    rw [hwalk₃ dst hdst, hready.rest a ha]
  · rw [translate_congr (hwalk₃ dst hdst v)]
    exact hready.page
  · exact fun hm => hgc₂ (hev₃.core hm)
  · exact (Function.update_self ..).trans (hready.quiet f' hfc)

end

/-! ## The copy loop -/

/-- The loop has given the child, whose tables were those of `k₀`, copies of the
pages `S` of the tree at `r`. -/
structure Copying (R : Set Nat) (r dst : Nat) (child : Slot) (k₀ k : Kernel) (S : Set Nat) : Prop where
  evolves : Evolves R R k₀ k
  quiet : Quiet R k₀ k
  others : ∀ s, s ≠ child → k.tasks s = k₀.tasks s
  child : k.tasks child = { k₀.tasks child with vma := (k.tasks child).vma }
  currentTask : k.currentTask = k₀.currentTask
  curPml4eVirt : k.curPml4eVirt = k₀.curPml4eVirt
  walks : ∀ r ∈ R, r ≠ dst → ∀ a, walk k r a = walk k₀ r a
  rest : ∀ a, vpn a ∉ S → walk k dst a = walk k₀ dst a
  copied : ∀ a f, vpn a ∈ S → translate k₀ r a = some f → f ∉ core R k₀ →
    ∃ g ∈ freeFrames k₀.memMap, translate k dst a = some g ∧ g ∉ core R k ∧ k.mem g = k₀.mem f

section

variable {R : Set Nat} {dst : Nat} {child : Slot} {k₀ k k' : Kernel} {S : Set Nat}

theorem copying_refl (h : Sound R k₀) : Copying R k₀.cr3 dst child k₀ k₀ ∅ where
  evolves := h.evolves_same rfl rfl
  quiet := fun _ _ => rfl
  others := fun _ _ => rfl
  child := rfl
  currentTask := rfl
  curPml4eVirt := rfl
  walks := fun _ _ _ _ => rfl
  rest := fun _ _ => rfl
  copied := fun _ _ hm => hm.elim

theorem Copying.setVma (h : Copying R k₀.cr3 dst child k₀ k S) (vma : Nat → Vma) :
    Copying R k₀.cr3 dst child k₀ (modifyTask k child fun s => { s with vma := vma }) S where
  evolves := h.evolves.trans (evolves_modify h.evolves.sound _ _)
  quiet := h.quiet
  others := fun s hs => (modifyTask_of_ne k hs _).trans (h.others s hs)
  child := by rw [modifyTask_self, h.child]
  currentTask := h.currentTask
  curPml4eVirt := h.curPml4eVirt
  walks := h.walks
  rest := h.rest
  copied := h.copied

variable (hr : k₀.cr3 ∈ R) (hdst : dst ∈ R) (hne : k₀.cr3 ≠ dst)
  (hroot : frameAt (k₀.tasks child).pml4e = dst)

include hr hdst hne hroot

theorem Copying.step {v : Word} (h : Copying R k₀.cr3 dst child k₀ k S) (hd : Data R k₀ k₀.cr3 v)
    (hs : copyPage child k v = some k') :
    Copying R k₀.cr3 dst child k₀ k' (insert (vpn v) S) ∧ k'.tasks = k.tasks := by
  have hcr3 : k.cr3 = k₀.cr3 := by rw [Kernel.cr3, Kernel.cr3, h.curPml4eVirt]
  obtain ⟨f, hf, hfc₀⟩ := hd
  have hf' : translate k k.cr3 v = some f := by
    rw [hcr3, translate_congr (h.walks _ hr hne v)]
    exact hf
  have hc := copyPage_spec h.evolves.sound (hcr3.symm ▸ hr) hdst (hcr3.symm ▸ hne)
    (by rw [h.child]; exact hroot) hf' (fun hm => hfc₀ (h.evolves.core hm)) hs
  have htasks := hc.same.tasks
  refine ⟨⟨h.evolves.trans hc.evolves, h.quiet.trans hc.quiet h.evolves.core, ?_, ?_, ?_, ?_, ?_, ?_, ?_⟩,
    htasks⟩
  · intro s hs
    rw [htasks]
    exact h.others s hs
  · rw [htasks]
    exact h.child
  · exact hc.same.currentTask.trans h.currentTask
  · exact hc.same.curPml4eVirt.trans h.curPml4eVirt
  · intro r hrR hrd a
    rw [hc.walks r hrR hrd, h.walks r hrR hrd]
  · intro a ha
    rw [hc.rest a (fun he => ha (Or.inl he)), h.rest a (fun hm => ha (Or.inr hm))]
  · intro a f' ha hfa hfc
    by_cases hv : vpn a = vpn v
    · obtain ⟨g, hg, hgv, hgc, hmem⟩ := hc.copy
      rw [translate_page hv, hf, Option.some.injEq] at hfa
      subst hfa
      refine ⟨g, h.evolves.free hg, ?_, hgc, hmem.trans (h.quiet f hfc)⟩
      rw [translate_page hv]
      exact hgv
    · have hS : vpn a ∈ S := by
        rcases ha with he | hm
        · exact absurd he hv
        · exact hm
      obtain ⟨g, hg, hga, hgc, hmem⟩ := h.copied a f' hS hfa hfc
      refine ⟨g, hg, ?_, fun hm => hgc (hc.evolves.core hm), (hc.quiet g hgc).trans hmem⟩
      rw [translate_congr (hc.rest a hv)]
      exact hga

end

/-- An area that reaches into the last page of memory is never copied to its end. -/
theorem copyPages_wraps {child : Slot} {stop : Word} (hstop : 2 ^ 64 - 4096 < stop.toNat) (fuel : Nat) :
    ∀ {cur : Word} {k : Kernel}, cur.toNat % 4096 = 0 → copyPages child stop fuel cur k = none := by
  induction fuel with
  | zero => exact fun _ => rfl
  | succ fuel ih =>
    intro cur k hcur
    have hlt : cur < stop := by
      rw [BitVec.lt_def]
      have := cur.isLt
      omega
    have hnext : (cur + 4096).toNat % 4096 = 0 := by
      rw [BitVec.toNat_add, show (4096 : Word).toNat = 4096 from rfl]
      omega
    rw [copyPages, if_pos hlt]
    cases copyPage child k cur with
    | none => rfl
    | some k₁ => exact ih hnext

/-- The pages from an address on are its own page and those from the next one on. -/
theorem pagesIn_step {cur stop : Word} (hcur : cur.toNat % 4096 = 0) (hlt : cur < stop)
    (hstop : stop.toNat ≤ 2 ^ 64 - 4096) :
    pagesIn cur stop = insert (vpn cur) (pagesIn (cur + 4096) stop) := by
  rw [BitVec.lt_def] at hlt
  have hnext : (cur + 4096).toNat = cur.toNat + 4096 := by
    rw [BitVec.toNat_add, show (4096 : Word).toNat = 4096 from rfl]
    omega
  ext n
  constructor
  · rintro ⟨x, hx, hx', rfl⟩
    rw [BitVec.le_def] at hx
    by_cases h : x.toNat < cur.toNat + 4096
    · left
      rw [vpn, vpn]
      omega
    · exact Or.inr ⟨x, by rw [BitVec.le_def]; omega, hx', rfl⟩
  · rintro (rfl | ⟨x, hx, hx', rfl⟩)
    · exact ⟨cur, BitVec.le_refl cur, BitVec.lt_def.mpr hlt, rfl⟩
    · rw [BitVec.le_def] at hx
      exact ⟨x, by rw [BitVec.le_def]; omega, hx', rfl⟩

theorem pagesIn_empty {cur stop : Word} (h : ¬ cur < stop) : pagesIn cur stop = ∅ := by
  rw [Set.eq_empty_iff_forall_notMem]
  rintro n ⟨x, hx, hx', -⟩
  rw [BitVec.le_def] at hx
  rw [BitVec.lt_def] at h hx'
  omega

theorem copyPages_spec {R : Set Nat} {dst : Nat} {child : Slot} {k₀ k' : Kernel} {stop : Word}
    (hr : k₀.cr3 ∈ R) (hdst : dst ∈ R) (hne : k₀.cr3 ≠ dst)
    (hroot : frameAt (k₀.tasks child).pml4e = dst) (hstop : stop.toNat ≤ 2 ^ 64 - 4096) (fuel : Nat) :
    ∀ {cur : Word} {k : Kernel} {S : Set Nat}, cur.toNat % 4096 = 0 →
      Copying R k₀.cr3 dst child k₀ k S →
      (∀ x : Word, cur ≤ x → x < stop → Data R k₀ k₀.cr3 x) →
      copyPages child stop fuel cur k = some k' →
      Copying R k₀.cr3 dst child k₀ k' (S ∪ pagesIn cur stop) ∧ k'.tasks = k.tasks := by
  induction fuel with
  | zero => intro cur k S _ _ _ hs; cases hs
  | succ fuel ih =>
    intro cur k S hcur h hd hs
    rw [copyPages] at hs
    by_cases hlt : cur < stop
    · rw [if_pos hlt, Option.bind_eq_some_iff] at hs
      obtain ⟨k₁, h₁, hs⟩ := hs
      have hlt' := BitVec.lt_def.mp hlt
      have hnext : (cur + 4096).toNat = cur.toNat + 4096 := by
        rw [BitVec.toNat_add, show (4096 : Word).toNat = 4096 from rfl]
        omega
      obtain ⟨hc, htasks⟩ := h.step hr hdst hne hroot (hd cur (BitVec.le_refl cur) hlt) h₁
      obtain ⟨hc', htasks'⟩ := ih (by omega) hc
        (fun x hx => hd x (by rw [BitVec.le_def] at hx ⊢; omega)) hs
      refine ⟨?_, htasks'.trans htasks⟩
      rw [pagesIn_step hcur hlt hstop, Set.union_insert, ← Set.insert_union]
      exact hc'
    · rw [if_neg hlt, Option.some.injEq] at hs
      subst hs
      rw [pagesIn_empty hlt, Set.union_empty]
      exact ⟨h, rfl⟩

section

variable {R : Set Nat} {dst : Nat} {parent child : Slot} {k₀ k k' : Kernel}
  (hr : k₀.cr3 ∈ R) (hdst : dst ∈ R) (hne : k₀.cr3 ≠ dst)
  (hroot : frameAt (k₀.tasks child).pml4e = dst) (hpc : parent ≠ child)
  (hok : TaskOk (k₀.tasks parent)) (hd : ∀ a ∈ (k₀.tasks parent).pages, Data R k₀ k₀.cr3 a)

include hr hdst hne hroot hpc hok hd

theorem copyVma_spec {i : Nat} {S : Set Nat} (hi : i < VMA_SCANNED)
    (h : Copying R k₀.cr3 dst child k₀ k S) (hs : copyVma parent child k i = some k') :
    Copying R k₀.cr3 dst child k₀ k' (S ∪ covers ((k₀.tasks parent).vma i)) ∧
      (k'.tasks child).vma = if ((k₀.tasks parent).vma i).startAddr = 0 then (k.tasks child).vma
        else Function.update (k.tasks child).vma i ((k₀.tasks parent).vma i) := by
  have hcovers : covers ((k₀.tasks parent).vma i) =
      if ((k₀.tasks parent).vma i).startAddr = 0 then ∅
      else pagesIn ((k₀.tasks parent).vma i).startAddr ((k₀.tasks parent).vma i).endAddr := by
    ext n
    split
    · rename_i h0
      exact ⟨fun hm => absurd h0 hm.1, fun hm => hm.elim⟩
    · rename_i h0
      exact ⟨fun hm => hm.2, fun hm => ⟨h0, hm⟩⟩
  rw [copyVma, h.others parent hpc] at hs
  rw [hcovers]
  split at hs
  · rename_i h0
    rw [Option.some.injEq] at hs
    subst hs
    rw [if_pos h0, if_pos h0, Set.union_empty]
    exact ⟨h, rfl⟩
  · rename_i h0
    obtain ⟨halign, hcover⟩ := hok i hi h0
    have hstop : ((k₀.tasks parent).vma i).endAddr.toNat ≤ 2 ^ 64 - 4096 := by
      by_contra hlt
      rw [copyPages_wraps (by omega) _ halign] at hs
      cases hs
    have hdata : ∀ x : Word, ((k₀.tasks parent).vma i).startAddr ≤ x →
        x < ((k₀.tasks parent).vma i).endAddr → Data R k₀ k₀.cr3 x := by
      intro x hx hx'
      obtain ⟨a, ha, hv⟩ := hcover x hx hx'
      obtain ⟨f, hf, hfc⟩ := hd a ha
      exact ⟨f, (translate_page hv).symm.trans hf, hfc⟩
    obtain ⟨hc, htasks⟩ := copyPages_spec hr hdst hne hroot hstop _ halign (h.setVma _) hdata hs
    rw [if_neg h0, if_neg h0]
    refine ⟨hc, ?_⟩
    rw [htasks, modifyTask_self]

theorem copyVmas_spec (h : Sound R k₀)
    (hs : Transition.run (copyVma parent child) k₀ (List.range VMA_SCANNED) = some k') :
    Copying R k₀.cr3 dst child k₀ k' (coveredBy (k₀.tasks parent) (List.range VMA_SCANNED)) ∧
    ∀ i ∈ List.range VMA_SCANNED, (k'.tasks child).vma i =
      if ((k₀.tasks parent).vma i).startAddr = 0 then (k₀.tasks child).vma i
      else (k₀.tasks parent).vma i := by
  have hloop := Transition.run_loop (P := fun done k =>
    Copying R k₀.cr3 dst child k₀ k (coveredBy (k₀.tasks parent) done) ∧
    ∀ i, (k.tasks child).vma i =
      if i ∈ done ∧ ((k₀.tasks parent).vma i).startAddr ≠ 0 then (k₀.tasks parent).vma i
      else (k₀.tasks child).vma i) _ ?_ ⟨?_, ?_⟩ hs
  · refine ⟨hloop.1, fun i hi => ?_⟩
    rw [hloop.2 i]
    by_cases h0 : ((k₀.tasks parent).vma i).startAddr = 0
    · rw [if_pos h0, if_neg (fun hc => hc.2 h0)]
    · rw [if_neg h0, if_pos ⟨hi, h0⟩]
  · rintro done i rest k₁ k₂ hrange ⟨hc, hvma⟩ hstep
    have hi : i < VMA_SCANNED :=
      List.mem_range.mp (hrange ▸ List.mem_append_right _ (List.mem_cons_self ..))
    obtain ⟨hc', hvma'⟩ := copyVma_spec hr hdst hne hroot hpc hok hd hi hc hstep
    constructor
    · rw [coveredBy_snoc]
      exact hc'
    · intro j
      rw [hvma']
      by_cases hj : j = i
      · subst hj
        by_cases h0 : ((k₀.tasks parent).vma j).startAddr = 0
        · rw [if_pos h0, hvma j, if_neg (fun hc => hc.2 h0), if_neg (fun hc => hc.2 h0)]
        · rw [if_neg h0, Function.update_self, if_pos ⟨by simp, h0⟩]
      · have hmem : j ∈ done ++ [i] ↔ j ∈ done := by simp [hj]
        simp only [hmem]
        rw [← hvma j]
        split
        · rfl
        · rw [Function.update_of_ne hj]
  · rw [coveredBy_nil]
    exact copying_refl h
  · intro i
    rw [if_neg (fun hc => absurd hc.1 List.not_mem_nil)]

end

/-! ## The whole call -/

/-- What `kfork` by the task `t` does when the child gets slot `c`, whose root is
then added to the roots `R`. -/
structure Forked (R : Set Nat) (t c : Slot) (k k' : Kernel) : Prop where
  free : (k.tasks c).status = .free
  new : frameAt (k'.tasks c).pml4e ∉ R
  evolves : Evolves R (insert (frameAt (k'.tasks c).pml4e) R) k k'
  quiet : Quiet R k k'
  others : ∀ s, s ≠ t → s ≠ c → k'.tasks s = k.tasks s
  status : (k'.tasks t).status = (k.tasks t).status
  pml4e : (k'.tasks t).pml4e = (k.tasks t).pml4e
  currentTask : k'.currentTask = k.currentTask
  curPml4eVirt : k'.curPml4eVirt = k.curPml4eVirt
  ready : (k'.tasks c).status = .ready
  ok : TaskOk (k'.tasks t)
  childOk : TaskOk (k'.tasks c)
  kept : ∀ a ∈ (k.tasks t).pages, a ∈ (k'.tasks t).pages
  pages : (k'.tasks c).pages = (k'.tasks t).pages
  areas : Areas (freeFrames k.memMap) (k.tasks t) (k'.tasks t)
  data : ∀ a ∈ (k'.tasks t).pages,
    Data (insert (frameAt (k'.tasks c).pml4e) R) k' k.cr3 a
  copied : ∀ a ∈ (k'.tasks t).pages, Covered (k'.tasks t) a →
    ∃ f g, translate k' k.cr3 a = some f ∧ translate k' (frameAt (k'.tasks c).pml4e) a = some g ∧
      f ≠ g ∧ f ∉ core (insert (frameAt (k'.tasks c).pml4e) R) k' ∧
      g ∉ core (insert (frameAt (k'.tasks c).pml4e) R) k' ∧ k'.mem g = k'.mem f
  shared : ∀ a, ¬ Covered (k'.tasks t) a →
    translate k' (frameAt (k'.tasks c).pml4e) a = translate k' k.cr3 a

/-- The tables of the child right after the clone. -/
theorem cloneTables_spec {R : Set Nat} {t c : Slot} {k k' : Kernel} (h : Sound R k) (hr : k.cr3 ∈ R)
    (hroot : frameAt (k.tasks t).pml4e = k.cr3) (hs : cloneTables k t c = some k') :
    ∃ ptr, Evolves R (insert (frameAt ptr) R) k k' ∧ frameAt ptr ∉ R ∧ Quiet R k k' ∧
      k'.tasks = Function.update k.tasks c { k.tasks c with pml4e := ptr } ∧
      k'.currentTask = k.currentTask ∧ k'.curPml4eVirt = k.curPml4eVirt ∧
      (∀ a, walk k' k.cr3 a = walk k k.cr3 a) ∧ ∀ a, walk k' (frameAt ptr) a = walk k k.cr3 a := by
  rw [cloneTables, Option.map_eq_some_iff] at hs
  obtain ⟨⟨ptr, k₁⟩, hclone, rfl⟩ := hs
  have hinv := AddressSpace.MemInv.mono h.inv (Set.singleton_subset_iff.mpr hr)
  rw [← hroot] at hinv
  obtain ⟨T, hc⟩ := clones 3 (h.ready hr) (CloneLaw.MemInv.treeIn hinv) hinv.used (h.lowFor _) hclone
  rw [hroot] at hc
  obtain ⟨hev, hnew⟩ := h.evolves_clone hr hc
  have hquiet : Quiet R k k₁ := quiet_fresh hc.fresh
  refine ⟨ptr, hev.trans (evolves_modify hev.sound _ _), hnew, hquiet, ?_,
    hc.fresh.same.currentTask, hc.fresh.same.curPml4eVirt, ?_, ?_⟩
  · simp only [modifyTask, hc.fresh.same.tasks]
  · exact fun a => hc.fresh.walk_eq h.inv hr a
  · exact fun a => hc.leaves (pathOf a) (ptIndex a) (pathOf_length a)

theorem kfork_spec {R : Set Nat} {t : Slot} {k k' : Kernel} {env : List (BitVec 32)} {regs : Word}
    (h : Sound R k) (hr : k.cr3 ∈ R) (hroot : frameAt (k.tasks t).pml4e = k.cr3)
    (hlive : Live k t) (hok : TaskOk (k.tasks t)) (hd : ∀ a ∈ (k.tasks t).pages, Data R k k.cr3 a)
    (hidle : ∀ c, ¬ Live k c → ∀ i < VMA_SCANNED, ((k.tasks c).vma i).startAddr = 0)
    (hs : kfork k t env regs = some k') :
    ∃ c, getNextFreeTask k = some c ∧ Forked R t c k k' := by
  simp only [kfork, bind, Option.bind_eq_some_iff] at hs
  obtain ⟨c, hc, k₁, hcopy, k₂, hclone, k₃, hloop, hs⟩ := hs
  rw [Option.some.injEq] at hs
  have hfree : (k.tasks c).status = .free := by simpa using List.find?_some hc
  have htc : t ≠ c := by rintro rfl; exact hlive hfree
  have hcall := copyStrings_spec env h hr hcopy
  have hcr3₁ : k₁.cr3 = k.cr3 := hcall.cr3
  obtain ⟨ptr, hev, hnew, hq, htasks, hcur, hvirt, hwsrc, hwdst⟩ :=
    cloneTables_spec hcall.evolves.sound (hcr3₁.symm ▸ hr)
      (by rw [hcall.pml4e, hroot, hcr3₁]) hclone
  have hcr3₂ : k₂.cr3 = k.cr3 := by rw [← hcr3₁, Kernel.cr3, Kernel.cr3, hvirt]
  have hparent₂ : k₂.tasks t = k₁.tasks t := by rw [htasks, Function.update_of_ne htc]
  have hchild₂ : k₂.tasks c = { k₁.tasks c with pml4e := ptr } := by rw [htasks, Function.update_self]
  have hrR : k.cr3 ∈ insert (frameAt ptr) R := Or.inr hr
  have hne : k.cr3 ≠ frameAt ptr := by rintro he; exact hnew (he ▸ hr)
  have hd₂ : ∀ a ∈ (k₂.tasks t).pages, Data (insert (frameAt ptr) R) k₂ k.cr3 a := by
    intro a ha
    rw [hparent₂] at ha
    refine hev.data hr ?_
    rcases hcall.gained a ha with ha | hda
    · exact hcall.evolves.data hr (hd a ha)
    · exact hda
  have hok₁ : TaskOk (k₁.tasks t) := hcall.ok hok
  obtain ⟨hcp, hvma⟩ := copyVmas_spec (hcr3₂.symm ▸ hrR) (Or.inl rfl : frameAt ptr ∈ insert (frameAt ptr) R)
    (hcr3₂.symm ▸ hne) (by rw [hchild₂]) htc (hparent₂.symm ▸ hok₁) (hcr3₂.symm ▸ hd₂) hev.sound hloop
  rw [hcr3₂] at hcp
  have hparent₃ : k₃.tasks t = k₁.tasks t := (hcp.others t htc).trans hparent₂
  have hchild₃ : (k₃.tasks c).pml4e = ptr := by rw [hcp.child, hchild₂]
  have htranslate : ∀ a, translate k₃ k.cr3 a = translate k₂ k.cr3 a :=
    fun a => translate_congr (hcp.walks _ hrR hne a)
  have hev' : Evolves R (insert (frameAt ptr) R) k k' := by
    rw [← hs]
    exact hcall.evolves.trans (hev.trans (hcp.evolves.trans (evolves_modify hcp.evolves.sound _ _)))
  have hpt : k'.tasks t = k₁.tasks t := by rw [← hs, modifyTask_of_ne _ htc, hparent₃]
  have hchild : k'.tasks c = becomeChild (k₁.tasks t) regs (k₃.tasks c) := by
    rw [← hs, modifyTask_self, hparent₃]
  have hroot' : (k'.tasks c).pml4e = ptr := by rw [hchild]; exact hchild₃
  have hmem : k'.mem = k₃.mem := by rw [← hs]; rfl
  have hmap : k'.memMap = k₃.memMap := by rw [← hs]; rfl
  have hwalk' : ∀ r a, translate k' r a = translate k₃ r a := by
    intro r a
    rw [PageTable.translate, PageTable.translate, walk, walk, hmem]
  have hcore' : core (insert (frameAt ptr) R) k' = core (insert (frameAt ptr) R) k₃ := by
    rw [core, core, hmem, hmap]
  refine ⟨c, hc, ⟨hfree, ?_, ?_, ?_, ?_, ?_, ?_, ?_, ?_, ?_, ?_, ?_, ?_, ?_, ?_, ?_, ?_, ?_⟩⟩
  · rw [hroot']; exact hnew
  · rw [hroot']; exact hev'
  · intro f hf
    rw [hmem]
    exact (hcall.quiet.trans (hq.trans hcp.quiet hev.core) hcall.evolves.core) f hf
  · intro s hst hsc
    rw [← hs, modifyTask_of_ne _ hsc, hcp.others s hsc, htasks, Function.update_of_ne hsc,
      hcall.others s hst]
  · rw [hpt]; exact hcall.status
  · rw [hpt]; exact hcall.pml4e
  · rw [← hs]
    exact hcp.currentTask.trans (hcur.trans hcall.currentTask)
  · rw [← hs]
    exact hcp.curPml4eVirt.trans (hvirt.trans hcall.curPml4eVirt)
  · rw [hchild]; rfl
  · rw [hpt]; exact hok₁
  · -- every slot of the child is a slot of the parent or not in use
    intro i hi
    rw [hchild]
    simp only [becomeChild]
    rw [hvma i (List.mem_range.mpr hi), hparent₂]
    split
    · intro hstart
      rw [hchild₂, hcall.others c htc.symm] at hstart
      exact absurd (hidle c (by rw [Live, hfree]; simp) i hi) hstart
    · exact hok₁ i hi
  · rw [hpt]; exact hcall.kept
  · rw [hpt, hchild]; rfl
  · rw [hpt]; exact hcall.areas
  · intro a ha
    rw [hpt, ← hparent₂] at ha
    obtain ⟨f, hf, hfc⟩ := hd₂ a ha
    rw [hroot']
    exact ⟨f, (hwalk' _ a).trans ((htranslate a).trans hf),
      fun hm => hfc (hcp.evolves.core (hcore' ▸ hm))⟩
  · intro a ha hcov
    rw [hpt, ← hparent₂] at ha hcov
    obtain ⟨f, hf, hfc⟩ := hd₂ a ha
    obtain ⟨g, hg, hga, hgc, hgm⟩ := hcp.copied a f hcov hf hfc
    rw [hroot']
    refine ⟨f, g, (hwalk' _ a).trans ((htranslate a).trans hf), (hwalk' _ a).trans hga, ?_,
      fun hm => hfc (hcp.evolves.core (hcore' ▸ hm)), hcore'.symm ▸ hgc, ?_⟩
    · rintro rfl
      exact hfc (Or.inl hg)
    · rw [hmem, hgm, hcp.quiet f hfc]
  · intro a hcov
    rw [hpt, ← hparent₂] at hcov
    rw [hroot', hwalk', hwalk', htranslate, translate_congr (hcp.rest a hcov)]
    rw [hcr3₁] at hwsrc hwdst
    exact translate_congr ((hwdst a).trans (hwsrc a).symm)

end Fork
