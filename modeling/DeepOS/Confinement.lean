import DeepOS.ForkLaw

/-!
# What the other tasks leave alone

A call works in the tables of the task that runs: every other tree keeps its walks, and a
page the task gets lies on a frame that was free. So a task that does not run finds in a
page what it left there, unless another task has a page on the same frame.
-/
namespace Confinement

open PhyMem TaskTable PageTable PageMap VirtAlloc Clone AddressSpace TaskPages LoadImage Fork Boot BootRun ForkLaw
open Process hiding Op step
open KernelInvariant hiding Meets
open ExecMemory (Op step Meets kexecvpe_front step_fork kinv_step kinv_run)
open BootTables (StartOk boot_kinv)

variable {R : Set Nat} {t c w : Slot} {k₀ k k' : Kernel} {a v : Word} {f : Nat}

/-! ## Calls of the running task -/

structure OnFrames (R : Set Nat) (r : Nat) (P : Set Word) (k : Kernel) : Prop where
  data : ∀ a ∈ P, Data R k r a
  distinct : ∀ a ∈ P, ∀ b ∈ P, translate k r a = translate k r b → vpn a = vpn b

theorem OnFrames.of_walks {r : Nat} {P : Set Word} (h : OnFrames R r P k) (hr : r ∈ R)
    (hev : Evolves R R k k') (hw : ∀ a, walk k' r a = walk k r a) : OnFrames R r P k' := by
  refine ⟨fun a ha => hev.data hr (h.data a ha), fun a ha b hb he => h.distinct a ha b hb ?_⟩
  rw [translate_congr (hw a), translate_congr (hw b)] at he
  exact he

theorem OnFrames.ne_free {r g : Nat} {P : Set Word} (h : OnFrames R r P k) (hg : g ∈ freeFrames k.memMap) :
    ∀ b ∈ P, translate k r b ≠ some g := by
  intro b hb he
  obtain ⟨f, hf, hfc⟩ := h.data b hb
  rw [hf, Option.some.injEq] at he
  exact hfc (he ▸ Or.inl hg)

/-- The page of `v` is put on a frame that was free. -/
theorem OnFrames.put {r g : Nat} {P P' : Set Word} (h : OnFrames R r P k) (hr : r ∈ R) (hev : Evolves R R k k')
    (hold : ∀ b, vpn b ≠ vpn v → translate k' r b = translate k r b) (hg : g ∈ freeFrames k.memMap)
    (htr : translate k' r v = some g) (hgc : g ∉ core R k') (hP : ∀ a ∈ P', a ∈ P ∨ vpn a = vpn v) :
    OnFrames R r P' k' := by
  have hpage : ∀ a, vpn a = vpn v → translate k' r a = some g := fun a ha => (translate_page ha).trans htr
  have hother : ∀ b ∈ P', vpn b ≠ vpn v → translate k' r b ≠ some g := by
    intro b hb hne he
    rw [hold b hne] at he
    exact h.ne_free hg b ((hP b hb).resolve_right hne) he
  constructor
  · intro a ha
    rcases hP a ha with ha | hv
    · exact hev.data hr (h.data a ha)
    · exact ⟨g, hpage a hv, hgc⟩
  · intro a ha b hb he
    by_cases hav : vpn a = vpn v
    · by_contra hne
      rw [hpage a hav] at he
      exact hother b hb (fun hbv => hne (hav.trans hbv.symm)) he.symm
    · by_cases hbv : vpn b = vpn v
      · rw [hpage b hbv] at he
        exact absurd he (hother a ha hav)
      · rw [hold a hav, hold b hbv] at he
        exact h.distinct a ((hP a ha).resolve_right hav) b ((hP b hb).resolve_right hbv) he

def pagesOf (k : Kernel) (t : Slot) : Set Word := {a | a ∈ (k.tasks t).pages}

/-- Since `k₀` only the tree in use has changed, and the pages that `t` has got since then
lie on frames that were free, each on one of its own. -/
structure Confined (R : Set Nat) (t : Slot) (k₀ k : Kernel) : Prop where
  evolves : Evolves R R k₀ k
  cr3 : k.cr3 = k₀.cr3
  walks : ∀ r ∈ R, r ≠ k₀.cr3 → ∀ a, walk k r a = walk k₀ r a
  taken : ∀ a ∈ (k.tasks t).pages, a ∈ (k₀.tasks t).pages ∨ Taken R k₀ k k₀.cr3 a
  frames : OnFrames R k₀.cr3 (pagesOf k₀ t) k₀ → OnFrames R k₀.cr3 (pagesOf k t) k

theorem confined_refl (h : Sound R k) : Confined R t k k :=
  ⟨h.evolves_same rfl rfl, rfl, fun _ _ _ _ => rfl, fun _ ha => Or.inl ha, fun h => h⟩

theorem Confined.next (h : Confined R t k₀ k) (hr : k₀.cr3 ∈ R) (hev : Evolves R R k k') (hcr3 : k'.cr3 = k.cr3)
    (hw : ∀ r ∈ R, r ≠ k.cr3 → ∀ a, walk k' r a = walk k r a)
    (hp : ∀ a ∈ (k'.tasks t).pages, a ∈ (k.tasks t).pages ∨ Taken R k₀ k' k₀.cr3 a)
    (hf : OnFrames R k₀.cr3 (pagesOf k t) k → OnFrames R k₀.cr3 (pagesOf k' t) k') :
    Confined R t k₀ k' := by
  refine ⟨h.evolves.trans hev, hcr3.trans h.cr3, ?_, ?_, fun h₀ => hf (h.frames h₀)⟩
  · intro r hrR hne a
    rw [hw r hrR (by rw [h.cr3]; exact hne), h.walks r hrR hne]
  · intro a ha
    rcases hp a ha with ha | ht
    · rcases h.taken a ha with ha | ht
      · exact Or.inl ha
      · exact Or.inr (hev.taken h.evolves.free hr ht)
    · exact Or.inr ht

/-- No tree changes, and the task has the pages it had. -/
theorem Confined.keep (h : Confined R t k₀ k) (hr : k₀.cr3 ∈ R) (hev : Evolves R R k k') (hcr3 : k'.cr3 = k.cr3)
    (hw : ∀ r ∈ R, ∀ a, walk k' r a = walk k r a) (hp : (k'.tasks t).pages = (k.tasks t).pages) :
    Confined R t k₀ k' := by
  refine h.next hr hev hcr3 (fun r hrR _ => hw r hrR) ?_ ?_
  · intro a ha
    rw [hp] at ha
    exact Or.inl ha
  · intro hf
    rw [pagesOf, hp]
    exact hf.of_walks hr hev (hw _ hr)

/-- Memory is not touched, and the task has the pages it had. -/
theorem Confined.same_memory (h : Confined R t k₀ k) (hr : k₀.cr3 ∈ R) (hm : k'.mem = k.mem)
    (hb : k'.memMap = k.memMap) (hcr3 : k'.cr3 = k.cr3) (hp : (k'.tasks t).pages = (k.tasks t).pages) :
    Confined R t k₀ k' := by
  refine h.keep hr (h.evolves.sound.evolves_same hm hb) hcr3 ?_ hp
  intro r _ a
  rw [walk, walk, hm]

theorem Confined.modify (h : Confined R t k₀ k) (hr : k₀.cr3 ∈ R) (s : Slot) (change : TaskMem → TaskMem)
    (hp : (change (k.tasks s)).pages = (k.tasks s).pages) : Confined R t k₀ (modifyTask k s change) := by
  refine h.same_memory hr rfl rfl rfl ?_
  by_cases hs : t = s
  · subst hs
    rw [modifyTask_self, hp]
  · rw [modifyTask_of_ne k hs]

theorem Confined.fresh (h : Confined R t k₀ k) (hr : k₀.cr3 ∈ R) (hf : Fresh k k') : Confined R t k₀ k' := by
  refine h.keep hr (h.evolves.sound.evolves_fresh hf) (SameTasks.cr3_eq hf.same) ?_ (by rw [hf.same.tasks])
  exact fun r hrR a => hf.walk_eq h.evolves.sound.inv hrR a

/-- A page on a frame that was free is noted as obtained. -/
theorem Confined.gain {k₁ : Kernel} {g : Nat} (h : Confined R t k₀ k) (hr : k₀.cr3 ∈ R) (hev : Evolves R R k k₁)
    (hsame : SameTasks k k₁) (hw : ∀ r ∈ R, ∀ a, ¬ (r = k.cr3 ∧ vpn a = vpn v) → walk k₁ r a = walk k r a)
    (hg : g ∈ freeFrames k.memMap) (htr : translate k₁ k.cr3 v = some g) (hgc : g ∉ core R k₁) :
    Confined R t k₀ (gain k₁ t v) := by
  have hpages : ((Process.gain k₁ t v).tasks t).pages = v :: (k.tasks t).pages := by
    rw [Process.gain, modifyTask_self, hsame.tasks]
  have hev₁ : Evolves R R k₁ (Process.gain k₁ t v) := hev.sound.evolves_same rfl rfl
  have hcr3 : (Process.gain k₁ t v).cr3 = k.cr3 := by
    rw [← SameTasks.cr3_eq hsame]
    rfl
  refine h.next hr (hev.trans hev₁) hcr3 (fun r hrR hne a => hw r hrR a (fun hc => hne hc.1)) ?_ ?_
  · intro a ha
    rw [hpages] at ha
    rcases List.mem_cons.mp ha with rfl | ha
    · exact Or.inr ⟨g, h.evolves.free hg, h.cr3 ▸ htr, hgc⟩
    · exact Or.inl ha
  · intro hf
    have hr' : k.cr3 ∈ R := h.cr3 ▸ hr
    rw [← h.cr3] at hf ⊢
    have hold : ∀ b, vpn b ≠ vpn v → translate k₁ k.cr3 b = translate k k.cr3 b :=
      fun b hb => translate_congr (hw _ hr' b (fun hc => hb hc.2))
    have hput : ∀ a ∈ pagesOf (Process.gain k₁ t v) t, a ∈ pagesOf k t ∨ vpn a = vpn v := by
      intro a ha
      rw [pagesOf, hpages] at ha
      rcases List.mem_cons.mp ha with rfl | ha
      · exact Or.inr rfl
      · exact Or.inl ha
    exact (hf.put hr' hev hold hg htr hgc hput).of_walks hr' hev₁ (fun _ => rfl)

theorem Confined.alloc (h : Confined R t k₀ k) (hr : k₀.cr3 ∈ R) (hs : iVirtAlloc k = some (v, k')) :
    Confined R t k₀ k' ∧ Taken R k₀ k' k₀.cr3 v := by
  obtain ⟨g, hg, -, -, hfresh, -, htr, hgc⟩ := iVirtAlloc_page h.evolves.sound (h.cr3 ▸ hr) hs
  rw [h.cr3] at htr
  exact ⟨h.fresh hr hfresh, g, h.evolves.free hg, htr, hgc⟩

/-- A page from the allocator has a frame of its own. -/
theorem alloc_onFrames {P P' : Set Word} (h : Sound R k) (hr : k.cr3 ∈ R) (hs : iVirtAlloc k = some (v, k'))
    (hf : OnFrames R k.cr3 P k) (hP : ∀ a ∈ P', a ∈ P ∨ vpn a = vpn v) : OnFrames R k.cr3 P' k' := by
  obtain ⟨g, hg, -, -, hfresh, -, htr, hgc⟩ := iVirtAlloc_page h hr hs
  exact hf.put hr (h.evolves_fresh hfresh) (fun b _ => translate_congr (hfresh.walk_eq h.inv hr b)) hg htr hgc hP

/-! ### The heap -/

theorem addToVma_mem (k : Kernel) (t : Slot) (first last : Word) : (addToVma k t first last).mem = k.mem := by
  rcases addToVma_cases k t first last with heq | ⟨i, -, -, heq⟩
  · rw [heq]
  · rw [heq]
    rfl

theorem Confined.addToVma (h : Confined R t k₀ k) (hr : k₀.cr3 ∈ R) (first last : Word) :
    Confined R t k₀ (addToVma k t first last) := by
  rcases addToVma_cases k t first last with heq | ⟨i, -, -, heq⟩
  · rw [heq]
    exact h
  · rw [heq]
    exact h.modify hr t _ rfl

theorem Confined.brk (h : Confined R t k₀ k) (hr : k₀.cr3 ∈ R) (hs : brk k t = some (v, k')) :
    Confined R t k₀ k' := by
  rw [Process.brk] at hs
  split at hs
  · obtain ⟨-, rfl⟩ := Prod.mk.inj (Option.some.inj hs)
    exact h
  · rw [Option.map_eq_some_iff] at hs
    obtain ⟨⟨p, k₁⟩, halloc, hres⟩ := hs
    obtain ⟨-, rfl⟩ := Prod.mk.inj hres
    have hcr3 : k.cr3 ∈ R := h.cr3 ▸ hr
    have hsound := h.evolves.sound
    obtain ⟨g, hg, -, -, hfresh, -, htr, hgc⟩ := iVirtAlloc_page hsound hcr3 halloc
    have h₁ := h.gain hr (hsound.evolves_fresh hfresh) hfresh.same (fun r hrR a _ => hfresh.walk_eq hsound.inv hrR a)
      hg htr hgc
    have h₂ := h₁.addToVma hr p (p + 4095)
    obtain ⟨hm, hb, hsame⟩ := charge_spec (Process.addToVma (Process.gain k₁ t p) t p (p + 4095)) (some t)
    exact h₂.same_memory hr hm hb (SameTasks.cr3_eq hsame) (by rw [hsame.tasks])

theorem Confined.kmalloc {size : BitVec 32} (h : Confined R t k₀ k) (hr : k₀.cr3 ∈ R)
    (hs : kmalloc k t size = some (v, k')) : Confined R t k₀ k' := by
  rw [Process.kmalloc, Option.map_eq_some_iff] at hs
  obtain ⟨⟨curPtr, heapEnd, k₁⟩, hpage, hs⟩ := hs
  have h₁ : Confined R t k₀ k₁ := by
    rw [heapPage] at hpage
    split at hpage
    · rw [growHeap, Option.map_eq_some_iff] at hpage
      obtain ⟨⟨p, k₂⟩, hbrk, hres⟩ := hpage
      simp only [Prod.mk.injEq] at hres
      obtain ⟨-, -, rfl⟩ := hres
      exact (h.brk hr hbrk).addToVma hr p (p + 4095)
    · simp only [Option.some.injEq, Prod.mk.injEq] at hpage
      obtain ⟨-, -, rfl⟩ := hpage
      exact h
  simp only at hs
  split at hs
  · obtain ⟨-, rfl⟩ := Prod.mk.inj hs
    exact h₁
  · obtain ⟨-, rfl⟩ := Prod.mk.inj hs
    exact h₁.modify hr t _ rfl

theorem Confined.copyStrings {sizes : List (BitVec 32)} (h : Confined R t k₀ k) (hr : k₀.cr3 ∈ R)
    (hs : copyStrings k t sizes = some k') : Confined R t k₀ k' := by
  refine Transition.run_loop (P := fun _ k' => Confined R t k₀ k') _ ?_ h hs
  intro done size rest k₁ k₂ _ h₁ hstep
  rw [Option.map_eq_some_iff] at hstep
  obtain ⟨⟨v, k₃⟩, hstep, rfl⟩ := hstep
  exact h₁.kmalloc hr hstep

/-! The calls of the heap change no tree at all. -/

theorem brk_walks (h : Sound R k) (hr : k.cr3 ∈ R) (hs : brk k t = some (v, k')) :
    ∀ r ∈ R, ∀ a, walk k' r a = walk k r a := by
  rw [brk] at hs
  split at hs
  · obtain ⟨-, rfl⟩ := Prod.mk.inj (Option.some.inj hs)
    exact fun _ _ _ => rfl
  · rw [Option.map_eq_some_iff] at hs
    obtain ⟨⟨p, k₁⟩, halloc, hres⟩ := hs
    obtain ⟨-, rfl⟩ := Prod.mk.inj hres
    obtain ⟨-, -, -, -, hfresh, -⟩ := iVirtAlloc_page h hr halloc
    obtain ⟨hm, -, -⟩ := charge_spec (addToVma (gain k₁ t p) t p (p + 4095)) (some t)
    intro r hrR a
    rw [walk, hm, addToVma_mem]
    exact hfresh.walk_eq h.inv hrR a

theorem kmalloc_walks {size : BitVec 32} (h : Sound R k) (hr : k.cr3 ∈ R) (hs : kmalloc k t size = some (v, k')) :
    ∀ r ∈ R, ∀ a, walk k' r a = walk k r a := by
  rw [kmalloc, Option.map_eq_some_iff] at hs
  obtain ⟨⟨curPtr, heapEnd, k₁⟩, hpage, hs⟩ := hs
  have h₁ : ∀ r ∈ R, ∀ a, walk k₁ r a = walk k r a := by
    rw [heapPage] at hpage
    split at hpage
    · rw [growHeap, Option.map_eq_some_iff] at hpage
      obtain ⟨⟨p, k₂⟩, hbrk, hres⟩ := hpage
      simp only [Prod.mk.injEq] at hres
      obtain ⟨-, -, rfl⟩ := hres
      intro r hrR a
      rw [walk, addToVma_mem]
      exact brk_walks h hr hbrk r hrR a
    · simp only [Option.some.injEq, Prod.mk.injEq] at hpage
      obtain ⟨-, -, rfl⟩ := hpage
      exact fun _ _ _ => rfl
  simp only at hs
  split at hs
  · obtain ⟨-, rfl⟩ := Prod.mk.inj hs
    exact h₁
  · obtain ⟨-, rfl⟩ := Prod.mk.inj hs
    exact h₁

theorem copyStrings_walks {sizes : List (BitVec 32)} (h : Sound R k) (hr : k.cr3 ∈ R)
    (hs : copyStrings k t sizes = some k') : ∀ r ∈ R, ∀ a, walk k' r a = walk k r a := by
  have hloop := Transition.run_loop (P := fun _ k' => HeapCall R t k k' ∧ ∀ r ∈ R, ∀ a, walk k' r a = walk k r a) _ ?_
    ⟨heapCall_of_vma (works_refl h) rfl, fun _ _ _ => rfl⟩ hs
  · exact hloop.2
  · rintro done size rest k₁ k₂ _ ⟨hcall, hw⟩ hstep
    rw [Option.map_eq_some_iff] at hstep
    obtain ⟨⟨v, k₂⟩, hstep, rfl⟩ := hstep
    have hr₁ : k₁.cr3 ∈ R := hcall.cr3.symm ▸ hr
    have hsound := hcall.evolves.sound
    exact ⟨hcall.trans (kmalloc_spec hsound hr₁ hstep) hr,
      fun r hrR a => (kmalloc_walks hsound hr₁ hstep r hrR a).trans (hw r hrR a)⟩

/-! ### Loading a program -/

theorem Confined.mapPage (h : Confined R t k₀ k) (hr : k₀.cr3 ∈ R) (hoff : OffWindow v)
    (hs : mapPage t k v = some k') : Confined R t k₀ k' := by
  simp only [Process.mapPage, bind, Option.bind_eq_some_iff] at hs
  obtain ⟨⟨p, k₁⟩, halloc, k₂, hmap, hs⟩ := hs
  rw [Option.some.injEq] at hs
  have hsound := h.evolves.sound
  have hcr3 : k.cr3 ∈ R := h.cr3 ▸ hr
  obtain ⟨hev, -, hsame, g, hg, htr, hgc⟩ := allocMap_spec hsound hcr3 hoff halloc hmap
  -- only the page itself changes, and only in the tree in use
  have hwalk : ∀ r ∈ R, ∀ a, ¬ (r = k.cr3 ∧ vpn a = vpn v) → walk k₂ r a = walk k r a := by
    intro r hrR a hne
    obtain ⟨g', hg', rfl, rfl⟩ := pageAlloc_some halloc
    have hsound₁ := (hsound.evolves_fresh (fresh_unset k g')).sound
    obtain ⟨taken, hmaps, -⟩ := mapProcessSpecific_spec hsound₁.inv hcr3 (hsound₁.lowFor _) hmap
    exact (hmaps.walks r hrR a).trans (if_neg hne)
  rw [← hs]
  exact h.gain hr hev hsame hwalk hg htr hgc

theorem Confined.mapPages {vs : List Word} (h : Confined R t k₀ k) (hr : k₀.cr3 ∈ R)
    (hoff : ∀ v ∈ vs, OffWindow v) (hs : Transition.run (Process.mapPage t) k vs = some k') : Confined R t k₀ k' := by
  refine Transition.run_loop (P := fun _ k' => Confined R t k₀ k') _ ?_ h hs
  intro done v rest k₁ k₂ hvs h₁ hstep
  exact h₁.mapPage hr (hoff v (hvs ▸ List.mem_append_right _ (List.mem_cons_self ..))) hstep

/-- A store to a data page changes no tree. -/
theorem store_walks {b : BitVec 8} (hd : Data R k k.cr3 v) (hs : storeByte k v b = some k') :
    ∀ r ∈ R, ∀ a, walk k' r a = walk k r a := by
  obtain ⟨g, hg, -, hout, -⟩ := storeByte_some hs
  obtain ⟨g', hg', hgc⟩ := hd
  obtain rfl : g = g' := Option.some.inj (hg.symm.trans hg')
  intro r hr a
  refine RadixForest.leaf_outside (fun x hx => hout x ?_) hr (pathOf_length a).le _
  rintro rfl
  exact hgc (Or.inr hx)

theorem Confined.store {b : BitVec 8} (h : Confined R t k₀ k) (hr : k₀.cr3 ∈ R) (hd : Data R k k₀.cr3 v)
    (hs : storeByte k v b = some k') : Confined R t k₀ k' := by
  rw [← h.cr3] at hd
  obtain ⟨-, -, -, -, heq⟩ := storeByte_some hs
  refine h.keep hr (evolves_store h.evolves.sound hd hs) (by rw [heq]; rfl) (store_walks hd hs) ?_
  rw [heq]

theorem Confined.copyOnDisk {s : Segment} (h : Confined R t k₀ k) (hr : k₀.cr3 ∈ R) (hl : Linked s)
    (hn : s.pageNeeded ≠ 0) (hd : ∀ a ∈ pagesFrom s.leastStart s.pageNeeded.toNat, Data R k k₀.cr3 a)
    (hs : Transition.run (copyOnDisk s) k (List.range s.sizeInMemory.toNat) = some k') : Confined R t k₀ k' := by
  have hloop := Transition.run_loop (P := fun _ k' => Confined R t k₀ k' ∧
    ∀ a ∈ pagesFrom s.leastStart s.pageNeeded.toNat, Data R k' k₀.cr3 a) _ ?_ ⟨h, hd⟩ hs
  · exact hloop.1
  rintro done i rest k₁ k₂ hrange ⟨h₁, hd₁⟩ hstep
  have hi : i < s.sizeInMemory.toNat :=
    List.mem_range.mp (hrange ▸ List.mem_append_right _ (List.mem_cons_self ..))
  obtain ⟨a, ha, hv⟩ := page_of_byte hl hn hi
  have hdv : Data R k₁ k₀.cr3 (s.vaddr + BitVec.ofNat 64 i) := by
    obtain ⟨g, hg, hgc⟩ := hd₁ a ha
    exact ⟨g, (translate_page hv).trans hg, hgc⟩
  have hev := evolves_store h₁.evolves.sound (h₁.cr3.symm ▸ hdv) hstep
  exact ⟨h₁.store hr hdv hstep, fun a ha => hev.data hr (hd₁ a ha)⟩

theorem Confined.mapSegment {s : Segment} {i j : Nat} (h : Confined R t k₀ k) (hr : k₀.cr3 ∈ R) (hl : Linked s)
    (hs : mapSegment t (k, i) s = some (k', j)) : Confined R t k₀ k' := by
  rw [Process.mapSegment] at hs
  split at hs
  · rename_i hn
    simp only [bind, Option.bind_eq_some_iff] at hs
    obtain ⟨k₂, hmap, k₃, hcopy, hs⟩ := hs
    obtain ⟨rfl, -⟩ := Prod.mk.inj (Option.some.inj hs)
    have h₁ := h.modify hr t (fun task => setVma task i s.leastStart s.maxEnd) (setVma_pages _ _ _ _)
    have hoff : ∀ a ∈ pagesFrom s.leastStart s.pageNeeded.toNat, OffWindow a :=
      fun a ha => offWindow_of_canonical hl hn (copyOnDisk_canonical hcopy) ha
    have hcr3 : (modifyTask k t fun task => setVma task i s.leastStart s.maxEnd).cr3 = k₀.cr3 := h₁.cr3
    obtain ⟨-, htaken, -⟩ := mapPages_spec h₁.evolves.sound (hcr3.symm ▸ hr) hoff hmap
    refine (h₁.mapPages hr hoff hmap).copyOnDisk hr hl hn ?_ hcopy
    intro a ha
    rw [← hcr3]
    exact (htaken a ha).1.data
  · obtain ⟨rfl, -⟩ := Prod.mk.inj (Option.some.inj hs)
    exact h

theorem Confined.loadImage {image : Image} (h : Confined R t k₀ k) (hr : k₀.cr3 ∈ R) (hok : ImageOk image)
    (hs : loadImage k t image = some k') : Confined R t k₀ k' := by
  simp only [Process.loadImage, bind, Option.bind_eq_some_iff] at hs
  obtain ⟨⟨u, k₁⟩, hu, ⟨v, k₂⟩, hv, k₃, hmap, hs⟩ := hs
  have hcr3 : k.cr3 ∈ R := h.cr3 ▸ hr
  obtain ⟨h₁, g, hg, htr, hgc⟩ := h.alloc hr hu
  obtain ⟨h₂, htv⟩ := h₁.alloc hr hv
  obtain ⟨-, -, -, -, hfresh₁, -⟩ := iVirtAlloc_page h.evolves.sound hcr3 hu
  obtain ⟨-, -, -, -, hfresh₂, -⟩ := iVirtAlloc_page h₁.evolves.sound (h₁.cr3 ▸ hr) hv
  have htu := (h₁.evolves.sound.evolves_fresh hfresh₂).taken h₁.evolves.free hr ⟨g, hg, htr, hgc⟩
  have hpages₂ : (k₂.tasks t).pages = (k.tasks t).pages := by rw [hfresh₂.same.tasks, hfresh₁.same.tasks]
  have hpages : ((modifyTask k₂ t fun s => setStacks s u v).tasks t).pages = v :: u :: (k.tasks t).pages := by
    rw [modifyTask_self, setStacks, hpages₂]
  have hev := (h.evolves.sound.evolves_fresh hfresh₁).trans (h₁.evolves.sound.evolves_fresh hfresh₂)
  -- the stacks are entered as two pages that were obtained
  have h₃ : Confined R t k₀ (modifyTask k₂ t fun s => setStacks s u v) := by
    refine h.next hr (hev.trans (hev.sound.evolves_same rfl rfl)) (h₂.cr3.trans h.cr3.symm) ?_ ?_ ?_
    · intro r hrR _ a
      exact (hfresh₂.walk_eq h₁.evolves.sound.inv hrR a).trans (hfresh₁.walk_eq h.evolves.sound.inv hrR a)
    · intro a ha
      rw [hpages] at ha
      rcases List.mem_cons.mp ha with rfl | ha
      · exact Or.inr htv
      · rcases List.mem_cons.mp ha with rfl | ha
        · exact Or.inr htu
        · exact Or.inl ha
    · intro hf
      have hcr3₁ : k₁.cr3 = k.cr3 := h₁.cr3.trans h.cr3.symm
      rw [← h.cr3] at hf ⊢
      have hf₁ : OnFrames R k.cr3 (pagesOf k t ∪ {u}) k₁ := by
        refine alloc_onFrames h.evolves.sound hcr3 hu hf ?_
        rintro a (ha | rfl)
        · exact Or.inl ha
        · exact Or.inr rfl
      rw [← hcr3₁] at hf₁ ⊢
      refine (alloc_onFrames h₁.evolves.sound (hcr3₁ ▸ hcr3) hv hf₁ ?_).of_walks (hcr3₁ ▸ hcr3)
        (h₂.evolves.sound.evolves_same rfl rfl) (fun _ => rfl)
      intro a ha
      rw [pagesOf, hpages] at ha
      rcases List.mem_cons.mp ha with rfl | ha
      · exact Or.inr rfl
      · rcases List.mem_cons.mp ha with rfl | ha
        · exact Or.inl (Or.inr rfl)
        · exact Or.inl (Or.inl ha)
  rw [mapExeFormat, Option.map_eq_some_iff] at hmap
  obtain ⟨⟨k₄, j⟩, hmap, rfl⟩ := hmap
  have h₄ : Confined R t k₀ k₄ := by
    refine Transition.run_loop (P := fun _ r => Confined R t k₀ r.1) _ ?_ h₃ hmap
    rintro done s rest ⟨k₅, i⟩ ⟨k₆, i'⟩ hsegments h₅ hstep
    exact h₅.mapSegment hr (hok.1 s (hsegments ▸ List.mem_append_right _ (List.mem_cons_self ..))) hstep
  rw [Option.some.injEq] at hs
  rw [← hs]
  exact h₄.modify hr t setRsp rfl

theorem Confined.kexecvpe {call : ExecCall} (h : Confined R t k₀ k) (hr : k₀.cr3 ∈ R)
    (hok : ∀ image, call.image = some image → ImageOk image) (hs : kexecvpe k t call = some k') :
    Confined R t k₀ k' := by
  simp only [Process.kexecvpe, bind, Option.bind_eq_some_iff] at hs
  obtain ⟨k₁, hcopy, hs⟩ := hs
  have h₁ := h.copyStrings hr hcopy
  cases himage : call.image with
  | none =>
    rw [himage, Option.some.injEq] at hs
    rw [← hs]
    exact h₁
  | some image =>
    rw [himage] at hs
    exact h₁.loadImage hr (hok image himage) hs

/-! ## Forking -/

def within (S : Set Nat) : Set Word := {a | vpn a ∈ S}

section

variable {dst : Nat} {S : Set Nat} (hr : k₀.cr3 ∈ R) (hdst : dst ∈ R) (hne : k₀.cr3 ≠ dst)
  (hroot : frameAt (k₀.tasks c).pml4e = dst)

include hr hdst hne hroot

/-- The copies that the child gets lie on frames of their own. -/
theorem copyPage_onFrames (h : Copying R k₀.cr3 dst c k₀ k S) (hf : OnFrames R dst (within S) k)
    (hd : Data R k₀ k₀.cr3 v) (hs : copyPage c k v = some k') :
    OnFrames R dst (within (insert (vpn v) S)) k' := by
  have hcr3 : k.cr3 = k₀.cr3 := by rw [Kernel.cr3, Kernel.cr3, h.curPml4eVirt]
  obtain ⟨f, hfv, hfc⟩ := hd
  rw [← translate_congr (h.walks _ hr hne v), ← hcr3] at hfv
  have hcopy := copyPage_spec h.evolves.sound (hcr3.symm ▸ hr) hdst (hcr3.symm ▸ hne) (by rw [h.child]; exact hroot)
    hfv (fun hm => hfc (h.evolves.core hm)) hs
  obtain ⟨g, hg, htr, hgc, -⟩ := hcopy.copy
  refine hf.put hdst hcopy.evolves (fun b hb => translate_congr (hcopy.rest b hb)) hg htr hgc ?_
  rintro a (ha | ha)
  · exact Or.inr ha
  · exact Or.inl ha

theorem copyPages_onFrames {stop : Word} (hstop : stop.toNat ≤ 2 ^ 64 - 4096) (fuel : Nat) :
    ∀ {cur : Word} {k : Kernel} {S : Set Nat}, cur.toNat % 4096 = 0 → Copying R k₀.cr3 dst c k₀ k S →
      OnFrames R dst (within S) k → (∀ x : Word, cur ≤ x → x < stop → Data R k₀ k₀.cr3 x) →
      copyPages c stop fuel cur k = some k' → OnFrames R dst (within (S ∪ pagesIn cur stop)) k' := by
  induction fuel with
  | zero =>
    intro cur k S _ _ _ _ hs
    cases hs
  | succ fuel ih =>
    intro cur k S hcur h hf hd hs
    rw [copyPages] at hs
    by_cases hlt : cur < stop
    · rw [if_pos hlt, Option.bind_eq_some_iff] at hs
      obtain ⟨k₁, h₁, hs⟩ := hs
      have hlt' := BitVec.lt_def.mp hlt
      have hnext : (cur + 4096).toNat = cur.toNat + 4096 := by
        rw [BitVec.toNat_add, show (4096 : Word).toNat = 4096 from rfl]
        omega
      have hdcur := hd cur (BitVec.le_refl cur) hlt
      obtain ⟨hc, -⟩ := h.step hr hdst hne hroot hdcur h₁
      have hf₁ := copyPage_onFrames hr hdst hne hroot h hf hdcur h₁
      rw [pagesIn_step hcur hlt hstop, Set.union_insert, ← Set.insert_union]
      refine ih (by omega) hc hf₁ (fun x hx hx' => hd x ?_ hx') hs
      rw [BitVec.le_def] at hx ⊢
      omega
    · rw [if_neg hlt, Option.some.injEq] at hs
      subst hs
      rw [pagesIn_empty hlt, Set.union_empty]
      exact hf

variable (htc : t ≠ c) (hok : TaskOk (k₀.tasks t)) (hd : ∀ a ∈ (k₀.tasks t).pages, Data R k₀ k₀.cr3 a)

include htc hok hd

theorem copyVma_onFrames {i : Nat} (hi : i < VMA_SCANNED) (h : Copying R k₀.cr3 dst c k₀ k S)
    (hf : OnFrames R dst (within S) k) (hs : copyVma t c k i = some k') :
    OnFrames R dst (within (S ∪ covers ((k₀.tasks t).vma i))) k' := by
  rw [copyVma, h.others t htc] at hs
  split at hs
  · rename_i h0
    rw [Option.some.injEq] at hs
    subst hs
    have hnone : covers ((k₀.tasks t).vma i) = ∅ := Set.eq_empty_iff_forall_notMem.mpr fun n hn => hn.1 h0
    rw [hnone, Set.union_empty]
    exact hf
  · rename_i h0
    obtain ⟨halign, hcover⟩ := hok i hi h0
    have hall : covers ((k₀.tasks t).vma i) =
        pagesIn ((k₀.tasks t).vma i).startAddr ((k₀.tasks t).vma i).endAddr := by
      ext n
      exact ⟨fun hn => hn.2, fun hn => ⟨h0, hn⟩⟩
    have hstop : ((k₀.tasks t).vma i).endAddr.toNat ≤ 2 ^ 64 - 4096 := by
      by_contra hlt
      rw [copyPages_wraps (by omega) _ halign] at hs
      cases hs
    have hdata : ∀ x : Word, ((k₀.tasks t).vma i).startAddr ≤ x → x < ((k₀.tasks t).vma i).endAddr →
        Data R k₀ k₀.cr3 x := by
      intro x hx hx'
      obtain ⟨a, ha, hv⟩ := hcover x hx hx'
      obtain ⟨f, hf, hfc⟩ := hd a ha
      exact ⟨f, (translate_page hv).symm.trans hf, hfc⟩
    have hev := evolves_modify h.evolves.sound c fun s => { s with vma := Function.update s.vma i ((k₀.tasks t).vma i) }
    rw [hall]
    exact copyPages_onFrames hr hdst hne hroot hstop _ halign (h.setVma _) (hf.of_walks hdst hev (fun _ => rfl))
      hdata hs

theorem copyVmas_onFrames (h : Sound R k₀)
    (hs : Transition.run (copyVma t c) k₀ (List.range VMA_SCANNED) = some k') :
    OnFrames R dst (within (coveredBy (k₀.tasks t) (List.range VMA_SCANNED))) k' := by
  have hloop := Transition.run_loop (P := fun done k =>
    Copying R k₀.cr3 dst c k₀ k (coveredBy (k₀.tasks t) done) ∧
    OnFrames R dst (within (coveredBy (k₀.tasks t) done)) k) _ ?_ ⟨?_, ?_⟩ hs
  · exact hloop.2
  · rintro done i rest k₁ k₂ hrange ⟨hc, hf⟩ hstep
    have hi : i < VMA_SCANNED :=
      List.mem_range.mp (hrange ▸ List.mem_append_right _ (List.mem_cons_self ..))
    rw [coveredBy_snoc]
    exact ⟨(copyVma_spec hr hdst hne hroot htc hok hd hi hc hstep).1,
      copyVma_onFrames hr hdst hne hroot htc hok hd hi hc hf hstep⟩
  · rw [coveredBy_nil]
    exact copying_refl h
  · rw [coveredBy_nil]
    exact ⟨fun a ha => ha.elim, fun a ha => ha.elim⟩

end

/-- A fork by `t`, whose child gets the slot `c`: the trees there were keep their walks,
what `t` gets lies on frames that were free, and each copy for the child on one of its own. -/
structure ForkConfined (R : Set Nat) (t c : Slot) (env : List (BitVec 32)) (regs : Word) (k k' : Kernel) : Prop where
  walks : ∀ r ∈ R, ∀ a, walk k' r a = walk k r a
  gained : ∀ a ∈ (k'.tasks t).pages, a ∈ (k.tasks t).pages ∨
    ∃ g ∈ freeFrames k.memMap, translate k' k.cr3 a = some g
  frames : OnFrames R k.cr3 (pagesOf k t) k → OnFrames (insert (root k' c) R) k.cr3 (pagesOf k' t) k'
  copied : ∀ a ∈ (k'.tasks t).pages, Covered (k'.tasks t) a →
    ∃ g ∈ freeFrames k.memMap, translate k' (root k' c) a = some g ∧
      ∀ b ∈ (k'.tasks t).pages, translate k' k.cr3 b ≠ some g
  apart : ∀ a ∈ (k'.tasks t).pages, ∀ b ∈ (k'.tasks t).pages, Covered (k'.tasks t) a → Covered (k'.tasks t) b →
    translate k' (root k' c) a = translate k' (root k' c) b → vpn a = vpn b
  parent : ∃ k₁, copyStrings k t env = some k₁ ∧ k'.tasks t = k₁.tasks t
  vma : ∀ i < VMA_SCANNED, ((k'.tasks t).vma i).startAddr ≠ 0 → (k'.tasks c).vma i = (k'.tasks t).vma i
  rsp : (k'.tasks c).rsp = regs
  tssRsp : (k'.tasks c).tssRsp = (k'.tasks t).tssRsp

theorem cloneTables_walks (h : Sound R k) (hr : k.cr3 ∈ R) (hroot : frameAt (k.tasks t).pml4e = k.cr3)
    (hs : cloneTables k t c = some k') : ∀ r ∈ R, ∀ a, walk k' r a = walk k r a := by
  rw [cloneTables, Option.map_eq_some_iff] at hs
  obtain ⟨⟨ptr, k₁⟩, hclone, rfl⟩ := hs
  have hinv := AddressSpace.MemInv.mono h.inv (Set.singleton_subset_iff.mpr hr)
  rw [← hroot] at hinv
  obtain ⟨T, hc⟩ := clones 3 (h.ready hr) (CloneLaw.MemInv.treeIn hinv) hinv.used (h.lowFor _) hclone
  exact fun r hrR a => hc.fresh.walk_eq h.inv hrR a

theorem kfork_confined {env : List (BitVec 32)} {regs : Word} (h : Sound R k) (hr : k.cr3 ∈ R)
    (hroot : frameAt (k.tasks t).pml4e = k.cr3) (hlive : Live k t) (hok : TaskOk (k.tasks t))
    (hd : ∀ a ∈ (k.tasks t).pages, Data R k k.cr3 a) (hc : getNextFreeTask k = some c)
    (hs : kfork k t env regs = some k') : ForkConfined R t c env regs k k' := by
  simp only [kfork, bind, Option.bind_eq_some_iff] at hs
  obtain ⟨c', hc', k₁, hcopy, k₂, hclone, k₃, hloop, hs⟩ := hs
  obtain rfl : c' = c := Option.some.inj (hc'.symm.trans hc)
  rw [Option.some.injEq] at hs
  have hfree : (k.tasks c').status = .free := by simpa using List.find?_some hc
  have htc : t ≠ c' := by
    rintro rfl
    exact hlive hfree
  -- the strings
  have hcall := copyStrings_spec env h hr hcopy
  have hconf := (confined_refl (t := t) h).copyStrings hr hcopy
  have hcr3₁ : k₁.cr3 = k.cr3 := hcall.cr3
  have hroot₁ : frameAt (k₁.tasks t).pml4e = k₁.cr3 := by rw [hcall.pml4e, hroot, hcr3₁]
  -- the clone of the tables
  obtain ⟨ptr, hev, hnew, -, htasks, -, hvirt, -⟩ := cloneTables_spec hcall.evolves.sound (hcr3₁.symm ▸ hr) hroot₁ hclone
  have hwalks₂ := cloneTables_walks hcall.evolves.sound (hcr3₁.symm ▸ hr) hroot₁ hclone
  have hcr3₂ : k₂.cr3 = k.cr3 := by rw [← hcr3₁, Kernel.cr3, Kernel.cr3, hvirt]
  have hparent₂ : k₂.tasks t = k₁.tasks t := by rw [htasks, Function.update_of_ne htc]
  have hchild₂ : (k₂.tasks c').pml4e = ptr := by rw [htasks, Function.update_self]
  have hrR : k.cr3 ∈ insert (frameAt ptr) R := Or.inr hr
  have hne : k.cr3 ≠ frameAt ptr := by
    rintro he
    exact hnew (he ▸ hr)
  have hd₂ : ∀ a ∈ (k₂.tasks t).pages, Data (insert (frameAt ptr) R) k₂ k.cr3 a := by
    intro a ha
    rw [hparent₂] at ha
    refine hev.data hr ?_
    rcases hcall.gained a ha with ha | hda
    · exact hcall.evolves.data hr (hd a ha)
    · exact hda
  -- the copy of the areas
  have hdst : frameAt ptr ∈ insert (frameAt ptr) R := Or.inl rfl
  obtain ⟨hcp, hvma⟩ := copyVmas_spec (hcr3₂.symm ▸ hrR) hdst (hcr3₂.symm ▸ hne) (by rw [hchild₂]) htc
    (hparent₂.symm ▸ hcall.ok hok) (hcr3₂.symm ▸ hd₂) hev.sound hloop
  have hcopies := copyVmas_onFrames (hcr3₂.symm ▸ hrR) hdst (hcr3₂.symm ▸ hne) (by rw [hchild₂]) htc
    (hparent₂.symm ▸ hcall.ok hok) (hcr3₂.symm ▸ hd₂) hev.sound hloop
  rw [hcr3₂] at hcp
  have hparent₃ : k₃.tasks t = k₁.tasks t := (hcp.others t htc).trans hparent₂
  have hpt : k'.tasks t = k₁.tasks t := by rw [← hs, modifyTask_of_ne _ htc, hparent₃]
  have hwalk' : ∀ r a, walk k' r a = walk k₃ r a := by
    intro r a
    rw [← hs]
    rfl
  have hwalk : ∀ r ∈ R, ∀ a, walk k' r a = walk k₁ r a := by
    intro r hrR a
    have hrn : r ≠ frameAt ptr := by
      rintro rfl
      exact hnew hrR
    rw [hwalk', hcp.walks r (Or.inr hrR) hrn, hwalks₂ r hrR]
  have hrootc : root k' c' = frameAt ptr := by
    rw [root, ← hs, modifyTask_self, becomeChild, hcp.child, hchild₂]
  have hchild : k'.tasks c' = becomeChild (k₁.tasks t) regs (k₃.tasks c') := by
    rw [← hs, modifyTask_self, hparent₃]
  refine ⟨?_, ?_, ?_, ?_, ?_, ⟨k₁, hcopy, hpt⟩, ?_, by rw [hchild]; rfl, by rw [hchild, hpt]; rfl⟩
  · intro r hrR a
    rw [hwalk r hrR, copyStrings_walks h hr hcopy r hrR]
  · intro a ha
    rw [hpt] at ha
    rcases hconf.taken a ha with ha | ⟨g, hg, htr, -⟩
    · exact Or.inl ha
    · exact Or.inr ⟨g, hg, (translate_congr (hwalk _ hr a)).trans htr⟩
  · intro h₀
    have hf := hconf.frames h₀
    rw [hrootc, pagesOf, hpt]
    have hend : Evolves (insert (frameAt ptr) R) (insert (frameAt ptr) R) k₃ k' := by
      rw [← hs]
      exact evolves_modify hcp.evolves.sound _ _
    have hev' := hev.trans (hcp.evolves.trans hend)
    refine ⟨fun a ha => hev'.data hr (hf.data a ha), fun a ha b hb he => hf.distinct a ha b hb ?_⟩
    rwa [translate_congr (hwalk _ hr a), translate_congr (hwalk _ hr b)] at he
  · intro a ha hcov
    rw [hpt, ← hparent₂] at ha hcov
    obtain ⟨f, hf, hfc⟩ := hd₂ a ha
    obtain ⟨g, hg, hga, -⟩ := hcp.copied a f hcov hf hfc
    refine ⟨g, hcall.evolves.free (hev.free hg), ?_, ?_⟩
    · rw [hrootc, translate_congr (hwalk' _ a)]
      exact hga
    · intro b hb hgb
      rw [hpt, ← hparent₂] at hb
      obtain ⟨f', hf', hfc'⟩ := hd₂ b hb
      rw [translate_congr ((hwalk' _ b).trans (hcp.walks _ hrR hne b)), hf', Option.some.injEq] at hgb
      exact hfc' (hgb ▸ Or.inl hg)
  · intro a ha b hb hca hcb he
    rw [hpt, ← hparent₂] at hca hcb
    rw [hrootc, translate_congr (hwalk' _ a), translate_congr (hwalk' _ b)] at he
    exact hcopies.distinct a hca b hcb he
  · intro i hi hne
    rw [hpt, ← hparent₂] at hne ⊢
    rw [hchild]
    exact (hvma i (List.mem_range.mpr hi)).trans (if_neg hne)

/-! ## A frame that one task has to itself -/

def Reaches (k : Kernel) (s : Slot) (f : Nat) : Prop :=
  ∃ b ∈ (k.tasks s).pages, translate k (root k s) b = some f

/-- Another live task has a page on the frame that the page of `a` leads `w` to. -/
def Shared (k : Kernel) (w : Slot) (a : Word) : Prop :=
  ∃ f s, translate k (root k w) a = some f ∧ Live k s ∧ s ≠ w ∧ Reaches k s f

structure Alone (k : Kernel) (w : Slot) (a : Word) (f : Nat) : Prop where
  live : Live k w
  page : translate k (root k w) a = some f
  outside : f ∉ core (liveRoots k) k
  others : ∀ s, Live k s → s ≠ w → ¬ Reaches k s f

/-- The task makes no call and no store; it may be switched away from and to. -/
def Waits (w : Slot) (k : Kernel) (op : Op) : Prop := k.currentTask = some w → ∃ s, op = .switch s

section

variable (h : KInv k) (ht : k.currentTask = some t) (hw : t ≠ w) (ha : Alone k w a f)

include h ht hw ha

/-- A call that works on the fields of the running task. -/
theorem Alone.works (hworks : Works (liveRoots k) t k k') (hconf : Confined (liveRoots k) t k k') :
    Alone k' w a f ∧ k'.mem f = k.mem f := by
  obtain ⟨t', ht', hl, hvirt⟩ := h.current
  obtain rfl : t = t' := Option.some.inj (ht.symm.trans ht')
  have hcr3 : k.cr3 = root k t := by rw [Kernel.cr3, hvirt]; rfl
  have hfields := Works.fields hworks
  have hroots : liveRoots k' = liveRoots k := liveRoots_congr hfields
  have hlive : ∀ s, Live k' s ↔ Live k s := fun s => by rw [Live, Live, (hfields s).1]
  have hroot : ∀ s, root k' s = root k s := fun s => by rw [root, root, (hfields s).2]
  have hwalk : ∀ s, Live k s → s ≠ t → ∀ b, translate k' (root k s) b = translate k (root k s) b := by
    intro s hs hst b
    refine translate_congr (hconf.walks _ (mem_liveRoots hs) (fun he => hst ?_) b)
    exact h.distinct s t hs hl (he.trans hcr3)
  refine ⟨⟨(hlive w).mpr ha.live, ?_, ?_, ?_⟩, hworks.quiet f ha.outside⟩
  · rw [hroot, hwalk w ha.live hw.symm]
    exact ha.page
  · rw [hroots]
    exact fun hm => ha.outside (hconf.evolves.core hm)
  · rintro s hs hsw ⟨b, hb, htr⟩
    have hs' := (hlive s).mp hs
    rw [hroot] at htr
    by_cases hst : s = t
    · subst hst
      -- a page of the running task: an old one, or one on a frame that was free
      rcases hconf.taken b hb with hb | ⟨g, hg, hgb, -⟩
      · obtain ⟨f', hf', hfc'⟩ := h.data s hs' b hb
        obtain ⟨g, hg, -, hor⟩ := hconf.evolves.frames _ (mem_liveRoots hs') b f' hf' hfc'
        obtain rfl : g = f := Option.some.inj (hg.symm.trans htr)
        rcases hor with rfl | hfree
        · exact ha.others s hs' hsw ⟨b, hb, hf'⟩
        · exact ha.outside (Or.inl hfree)
      · rw [hcr3] at hgb
        obtain rfl : g = f := Option.some.inj (hgb.symm.trans htr)
        exact ha.outside (Or.inl hg)
    · rw [hwalk s hs' hst] at htr
      rw [hworks.others s hst] at hb
      exact ha.others s hs' hsw ⟨b, hb, htr⟩

theorem Alone.forked {env : List (BitVec 32)} {regs : Word} (hf : Forked (liveRoots k) t c k k')
    (hconf : ForkConfined (liveRoots k) t c env regs k k') :
    Alone k' w a f ∧ k'.mem f = k.mem f := by
  obtain ⟨t', ht', hl, hvirt⟩ := h.current
  obtain rfl : t = t' := Option.some.inj (ht.symm.trans ht')
  have hcr3 : k.cr3 = root k t := by rw [Kernel.cr3, hvirt]; rfl
  have hlive := Forked.live_iff hl hf
  have hroots := Forked.liveRoots_eq hl hf
  have hroot : ∀ s, Live k s → root k' s = root k s := fun s hs => by rw [root, root, Forked.pml4e_eq hl hf hs]
  have hwalk : ∀ s, Live k s → ∀ b, translate k' (root k s) b = translate k (root k s) b :=
    fun s hs b => translate_congr (hconf.walks _ (mem_liveRoots hs) b)
  have hcw : c ≠ w := by
    rintro rfl
    exact ha.live hf.free
  -- what the parent has in the end
  have hparent : ∀ b ∈ (k'.tasks t).pages, translate k' k.cr3 b ≠ some f := by
    intro b hb htr
    rcases hconf.gained b hb with hb | ⟨g, hg, hgb⟩
    · obtain ⟨f', hf', hfc'⟩ := h.data t hl b hb
      obtain ⟨g, hg, -, hor⟩ := hf.evolves.frames _ (mem_liveRoots hl) b f' hf' hfc'
      rw [hcr3, hg, Option.some.injEq] at htr
      subst htr
      rcases hor with rfl | hfree
      · exact ha.others t hl hw ⟨b, hb, hf'⟩
      · exact ha.outside (Or.inl hfree)
    · obtain rfl : g = f := Option.some.inj (hgb.symm.trans htr)
      exact ha.outside (Or.inl hg)
  refine ⟨⟨(hlive w).mpr (Or.inr ha.live), ?_, ?_, ?_⟩, hf.quiet f ha.outside⟩
  · rw [hroot w ha.live, hwalk w ha.live]
    exact ha.page
  · rw [hroots]
    exact fun hm => ha.outside (hf.evolves.core hm)
  · rintro s hs hsw ⟨b, hb, htr⟩
    rcases (hlive s).mp hs with rfl | hs'
    · rw [hf.pages] at hb
      by_cases hcov : Covered (k'.tasks t) b
      · obtain ⟨g, hg, hgb, -⟩ := hconf.copied b hb hcov
        obtain rfl : g = f := Option.some.inj (hgb.symm.trans htr)
        exact ha.outside (Or.inl hg)
      · rw [root, hf.shared b hcov] at htr
        exact hparent b hb htr
    · rw [hroot s hs'] at htr
      by_cases hst : s = t
      · subst hst
        rw [← hcr3] at htr
        exact hparent b hb htr
      · rw [hwalk s hs'] at htr
        rw [hf.others s hst (by rintro rfl; exact hs' hf.free)] at hb
        exact ha.others s hs' hsw ⟨b, hb, htr⟩

/-- A store by another task goes to one of its own frames. -/
theorem Alone.stored {b : BitVec 8} (hm : KernelInvariant.Meets k (.store v b)) (hs : storeByte k v b = some k') :
    Alone k' w a f ∧ k'.mem f = k.mem f := by
  obtain ⟨t', ht', hl, hvirt⟩ := h.current
  obtain rfl : t = t' := Option.some.inj (ht.symm.trans ht')
  obtain ⟨t', ht', p, hp, hv⟩ := hm
  obtain rfl : t = t' := Option.some.inj (ht.symm.trans ht')
  have hcr3 : k.cr3 = root k t := by rw [Kernel.cr3, hvirt]; rfl
  obtain ⟨g, hg, hgc⟩ := h.data t hl p hp
  rw [← hcr3] at hg
  have hd : Data (liveRoots k) k k.cr3 v := ⟨g, (translate_page hv).trans hg, hgc⟩
  obtain ⟨g', hg', -, hout, heq⟩ := storeByte_some hs
  obtain rfl : g = g' := Option.some.inj (hg.symm.trans ((translate_page hv).symm.trans hg'))
  have hgf : f ≠ g := by
    rintro rfl
    exact ha.others t hl hw ⟨p, hp, hcr3 ▸ hg⟩
  have htasks : k'.tasks = k.tasks := by rw [heq]
  have hroots : liveRoots k' = liveRoots k := liveRoots_congr fun s => by rw [htasks]; exact ⟨rfl, rfl⟩
  have hwalk : ∀ s, Live k s → ∀ x, translate k' (root k s) x = translate k (root k s) x :=
    fun s hs' x => translate_congr (store_walks hd hs _ (mem_liveRoots hs') x)
  have hroot : ∀ s, root k' s = root k s := fun s => by rw [root, root, htasks]
  have hlive : ∀ s, Live k' s ↔ Live k s := fun s => by rw [Live, Live, htasks]
  refine ⟨⟨(hlive w).mpr ha.live, ?_, ?_, ?_⟩, hout f hgf⟩
  · rw [hroot, hwalk w ha.live]
    exact ha.page
  · rw [hroots]
    exact fun hmem => ha.outside ((evolves_store h.sound hd hs).core hmem)
  · rintro s hs' hsw ⟨x, hx, htr⟩
    have hs' := (hlive s).mp hs'
    rw [htasks] at hx
    rw [hroot, hwalk s hs'] at htr
    exact ha.others s hs' hsw ⟨x, hx, htr⟩

end

/-- A fork by the running task, and what it confines itself to. -/
theorem fork_confined {env : List (BitVec 32)} {regs : Word} (h : KInv k)
    (hs : Process.step k (.fork env regs) = some k') :
    ∃ t c, k.currentTask = some t ∧ getNextFreeTask k = some c ∧ Live k t ∧ k.cr3 = root k t ∧
      Forked (liveRoots k) t c k k' ∧ ForkConfined (liveRoots k) t c env regs k k' ∧ KInv k' := by
  obtain ⟨t, c, ht, hc, hl, hcr3, hf, h'⟩ := fork_forked h hs
  rw [Process.step, ht, Option.bind_some] at hs
  exact ⟨t, c, ht, hc, hl, hcr3, hf, kfork_confined h.sound (hcr3 ▸ mem_liveRoots hl) hcr3.symm hl (h.ok t hl)
    (hcr3.symm ▸ h.data t hl) hc hs, h'⟩

theorem step_alone {op : Op} (h : KInv k) (hm : Meets k op) (hwait : Waits w k op) (ha : Alone k w a f)
    (hs : step k op = some k') : Alone k' w a f ∧ k'.mem f = k.mem f := by
  obtain ⟨t, ht, hl, hvirt⟩ := h.current
  have hcr3 : k.cr3 = root k t := by rw [Kernel.cr3, hvirt]; rfl
  have hr : k.cr3 ∈ liveRoots k := hcr3 ▸ mem_liveRoots hl
  have hconf : Confined (liveRoots k) t k k := confined_refl h.sound
  -- whoever makes a call is another task
  have hother : (∀ u, op ≠ .switch u) → t ≠ w := by
    rintro hne rfl
    obtain ⟨u, rfl⟩ := hwait ht
    exact hne u rfl
  have hs₀ := hs
  rw [step, ht, Option.bind_some] at hs
  cases op with
  | alloc =>
    have htw : t ≠ w := hother (fun u => by simp)
    simp only [Option.map_eq_some_iff] at hs
    obtain ⟨⟨v, k₁⟩, halloc, rfl⟩ := hs
    obtain ⟨g, -, -, -, hfresh, -⟩ := iVirtAlloc_page h.sound hr halloc
    exact ha.works h ht htw (works_fresh h.sound hfresh) (hconf.fresh hr hfresh)
  | brk =>
    have htw : t ≠ w := hother (fun u => by simp)
    simp only [Option.map_eq_some_iff] at hs
    obtain ⟨⟨v, k₁⟩, hbrk, rfl⟩ := hs
    exact ha.works h ht htw (brk_spec h.sound hr hbrk).1.toWorks (hconf.brk hr hbrk)
  | kmalloc size =>
    have htw : t ≠ w := hother (fun u => by simp)
    simp only [Option.map_eq_some_iff] at hs
    obtain ⟨⟨v, k₁⟩, hmalloc, rfl⟩ := hs
    exact ha.works h ht htw (kmalloc_spec h.sound hr hmalloc).toWorks (hconf.kmalloc hr hmalloc)
  | exec c filename =>
    have htw : t ≠ w := hother (fun u => by simp)
    have hexec := (kexecvpe_front hm.2 k t).symm.trans hs
    exact ha.works h ht htw (kexecvpe_spec h.sound hr hm.1 hexec).1 (hconf.kexecvpe hr hm.1 hexec)
  | fork env regs =>
    have htw : t ≠ w := hother (fun u => by simp)
    obtain ⟨t', c, ht', -, -, -, hf, hfork, -⟩ := fork_confined h ((step_fork hm.2 k regs).symm.trans hs₀)
    obtain rfl : t = t' := Option.some.inj (ht.symm.trans ht')
    exact ha.forked h ht htw hf hfork
  | store v b =>
    have htw : t ≠ w := hother (fun u => by simp)
    exact ha.stored h ht htw hm.1 hs
  | switch u =>
    simp only [switchTask] at hs
    split at hs
    · rw [Option.some.injEq] at hs
      subst hs
      exact ⟨⟨ha.live, ha.page, ha.outside, ha.others⟩, rfl⟩
    · cases hs

/-- In no run in which the task waits does it lose what it finds in the page. -/
def LeftAlone (k : Kernel) (w : Slot) (a : Word) : Prop :=
  ∀ ops k', Transition.Along step (fun k op => Meets k op ∧ Waits w k op) k ops →
    Transition.run step k ops = some k' → pageSeen k' w a = pageSeen k w a

theorem Alone.leftAlone (h : KInv k) (ha : Alone k w a f) : LeftAlone k w a := by
  intro ops k' hm hr
  have hrun := Transition.run_invariant step (C := fun k op => Meets k op ∧ Waits w k op)
    (P := fun k' => KInv k' ∧ Alone k' w a f ∧ k'.mem f = k.mem f) ?_ ⟨h, ha, rfl⟩ hm hr
  · obtain ⟨-, ha', hmem⟩ := hrun
    rw [pageSeen, pageSeen, ha'.page, ha.page, Option.map_some, Option.map_some, hmem]
  · rintro k₁ op k₂ ⟨hm, hwait⟩ ⟨h₁, ha₁, hmem₁⟩ hs
    obtain ⟨ha₂, hmem₂⟩ := step_alone h₁ hm hwait ha₁ hs
    exact ⟨(kinv_step h₁ hm hs).1, ha₂, hmem₂.trans hmem₁⟩

/-! ## A frame that two tasks share -/

/-- Each page has an address that the processor accepts. -/
theorem exists_canonical (b : Word) : ∃ v, Canonical v ∧ vpn v = vpn b := by
  have hlt : vpn b < 2 ^ 36 := Nat.mod_lt _ (by decide)
  by_cases h : vpn b < 2 ^ 35
  · refine ⟨BitVec.ofNat 64 (vpn b * 4096), Or.inl ?_, ?_⟩
    · rw [BitVec.toNat_ofNat]
      omega
    · rw [vpn, BitVec.toNat_ofNat]
      omega
  · refine ⟨BitVec.ofNat 64 (2 ^ 64 - 2 ^ 48 + vpn b * 4096), Or.inr ?_, ?_⟩
    · rw [BitVec.toNat_ofNat]
      omega
    · rw [vpn, BitVec.toNat_ofNat]
      omega

/-- The byte that is stored is found at its place. -/
theorem storeByte_isSome (b : BitVec 8) (hv : Canonical v) (hf : translate k k.cr3 v = some f) :
    ∃ k', storeByte k v b = some k' ∧ LoadedBytes.byteIn (k'.mem f) v = b := by
  have hstore : storeByte k v b = some { k with
      mem := RadixForest.put k.mem f (wordIndex v) (setByte (k.mem f (wordIndex v)) (v.toNat % 8) b) } := by
    rw [storeByte, access, if_pos hv, hf, Option.map_some]
  refine ⟨_, hstore, ?_⟩
  rw [LoadedBytes.byteIn_put, if_pos ⟨rfl, rfl⟩]

/-- Switched to, the other task can write any byte to one place in the frame. -/
theorem shared_written (h : KInv k) (hw : Live k w) (hf : translate k (root k w) a = some f) (hl : Live k t)
    (htw : t ≠ w) (hreach : Reaches k t f) : ∃ v, ∀ b, ∃ ops k',
      Transition.Along step (fun k op => Meets k op ∧ Waits w k op) k ops ∧ Transition.run step k ops = some k' ∧
      pageSeen k' w a = some (k'.mem f) ∧ LoadedBytes.byteIn (k'.mem f) v = b := by
  obtain ⟨p, hp, htr⟩ := hreach
  obtain ⟨v, hcan, hv⟩ := exists_canonical p
  obtain ⟨u, hu, -, -⟩ := h.current
  have hswitch : step k (.switch t) = some { k with currentTask := some t, curPml4eVirt := (k.tasks t).pml4e } := by
    rw [step, hu, Option.bind_some]
    simp only [switchTask]
    rw [if_pos hl]
  generalize hk₁ : ({ k with currentTask := some t, curPml4eVirt := (k.tasks t).pml4e } : Kernel) = k₁ at hswitch
  have hcurrent : k₁.currentTask = some t := by rw [← hk₁]
  have hcr3 : k₁.cr3 = root k t := by
    rw [← hk₁]
    rfl
  have htasks : k₁.tasks = k.tasks := by rw [← hk₁]
  have hwalk₁ : ∀ r x, walk k₁ r x = walk k r x := by
    intro r x
    rw [← hk₁]
    rfl
  obtain ⟨h₁, -⟩ := kinv_step h (show Meets k (.switch t) from ⟨trivial, trivial⟩) hswitch
  have htr₁ : translate k₁ k₁.cr3 v = some f := by
    rw [hcr3, translate_congr (hwalk₁ _ v), translate_page hv]
    exact htr
  have hd : Data (liveRoots k₁) k₁ k₁.cr3 v := by
    have hl₁ : Live k₁ t := by
      rw [Live, htasks]
      exact hl
    obtain ⟨g, hg, hgc⟩ := h₁.data t hl₁ p (by rw [htasks]; exact hp)
    refine ⟨g, ?_, hgc⟩
    rw [hcr3, translate_page hv, ← hg, root, root, htasks]
  refine ⟨v, fun b => ?_⟩
  obtain ⟨k₂, hstore, hbyte⟩ := storeByte_isSome b hcan htr₁
  have hstep : step k₁ (.store v b) = some k₂ := by
    rw [step, hcurrent, Option.bind_some]
    exact hstore
  refine ⟨[.switch t, .store v b], k₂, ?_, ?_, ?_, hbyte⟩
  · refine ⟨⟨⟨trivial, trivial⟩, fun _ => ⟨t, rfl⟩⟩, fun k' hk' => ?_⟩
    obtain rfl : k₁ = k' := Option.some.inj (hswitch.symm.trans hk')
    refine ⟨⟨⟨⟨t, hcurrent, p, by rw [htasks]; exact hp, hv⟩, trivial⟩, fun hcw => ?_⟩, fun _ _ => trivial⟩
    rw [hcurrent, Option.some.injEq] at hcw
    exact absurd hcw htw
  · exact (Transition.run_cons_eq_some _).mpr
      ⟨k₁, hswitch, (Transition.run_cons_eq_some _).mpr ⟨k₂, hstep, rfl⟩⟩
  · obtain ⟨-, -, -, -, heq⟩ := storeByte_some hstore
    have hroot : root k₂ w = root k w := by rw [heq, root, root, ← htasks]
    have hwR : root k w ∈ liveRoots k₁ := by
      have hw₁ : Live k₁ w := by
        rw [Live, htasks]
        exact hw
      have hmem := mem_liveRoots hw₁
      rwa [root, htasks] at hmem
    rw [pageSeen, hroot, translate_congr (store_walks hd hstore _ hwR a), translate_congr (hwalk₁ _ a), hf,
      Option.map_some]

end Confinement
