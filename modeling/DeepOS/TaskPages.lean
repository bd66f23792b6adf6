import DeepOS.AddressSpace

/-!
# The pages of a task

`brk`, `kmalloc` and `kexecvpe` change the memory fields of the running task and
give it pages that lead to data frames. Each of the first ten `vma` slots in use
starts at a page address and lists pages that the task has obtained.
-/
namespace TaskPages

open PhyMem TaskTable PageTable PageMap VirtAlloc Clone Process AddressSpace
open RadixForest (nodes put)

/-- An area in use starts at a page address and covers obtained pages only. -/
def AreaOk (pages : List Word) (area : Vma) : Prop :=
  area.startAddr ≠ 0 → area.startAddr.toNat % 4096 = 0 ∧
    ∀ x : Word, area.startAddr ≤ x → x < area.endAddr → ∃ a ∈ pages, vpn a = vpn x

def TaskOk (s : TaskMem) : Prop := ∀ i < VMA_SCANNED, AreaOk s.pages (s.vma i)

theorem AreaOk.mono {pages pages' : List Word} {area : Vma} (h : AreaOk pages area)
    (hsub : ∀ a ∈ pages, a ∈ pages') : AreaOk pages' area := by
  intro hne
  obtain ⟨halign, hcover⟩ := h hne
  refine ⟨halign, fun x hx hx' => ?_⟩
  obtain ⟨a, ha, hv⟩ := hcover x hx hx'
  exact ⟨a, hsub a ha, hv⟩

/-- The addresses from a page address on, up to its last byte, lie in one page. -/
theorem vpn_of_page {v x : Word} (hv : v.toNat % 4096 = 0) (hx : v ≤ x) (hx' : x < v + 4095) :
    vpn x = vpn v := by
  rw [BitVec.le_def] at hx
  rw [BitVec.lt_def, BitVec.toNat_add, show (4095 : Word).toNat = 4095 from rfl] at hx'
  have hlt := v.isLt
  rw [vpn, vpn]
  omega

theorem areaOk_page {pages : List Word} {v : Word} (hv : v.toNat % 4096 = 0) (hm : v ∈ pages) :
    AreaOk pages ⟨v, v + 4095⟩ :=
  fun _ => ⟨hv, fun _ hx hx' => ⟨v, hm, (vpn_of_page hv hx hx').symm⟩⟩

theorem window_aligned {g : Nat} (hg : g < WINDOW_FRAMES) : (window g).toNat % 4096 = 0 := by
  rw [window_toNat hg]
  omega

/-! ## What a call does to the running task -/

/-- The call works on the fields of `t` and on memory; the pages it adds to the
list of `t` are data pages of the tables in use. -/
structure Works (R : Set Nat) (t : Slot) (k k' : Kernel) : Prop where
  evolves : Evolves R R k k'
  quiet : Quiet R k k'
  others : ∀ s, s ≠ t → k'.tasks s = k.tasks s
  status : (k'.tasks t).status = (k.tasks t).status
  pml4e : (k'.tasks t).pml4e = (k.tasks t).pml4e
  currentTask : k'.currentTask = k.currentTask
  curPml4eVirt : k'.curPml4eVirt = k.curPml4eVirt
  ok : TaskOk (k.tasks t) → TaskOk (k'.tasks t)
  kept : ∀ a ∈ (k.tasks t).pages, a ∈ (k'.tasks t).pages
  gained : ∀ a ∈ (k'.tasks t).pages, a ∈ (k.tasks t).pages ∨ Data R k' k.cr3 a

variable {R : Set Nat} {t : Slot} {k k' k'' : Kernel}

theorem Works.cr3 (h : Works R t k k') : k'.cr3 = k.cr3 := by
  rw [Kernel.cr3, Kernel.cr3, h.curPml4eVirt]

theorem Works.trans (h : Works R t k k') (h' : Works R t k' k'') (hr : k.cr3 ∈ R) :
    Works R t k k'' where
  evolves := h.evolves.trans h'.evolves
  quiet := h.quiet.trans h'.quiet h.evolves.core
  others := fun s hs => (h'.others s hs).trans (h.others s hs)
  status := h'.status.trans h.status
  pml4e := h'.pml4e.trans h.pml4e
  currentTask := h'.currentTask.trans h.currentTask
  curPml4eVirt := h'.curPml4eVirt.trans h.curPml4eVirt
  ok := fun hok => h'.ok (h.ok hok)
  kept := fun a ha => h'.kept a (h.kept a ha)
  gained := by
    intro a ha
    rcases h'.gained a ha with ha | hd
    · rcases h.gained a ha with ha | hd
      · exact Or.inl ha
      · exact Or.inr (h'.evolves.data hr hd)
    · rw [h.cr3] at hd
      exact Or.inr hd

theorem works_of_sameTasks (he : Evolves R R k k') (hq : Quiet R k k') (hs : SameTasks k k') :
    Works R t k k' where
  evolves := he
  quiet := hq
  others := fun s _ => by rw [hs.tasks]
  status := by rw [hs.tasks]
  pml4e := by rw [hs.tasks]
  currentTask := hs.currentTask
  curPml4eVirt := hs.curPml4eVirt
  ok := fun hok => by rw [hs.tasks]; exact hok
  kept := fun a ha => by rw [hs.tasks]; exact ha
  gained := fun a ha => Or.inl (by rw [← hs.tasks]; exact ha)

theorem works_refl (h : Sound R k) : Works R t k k :=
  works_of_sameTasks (h.evolves_same rfl rfl) (fun _ _ => rfl) (SameTasks.refl k)

theorem works_charge (h : Sound R k) (task : Option Slot) : Works R t k (charge k task) := by
  obtain ⟨hm, hb, hs⟩ := charge_spec k task
  exact works_of_sameTasks (h.evolves_same hm hb) (fun f _ => congrFun hm f) hs

theorem works_fresh (h : Sound R k) (hf : Fresh k k') : Works R t k k' :=
  works_of_sameTasks (h.evolves_fresh hf) (quiet_fresh hf) hf.same

@[simp] theorem modifyTask_self (k : Kernel) (t : Slot) (change : TaskMem → TaskMem) :
    (modifyTask k t change).tasks t = change (k.tasks t) := Function.update_self ..

theorem modifyTask_of_ne (k : Kernel) {s t : Slot} (h : s ≠ t) (change : TaskMem → TaskMem) :
    (modifyTask k t change).tasks s = k.tasks s := Function.update_of_ne h ..

theorem evolves_modify (h : Sound R k) (t : Slot) (change : TaskMem → TaskMem) :
    Evolves R R k (modifyTask k t change) := h.evolves_same rfl rfl

/-- Changing fields of the task itself. -/
theorem works_modify (h : Sound R k) (change : TaskMem → TaskMem)
    (hstatus : (change (k.tasks t)).status = (k.tasks t).status)
    (hpml4e : (change (k.tasks t)).pml4e = (k.tasks t).pml4e)
    (hok : TaskOk (k.tasks t) → TaskOk (change (k.tasks t)))
    (hkept : ∀ a ∈ (k.tasks t).pages, a ∈ (change (k.tasks t)).pages)
    (hgained : ∀ a ∈ (change (k.tasks t)).pages, a ∈ (k.tasks t).pages ∨ Data R k k.cr3 a) :
    Works R t k (modifyTask k t change) where
  evolves := evolves_modify h t change
  quiet := fun _ _ => rfl
  others := fun s hs => modifyTask_of_ne k hs change
  status := by rw [modifyTask_self]; exact hstatus
  pml4e := by rw [modifyTask_self]; exact hpml4e
  currentTask := rfl
  curPml4eVirt := rfl
  ok := fun h => by rw [modifyTask_self]; exact hok h
  kept := fun a ha => by rw [modifyTask_self]; exact hkept a ha
  gained := fun a ha => by rw [modifyTask_self] at ha; exact hgained a ha

/-- Fields of the task are changed first, and its areas are in order at the end. -/
theorem Works.after_modify {change : TaskMem → TaskMem} (hw : Works R t (modifyTask k t change) k')
    (h : Sound R k) (hstatus : (change (k.tasks t)).status = (k.tasks t).status)
    (hpml4e : (change (k.tasks t)).pml4e = (k.tasks t).pml4e)
    (hpages : (change (k.tasks t)).pages = (k.tasks t).pages)
    (hok : TaskOk (k.tasks t) → TaskOk (k'.tasks t)) : Works R t k k' where
  evolves := (evolves_modify h t change).trans hw.evolves
  quiet := Quiet.trans (fun _ _ => rfl) hw.quiet (evolves_modify h t change).core
  others := fun s hs => (hw.others s hs).trans (modifyTask_of_ne k hs change)
  status := by rw [hw.status, modifyTask_self, hstatus]
  pml4e := by rw [hw.pml4e, modifyTask_self, hpml4e]
  currentTask := hw.currentTask
  curPml4eVirt := hw.curPml4eVirt
  ok := hok
  kept := fun a ha => hw.kept a (by rw [modifyTask_self, hpages]; exact ha)
  gained := fun a ha => by
    have hga := hw.gained a ha
    rw [modifyTask_self, hpages] at hga
    exact hga

/-- A new page from the allocator. -/
theorem iVirtAlloc_page {v : Word} (h : Sound R k) (hr : k.cr3 ∈ R)
    (hs : iVirtAlloc k = some (v, k')) :
    ∃ g ∈ freeFrames k.memMap, v = window g ∧ g < WINDOW_FRAMES ∧ Fresh k k' ∧
      g ∉ freeFrames k'.memMap ∧ translate k' k.cr3 v = some g ∧ g ∉ core R k' := by
  obtain ⟨g₁, g, -, -, hg, hlt, rfl, hfresh, hfree, -⟩ := iVirtAlloc_spec (h.ready hr) (h.lowFor 2) hs
  have hnot : g ∉ freeFrames k'.memMap := by
    rw [hfree]
    exact fun hm => hm.2 (Or.inr rfl)
  refine ⟨g, hg, rfl, hlt, hfresh, hnot, ?_, h.taken_not_core hfresh hg hnot⟩
  rw [translate_congr (hfresh.walk_eq h.inv hr (window g))]
  exact h.translate_window hr (Or.inl hg)

/-! ## The heap -/

/-- Slots in use are kept, and a slot is only filled with a page on a frame of `F`. -/
def Areas (F : Set Nat) (s s' : TaskMem) : Prop :=
  ∀ i < VMA_SCANNED, s'.vma i = s.vma i ∨ (s.vma i).startAddr = 0 ∧
    ((s'.vma i).startAddr ≠ 0 → ∃ g ∈ F, s'.vma i = ⟨window g, window g + 4095⟩)

theorem Areas.trans {F F' : Set Nat} {s s' s'' : TaskMem} (h : Areas F s s') (h' : Areas F' s' s'')
    (hsub : F' ⊆ F) : Areas F s s'' := by
  intro i hi
  rcases h' i hi with heq' | ⟨hzero', hnew'⟩
  · rw [heq']
    exact h i hi
  · have hnew : (s''.vma i).startAddr ≠ 0 → ∃ g ∈ F, s''.vma i = ⟨window g, window g + 4095⟩ := by
      intro hne
      obtain ⟨g, hg, he⟩ := hnew' hne
      exact ⟨g, hsub hg, he⟩
    rcases h i hi with heq | ⟨hzero, -⟩
    · rw [heq] at hzero'
      exact Or.inr ⟨hzero', hnew⟩
    · exact Or.inr ⟨hzero, hnew⟩

structure HeapCall (R : Set Nat) (t : Slot) (k k' : Kernel) : Prop extends Works R t k k' where
  areas : Areas (freeFrames k.memMap) (k.tasks t) (k'.tasks t)

theorem HeapCall.trans (h : HeapCall R t k k') (h' : HeapCall R t k' k'') (hr : k.cr3 ∈ R) :
    HeapCall R t k k'' :=
  ⟨h.toWorks.trans h'.toWorks hr, h.areas.trans h'.areas h.evolves.free⟩

theorem heapCall_of_vma (h : Works R t k k') (hv : (k'.tasks t).vma = (k.tasks t).vma) :
    HeapCall R t k k' := ⟨h, fun i _ => Or.inl (by rw [hv])⟩

/-- The slot that `add_to_vma` fills, if any. -/
theorem addToVma_cases (k : Kernel) (t : Slot) (first last : Word) :
    addToVma k t first last = k ∨ ∃ i < VMA_SCANNED, ((k.tasks t).vma i).startAddr = 0 ∧
      addToVma k t first last = modifyTask k t fun s =>
        { s with vma := Function.update s.vma i ⟨first, last⟩ } := by
  rw [addToVma]
  cases hfind : freeVma (k.tasks t).vma with
  | none => exact Or.inl rfl
  | some i =>
    refine Or.inr ⟨i, ?_, ?_, rfl⟩
    · exact List.mem_range.mp (List.mem_of_find?_eq_some hfind)
    · simpa using List.find?_some hfind

theorem works_addToVma (h : Sound R k) {first last : Word}
    (hok : AreaOk (k.tasks t).pages ⟨first, last⟩) : Works R t k (addToVma k t first last) := by
  rcases addToVma_cases k t first last with heq | ⟨i, hi, -, heq⟩
  · rw [heq]
    exact works_refl h
  · rw [heq]
    refine works_modify h _ rfl rfl ?_ (fun a ha => ha) (fun a ha => Or.inl ha)
    intro hold j hj
    by_cases hij : j = i
    · subst hij
      simpa using hok
    · simpa [hij] using hold j hj

theorem areas_addToVma {F : Set Nat} {first last : Word}
    (hnew : first ≠ 0 → ∃ g ∈ F, (⟨first, last⟩ : Vma) = ⟨window g, window g + 4095⟩) :
    Areas F (k.tasks t) ((addToVma k t first last).tasks t) := by
  rcases addToVma_cases k t first last with heq | ⟨i, hi, hzero, heq⟩
  · rw [heq]
    exact fun i _ => Or.inl rfl
  · rw [heq, modifyTask_self]
    intro j hj
    by_cases hij : j = i
    · subst hij
      refine Or.inr ⟨hzero, ?_⟩
      simpa using hnew
    · exact Or.inl (by simp [hij])

/-- The page is noted as obtained. -/
theorem works_gain (h : Sound R k) {v : Word} (hd : Data R k k.cr3 v) : Works R t k (gain k t v) := by
  refine works_modify h _ rfl rfl ?_ (fun a ha => List.mem_cons_of_mem v ha) ?_
  · exact fun hok i hi => (hok i hi).mono (fun a ha => List.mem_cons_of_mem v ha)
  · intro a ha
    rcases List.mem_cons.mp ha with rfl | ha
    · exact Or.inr hd
    · exact Or.inl ha

def HeapPage (F : Set Nat) (s : TaskMem) (v : Word) : Prop :=
  v = 0 ∨ ∃ g ∈ F, v = window g ∧ v.toNat % 4096 = 0 ∧ v ∈ s.pages

theorem HeapPage.areaOk {F : Set Nat} {s : TaskMem} {v : Word} (h : HeapPage F s v) :
    AreaOk s.pages ⟨v, v + 4095⟩ := by
  rcases h with rfl | ⟨g, -, -, halign, hm⟩
  · exact fun hne => absurd rfl hne
  · exact areaOk_page halign hm

theorem HeapPage.area {F : Set Nat} {s : TaskMem} {v : Word} (h : HeapPage F s v) (hne : v ≠ 0) :
    ∃ g ∈ F, (⟨v, v + 4095⟩ : Vma) = ⟨window g, window g + 4095⟩ := by
  rcases h with h0 | ⟨g, hg, rfl, -⟩
  · exact absurd h0 hne
  · exact ⟨g, hg, rfl⟩

theorem brk_spec {v : Word} (h : Sound R k) (hr : k.cr3 ∈ R) (hs : brk k t = some (v, k')) :
    HeapCall R t k k' ∧ HeapPage (freeFrames k.memMap) (k'.tasks t) v := by
  rw [brk] at hs
  split at hs
  · obtain ⟨rfl, rfl⟩ := Prod.mk.inj (Option.some.inj hs)
    exact ⟨heapCall_of_vma (works_refl h) rfl, Or.inl rfl⟩
  · rw [Option.map_eq_some_iff] at hs
    obtain ⟨⟨v, k₁⟩, halloc, hres⟩ := hs
    obtain ⟨rfl, rfl⟩ := Prod.mk.inj hres
    obtain ⟨g, hg, rfl, hlt, hfresh, -, htrans, hgc⟩ := iVirtAlloc_page h hr halloc
    have hcr3 : k₁.cr3 = k.cr3 := SameTasks.cr3_eq hfresh.same
    have hw₁ : Works R t k k₁ := works_fresh h hfresh
    have hw₂ : Works R t k₁ (gain k₁ t (window g)) :=
      works_gain hw₁.evolves.sound ⟨g, by rw [hcr3]; exact htrans, hgc⟩
    have hpage : HeapPage (freeFrames k.memMap) ((gain k₁ t (window g)).tasks t) (window g) := by
      refine Or.inr ⟨g, hg, rfl, window_aligned hlt, ?_⟩
      rw [gain, modifyTask_self]
      exact List.mem_cons_self ..
    have hw₃ : Works R t (gain k₁ t (window g))
        (addToVma (gain k₁ t (window g)) t (window g) (window g + 4095)) :=
      works_addToVma hw₂.evolves.sound hpage.areaOk
    have hw₄ := works_charge (t := t) hw₃.evolves.sound (some t)
    have hr₁ : k₁.cr3 ∈ R := hcr3.symm ▸ hr
    have hvma : ((gain k₁ t (window g)).tasks t).vma = (k.tasks t).vma := by
      rw [gain, modifyTask_self, hfresh.same.tasks]
    refine ⟨⟨hw₁.trans (hw₂.trans (hw₃.trans hw₄ hr₁) hr₁) hr, ?_⟩, ?_⟩
    · have hareas := areas_addToVma (k := gain k₁ t (window g)) (t := t) hpage.area
      intro i hi
      have := hareas i hi
      rw [hvma] at this
      exact this
    · rcases hpage with h0 | ⟨g', hg', he, halign, hm⟩
      · exact Or.inl h0
      · exact Or.inr ⟨g', hg', he, halign, hw₃.kept _ hm⟩

theorem growHeap_spec {v e : Word} (h : Sound R k) (hr : k.cr3 ∈ R)
    (hs : growHeap k t = some (v, e, k')) : HeapCall R t k k' := by
  rw [growHeap, Option.map_eq_some_iff] at hs
  obtain ⟨⟨v, k₁⟩, hbrk, hres⟩ := hs
  simp only [Prod.mk.injEq] at hres
  obtain ⟨-, -, rfl⟩ := hres
  obtain ⟨hcall, hpage⟩ := brk_spec h hr hbrk
  have hw := works_addToVma hcall.evolves.sound hpage.areaOk
  exact ⟨hcall.toWorks.trans hw hr, hcall.areas.trans (areas_addToVma hpage.area) subset_rfl⟩

theorem kmalloc_spec {v : Word} {size : BitVec 32} (h : Sound R k) (hr : k.cr3 ∈ R)
    (hs : kmalloc k t size = some (v, k')) : HeapCall R t k k' := by
  rw [kmalloc, Option.map_eq_some_iff] at hs
  obtain ⟨⟨curPtr, heapEnd, k₁⟩, hpage, hs⟩ := hs
  have hcall : HeapCall R t k k₁ := by
    rw [heapPage] at hpage
    split at hpage
    · exact growHeap_spec h hr hpage
    · simp only [Option.some.injEq, Prod.mk.injEq] at hpage
      obtain ⟨-, -, rfl⟩ := hpage
      exact heapCall_of_vma (works_refl h) rfl
  simp only at hs
  split at hs
  · obtain ⟨-, rfl⟩ := Prod.mk.inj hs
    exact hcall
  · obtain ⟨-, rfl⟩ := Prod.mk.inj hs
    refine hcall.trans (heapCall_of_vma (works_modify hcall.evolves.sound _ rfl rfl
      (fun hok => hok) (fun _ ha => ha) (fun _ ha => Or.inl ha)) ?_) hr
    rw [modifyTask_self]

theorem copyStrings_spec (sizes : List (BitVec 32)) (h : Sound R k) (hr : k.cr3 ∈ R)
    (hs : copyStrings k t sizes = some k') : HeapCall R t k k' := by
  refine Transition.run_loop (P := fun _ k' => HeapCall R t k k') _ ?_ ?_ hs
  · intro done size rest k₁ k₂ _ hcall hstep
    rw [Option.map_eq_some_iff] at hstep
    obtain ⟨⟨v, k₂⟩, hstep, rfl⟩ := hstep
    exact hcall.trans (kmalloc_spec hcall.evolves.sound (hcall.cr3.symm ▸ hr) hstep) hr
  · exact heapCall_of_vma (works_refl h) rfl

end TaskPages
