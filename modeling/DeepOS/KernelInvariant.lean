import DeepOS.Fork
import DeepOS.LoadImage

/-!
# The invariant of the running system

The trees of all live tasks share one sound memory, no two tasks share a tree,
the pages a task has obtained lead to data frames, and its first ten `vma` slots
list such pages only. Every call keeps this, for images that lie below the
window and have at most 99 segments with contents, and for stores that go to
pages of the storing task.
-/
namespace KernelInvariant

open PhyMem TaskTable PageTable PageMap VirtAlloc Process AddressSpace TaskPages LoadImage Fork

def root (k : Kernel) (t : Slot) : Nat := frameAt (k.tasks t).pml4e

def liveRoots (k : Kernel) : Set Nat := fun r => ∃ t, Live k t ∧ root k t = r

theorem mem_liveRoots {k : Kernel} {t : Slot} (h : Live k t) : root k t ∈ liveRoots k := ⟨t, h, rfl⟩

structure KInv (k : Kernel) : Prop where
  sound : Sound (liveRoots k) k
  current : ∃ t, k.currentTask = some t ∧ Live k t ∧ k.curPml4eVirt = (k.tasks t).pml4e
  ok : ∀ t, Live k t → TaskOk (k.tasks t)
  data : ∀ t, Live k t → ∀ a ∈ (k.tasks t).pages, Data (liveRoots k) k (root k t) a
  idle : ∀ c, ¬ Live k c → ∀ i < VMA_SCANNED, ((k.tasks c).vma i).startAddr = 0
  distinct : ∀ t s, Live k t → Live k s → root k t = root k s → t = s

/-- What the runs considered here promise about each step. -/
def Meets (k : Kernel) : Op → Prop
  | .exec c => ∀ image, c.image = some image → ImageOk image
  | .store v _ => ∃ t, k.currentTask = some t ∧ ∃ a ∈ (k.tasks t).pages, vpn v = vpn a
  | _ => True

/-- Live tasks stay live and keep their trees, and memory evolves. -/
structure Proceeds (k k' : Kernel) : Prop where
  evolves : Evolves (liveRoots k) (liveRoots k') k k'
  tasks : ∀ t, Live k t → Live k' t ∧ (k'.tasks t).pml4e = (k.tasks t).pml4e

theorem Proceeds.trans {k k' k'' : Kernel} (h : Proceeds k k') (h' : Proceeds k' k'') :
    Proceeds k k'' := by
  refine ⟨h.evolves.trans h'.evolves, fun t ht => ?_⟩
  obtain ⟨ht', hp⟩ := h.tasks t ht
  obtain ⟨ht'', hp'⟩ := h'.tasks t ht'
  exact ⟨ht'', hp'.trans hp⟩

theorem proceeds_refl {k : Kernel} (h : KInv k) : Proceeds k k :=
  ⟨h.sound.evolves_same rfl rfl, fun _ ht => ⟨ht, rfl⟩⟩

/-- Two pages apart stay apart. -/
theorem Proceeds.apart {k k' : Kernel} (h : Proceeds k k') (hk : KInv k) {t s : Slot} (ht : Live k t)
    (hs : Live k s) (hne : t ≠ s) {a : Word} (ha : Apart (liveRoots k) k (root k t) (root k s) a) :
    Apart (liveRoots k') k' (root k' t) (root k' s) a := by
  rw [root, root, (h.tasks t ht).2, (h.tasks s hs).2]
  exact h.evolves.apart _ (mem_liveRoots ht) _ (mem_liveRoots hs)
    (fun he => hne (hk.distinct t s ht hs he)) a ha

variable {k k' : Kernel}

/-- The task tables agree on what the set of roots depends on. -/
theorem liveRoots_congr (h : ∀ t, (k'.tasks t).status = (k.tasks t).status ∧
    (k'.tasks t).pml4e = (k.tasks t).pml4e) : liveRoots k' = liveRoots k := by
  ext r
  constructor
  · rintro ⟨t, ht, hr⟩
    refine ⟨t, ?_, ?_⟩
    · rw [Live, ← (h t).1]; exact ht
    · rw [root, ← (h t).2]; exact hr
  · rintro ⟨t, ht, hr⟩
    refine ⟨t, ?_, ?_⟩
    · rw [Live, (h t).1]; exact ht
    · rw [root, (h t).2]; exact hr

theorem Works.fields {R : Set Nat} {t : Slot} (hw : Works R t k k') (s : Slot) :
    (k'.tasks s).status = (k.tasks s).status ∧ (k'.tasks s).pml4e = (k.tasks s).pml4e := by
  by_cases hs : s = t
  · subst hs
    exact ⟨hw.status, hw.pml4e⟩
  · rw [hw.others s hs]
    exact ⟨rfl, rfl⟩

/-- A call of the running task that works on its own fields. -/
theorem KInv.works {t : Slot} (h : KInv k) (ht : k.currentTask = some t)
    (hw : Works (liveRoots k) t k k') : KInv k' ∧ Proceeds k k' := by
  have hroots : liveRoots k' = liveRoots k := liveRoots_congr (Works.fields hw)
  have hlive : ∀ s, Live k' s ↔ Live k s := fun s => by rw [Live, Live, (Works.fields hw s).1]
  have hroot : ∀ s, root k' s = root k s := fun s => by rw [root, root, (Works.fields hw s).2]
  obtain ⟨t', ht', hl, hvirt⟩ := h.current
  obtain rfl : t = t' := Option.some.inj (ht.symm.trans ht')
  have hcr3 : k.cr3 = root k t := by rw [Kernel.cr3, hvirt]; rfl
  have hev : Evolves (liveRoots k) (liveRoots k') k k' := by rw [hroots]; exact hw.evolves
  refine ⟨⟨hev.sound, ?_, ?_, ?_, ?_, ?_⟩, hev, fun s hs => ⟨(hlive s).mpr hs, (Works.fields hw s).2⟩⟩
  · exact ⟨t, hw.currentTask.trans ht, (hlive t).mpr hl, by rw [hw.curPml4eVirt, hvirt, hw.pml4e]⟩
  · intro s hs
    by_cases hst : s = t
    · subst hst
      exact hw.ok (h.ok s hl)
    · rw [hw.others s hst]
      exact h.ok s ((hlive s).mp hs)
  · intro s hs a ha
    rw [hroot]
    have hs' := (hlive s).mp hs
    by_cases hst : s = t
    · subst hst
      rcases hw.gained a ha with ha | hd
      · exact hev.data (mem_liveRoots hs') (h.data s hs' a ha)
      · rw [hroots, ← hcr3]
        exact hd
    · rw [hw.others s hst] at ha
      exact hev.data (mem_liveRoots hs') (h.data s hs' a ha)
  · intro c hc i hi
    have hct : c ≠ t := by rintro rfl; exact hc ((hlive c).mpr hl)
    rw [hw.others c hct]
    exact h.idle c (fun hl => hc ((hlive c).mpr hl)) i hi
  · intro s u hs hu he
    rw [hroot, hroot] at he
    exact h.distinct s u ((hlive s).mp hs) ((hlive u).mp hu) he

section

variable {t c : Slot} (hl : Live k t) (hf : Forked (liveRoots k) t c k k')

include hl hf

/-- The child is live behind the fork, and no other slot has changed. -/
theorem Forked.live_iff (s : Slot) : Live k' s ↔ s = c ∨ Live k s := by
  have htc : t ≠ c := by rintro rfl; exact hl hf.free
  by_cases hsc : s = c
  · subst hsc
    rw [Live, hf.ready]
    simp
  · have hstatus : (k'.tasks s).status = (k.tasks s).status := by
      by_cases hst : s = t
      · subst hst; exact hf.status
      · rw [hf.others s hst hsc]
    rw [Live, Live, hstatus]
    simp [hsc]

theorem Forked.pml4e_eq {s : Slot} (hs : Live k s) : (k'.tasks s).pml4e = (k.tasks s).pml4e := by
  by_cases hst : s = t
  · subst hst; exact hf.pml4e
  · rw [hf.others s hst (by rintro rfl; exact hs hf.free)]

theorem Forked.liveRoots_eq : liveRoots k' = insert (root k' c) (liveRoots k) := by
  ext r
  constructor
  · rintro ⟨s, hs, rfl⟩
    rcases (Forked.live_iff hl hf s).mp hs with rfl | hs
    · exact Or.inl rfl
    · exact Or.inr ⟨s, hs, by rw [root, root, Forked.pml4e_eq hl hf hs]⟩
  · rintro (rfl | ⟨s, hs, rfl⟩)
    · exact mem_liveRoots ((Forked.live_iff hl hf c).mpr (Or.inl rfl))
    · exact ⟨s, (Forked.live_iff hl hf s).mpr (Or.inr hs), by rw [root, root, Forked.pml4e_eq hl hf hs]⟩

end

theorem KInv.forked {t c : Slot} (h : KInv k) (ht : k.currentTask = some t) (hl : Live k t)
    (hvirt : k.curPml4eVirt = (k.tasks t).pml4e) (hf : Forked (liveRoots k) t c k k') :
    KInv k' ∧ Proceeds k k' := by
  have hcr3 : k.cr3 = root k t := by rw [Kernel.cr3, hvirt]; rfl
  have hidle : ¬ Live k c := fun hlc => hlc hf.free
  have hlive := Forked.live_iff hl hf
  have hroot : ∀ s, Live k s → (k'.tasks s).pml4e = (k.tasks s).pml4e := fun s hs => Forked.pml4e_eq hl hf hs
  have hroots := Forked.liveRoots_eq hl hf
  have hev : Evolves (liveRoots k) (liveRoots k') k k' := by rw [hroots]; exact hf.evolves
  refine ⟨⟨hev.sound, ?_, ?_, ?_, ?_, ?_⟩, hev, fun s hs => ⟨(hlive s).mpr (Or.inr hs), hroot s hs⟩⟩
  · exact ⟨t, hf.currentTask.trans ht, (hlive t).mpr (Or.inr hl), by
      rw [hf.curPml4eVirt, hvirt, hf.pml4e]⟩
  · intro s hs
    rcases (hlive s).mp hs with rfl | hs
    · exact hf.childOk
    · by_cases hst : s = t
      · subst hst; exact hf.ok
      · rw [hf.others s hst (by rintro rfl; exact hidle hs)]
        exact h.ok s hs
  · intro s hs a ha
    rcases (hlive s).mp hs with rfl | hs
    · rw [hf.pages] at ha
      by_cases hcov : Covered (k'.tasks t) a
      · obtain ⟨-, g, -, hg, -, -, hgc, -⟩ := hf.copied a ha hcov
        exact ⟨g, hg, by rw [hroots]; exact hgc⟩
      · obtain ⟨f, hfa, hfc⟩ := hf.data a ha
        exact ⟨f, (hf.shared a hcov).trans hfa, by rw [hroots]; exact hfc⟩
    · rw [root, hroot s hs]
      by_cases hst : s = t
      · subst hst
        have hd := hf.data a ha
        rw [hcr3] at hd
        rw [hroots]
        exact hd
      · rw [hf.others s hst (by rintro rfl; exact hidle hs)] at ha
        exact hev.data (mem_liveRoots hs) (h.data s hs a ha)
  · intro d hd i hi
    have hdc : d ≠ c := by rintro rfl; exact hd ((hlive d).mpr (Or.inl rfl))
    have hdl : ¬ Live k d := fun hl => hd ((hlive d).mpr (Or.inr hl))
    have hdt : d ≠ t := by rintro rfl; exact hdl hl
    rw [hf.others d hdt hdc]
    exact h.idle d hdl i hi
  · -- the child's tree is a new one
    have hold : ∀ s, Live k s → root k' s ≠ root k' c := by
      intro s hs he
      apply hf.new
      rw [show frameAt (k'.tasks c).pml4e = root k' c from rfl, ← he, root, hroot s hs]
      exact mem_liveRoots hs
    intro s u hs hu he
    rcases (hlive s).mp hs with rfl | hs <;> rcases (hlive u).mp hu with rfl | hu
    · rfl
    · exact absurd he.symm (hold u hu)
    · exact absurd he (hold s hs)
    · rw [root, root, hroot s hs, hroot u hu] at he
      exact h.distinct s u hs hu he

/-- Memory evolves and the task table stays as it is. -/
theorem KInv.same_tasks (h : KInv k) (htasks : k'.tasks = k.tasks)
    (hev : Evolves (liveRoots k) (liveRoots k) k k')
    (hcur : ∃ t, k'.currentTask = some t ∧ Live k t ∧ k'.curPml4eVirt = (k.tasks t).pml4e) :
    KInv k' ∧ Proceeds k k' := by
  have hroots : liveRoots k' = liveRoots k :=
    liveRoots_congr (fun t => by rw [htasks]; exact ⟨rfl, rfl⟩)
  have hlive : ∀ s, Live k' s ↔ Live k s := fun s => by rw [Live, Live, htasks]
  have hroot : ∀ s, root k' s = root k s := fun s => by rw [root, root, htasks]
  have hev' : Evolves (liveRoots k) (liveRoots k') k k' := by rw [hroots]; exact hev
  obtain ⟨t, ht, hl, hvirt⟩ := hcur
  refine ⟨⟨hev'.sound, ⟨t, ht, (hlive t).mpr hl, by rw [htasks]; exact hvirt⟩, ?_, ?_, ?_, ?_⟩, hev',
    fun s hs => ⟨(hlive s).mpr hs, by rw [htasks]⟩⟩
  · intro s hs
    rw [htasks]
    exact h.ok s ((hlive s).mp hs)
  · intro s hs a ha
    rw [htasks] at ha
    rw [hroot]
    exact hev'.data (mem_liveRoots ((hlive s).mp hs)) (h.data s ((hlive s).mp hs) a ha)
  · intro c hc
    rw [htasks]
    exact h.idle c (fun hl => hc ((hlive c).mpr hl))
  · intro s u hs hu he
    rw [hroot, hroot] at he
    exact h.distinct s u ((hlive s).mp hs) ((hlive u).mp hu) he

theorem KInv.step {op : Op} (h : KInv k) (hm : Meets k op) (hs : step k op = some k') :
    KInv k' ∧ Proceeds k k' := by
  obtain ⟨t, ht, hl, hvirt⟩ := h.current
  have hcr3 : k.cr3 = root k t := by rw [Kernel.cr3, hvirt]; rfl
  have hr : k.cr3 ∈ liveRoots k := hcr3 ▸ mem_liveRoots hl
  rw [Process.step, ht, Option.bind_some] at hs
  cases op with
  | alloc =>
    simp only [Option.map_eq_some_iff] at hs
    obtain ⟨⟨v, k₁⟩, halloc, rfl⟩ := hs
    obtain ⟨g, -, -, -, hfresh, -⟩ := iVirtAlloc_page h.sound hr halloc
    exact h.works ht (works_fresh h.sound hfresh)
  | brk =>
    simp only [Option.map_eq_some_iff] at hs
    obtain ⟨⟨v, k₁⟩, hbrk, rfl⟩ := hs
    exact h.works ht (brk_spec h.sound hr hbrk).1.toWorks
  | kmalloc size =>
    simp only [Option.map_eq_some_iff] at hs
    obtain ⟨⟨v, k₁⟩, hmalloc, rfl⟩ := hs
    exact h.works ht (kmalloc_spec h.sound hr hmalloc).toWorks
  | exec c => exact h.works ht (kexecvpe_spec h.sound hr hm hs).1
  | fork env regs =>
    obtain ⟨c, -, hf⟩ := kfork_spec h.sound hr hcr3.symm hl (h.ok t hl)
      (hcr3.symm ▸ h.data t hl) h.idle hs
    exact h.forked ht hl hvirt hf
  | store v b =>
    obtain ⟨t', ht', a, ha, hv⟩ := hm
    obtain rfl : t = t' := Option.some.inj (ht.symm.trans ht')
    have hd : Data (liveRoots k) k k.cr3 v := by
      obtain ⟨f, hf, hfc⟩ := h.data t hl a ha
      rw [hcr3]
      exact ⟨f, (translate_page hv).trans hf, hfc⟩
    have hev := evolves_store h.sound hd hs
    obtain ⟨-, -, -, -, heq⟩ := storeByte_some hs
    exact h.same_tasks (by rw [heq]) hev
      ⟨t, by rw [heq]; exact ht, hl, by rw [heq]; exact hvirt⟩
  | switch u =>
    simp only [switchTask] at hs
    split at hs
    · rename_i hu
      rw [Option.some.injEq] at hs
      subst hs
      exact h.same_tasks rfl (h.sound.evolves_same rfl rfl) ⟨u, rfl, hu, rfl⟩
    · cases hs

/-- The invariant along whole runs. -/
theorem KInv.run {ops : List Op} (h : KInv k) (hm : Transition.Along Process.step Meets k ops)
    (hr : Transition.run Process.step k ops = some k') : KInv k' ∧ Proceeds k k' := by
  refine Transition.run_invariant Process.step (C := Meets) (P := fun k' => KInv k' ∧ Proceeds k k') ?_
    ⟨h, proceeds_refl h⟩ hm hr
  rintro k₁ op k₂ hm ⟨h₁, hp₁⟩ hs
  obtain ⟨h₂, hp₂⟩ := h₁.step hm hs
  exact ⟨h₂, hp₁.trans hp₂⟩

end KernelInvariant
