import DeepOS.BootRun
import DeepOS.ExecMemory
import DeepOS.ForkRun

/-!
# Isolation after a fork

`kfork` copies the pages that the first ten slots of the parent's `vma` table list. The
child has a copy of these, and of no other page: those are shared from then on.
-/
namespace ForkLaw

open PhyMem TaskTable PageTable PageMap VirtAlloc AddressSpace TaskPages Fork Boot BootTables BootPages BootRun ForkRun
open Process hiding Op step
open KernelInvariant hiding Meets
open ExecMemory (Op step Meets step_fork kinv_step kinv_run)
open LoadImage (evolves_store storeByte_some)

def pageSeen (k : Kernel) (t : Slot) (a : Word) : Option (Fin 512 → Word) :=
  (translate k (root k t) a).map k.mem

def Copied (k : Kernel) (t c : Slot) (a : Word) : Prop :=
  ∃ f g, translate k (root k t) a = some f ∧ translate k (root k c) a = some g ∧ f ≠ g ∧ k.mem g = k.mem f

/-- At no later time does a store to the page by one of the tasks change what the other finds. -/
def Unseen (k : Kernel) (t c : Slot) (a : Word) : Prop :=
  ∀ ops k₁, Transition.Along step Meets k ops → Transition.run step k ops = some k₁ →
    ∀ u w, u = t ∧ w = c ∨ u = c ∧ w = t → k₁.currentTask = some u →
      ∀ v b k₂, vpn v = vpn a → step k₁ (.store v b) = some k₂ → pageSeen k₂ w a = pageSeen k₁ w a

/-- The child has its own copy of the page. -/
def Isolated (k : Kernel) (t c : Slot) (a : Word) : Prop := Copied k t c a ∧ Unseen k t c a

variable {R : Set Nat} {t c u w : Slot} {k k' k₁ k₂ : Kernel} {a : Word}

/-! ## Stores -/

/-- A store to the page goes to the frame of the storing task. -/
theorem store_unseen {v : Word} {b : BitVec 8} (h : KInv k₁) (hu : k₁.currentTask = some u) (hw : Live k₁ w)
    (hap : Apart (liveRoots k₁) k₁ (root k₁ u) (root k₁ w) a) (hv : vpn v = vpn a)
    (hs : step k₁ (.store v b) = some k₂) : pageSeen k₂ w a = pageSeen k₁ w a := by
  obtain ⟨f, g, hf, hg, hfg, hfc, -⟩ := hap
  obtain ⟨u', hu', -, hvirt⟩ := h.current
  obtain rfl : u = u' := Option.some.inj (hu.symm.trans hu')
  have hcr3 : k₁.cr3 = root k₁ u := by rw [Kernel.cr3, hvirt]; rfl
  have hstore : storeByte k₁ v b = some k₂ := by
    rw [step, hu, Option.bind_some] at hs
    exact hs
  rw [← hcr3, ← translate_page hv] at hf
  obtain ⟨f', hf', -, hout, heq⟩ := storeByte_some hstore
  obtain rfl : f = f' := Option.some.inj (hf.symm.trans hf')
  have hroot : root k₂ w = root k₁ w := by rw [heq]; rfl
  have hwalk : walk k₂ (root k₁ w) a = walk k₁ (root k₁ w) a := by
    refine RadixForest.leaf_outside (fun x hx => hout x ?_) (mem_liveRoots hw) (pathOf_length a).le _
    rintro rfl
    exact hfc (Or.inr hx)
  rw [pageSeen, pageSeen, hroot, translate_congr hwalk, hg, Option.map_some, Option.map_some, hout g (Ne.symm hfg)]

theorem unseen_of_apart (h : KInv k) (ht : Live k t) (hc : Live k c) (hne : t ≠ c)
    (hap : Apart (liveRoots k) k (root k t) (root k c) a) : Unseen k t c a := by
  intro ops k₁ hm hr u w hpair hu v b k₂ hv hs
  obtain ⟨h₁, hp⟩ := kinv_run h hm hr
  have hap₁ := hp.apart h ht hc hne hap
  rcases hpair with ⟨rfl, rfl⟩ | ⟨rfl, rfl⟩
  · exact store_unseen h₁ hu (hp.tasks _ hc).1 hap₁ hv hs
  · obtain ⟨f, g, hf, hg, hfg, hfc, hgc⟩ := hap₁
    exact store_unseen h₁ hu (hp.tasks _ ht).1 ⟨g, f, hg, hf, hfg.symm, hgc, hfc⟩ hv hs

/-! ## The areas of the parent -/

/-- The areas for new heap pages do not list a page that was obtained before. -/
theorem covered_areas {r : Nat} {s s' : TaskMem} (h : Sound R k) (hr : r ∈ R) (hd : Data R k r a)
    (hareas : Areas (freeFrames k.memMap) s s') : Covered s' a ↔ Covered s a := by
  constructor
  · rintro ⟨i, hi, hne, x, hx, hx', hv⟩
    rcases hareas i (List.mem_range.mp hi) with heq | ⟨-, hnew⟩
    · rw [heq] at hne hx hx'
      exact ⟨i, hi, hne, x, hx, hx', hv⟩
    · obtain ⟨g, hg, heq⟩ := hnew hne
      rw [heq] at hx hx'
      rw [vpn_of_page (window_aligned (h.low g hg)) hx hx'] at hv
      exact absurd hv.symm (h.off_window hr hd (Or.inl hg))
  · rintro ⟨i, hi, hne, x, hx, hx', hv⟩
    rcases hareas i (List.mem_range.mp hi) with heq | ⟨hzero, -⟩
    · refine ⟨i, hi, ?_, x, ?_, ?_, hv⟩
      · rw [heq]
        exact hne
      · rw [heq]
        exact hx
      · rw [heq]
        exact hx'
    · exact absurd hzero hne

/-! ## The fork -/

/-- A fork by the running task `t`, whose child gets the slot `c`. -/
theorem fork_forked {env : List (BitVec 32)} {regs : Word} (h : KInv k)
    (hs : Process.step k (.fork env regs) = some k') :
    ∃ t c, k.currentTask = some t ∧ getNextFreeTask k = some c ∧ Live k t ∧ k.cr3 = root k t ∧
      Forked (liveRoots k) t c k k' ∧ KInv k' := by
  obtain ⟨t, ht, hl, hvirt⟩ := h.current
  have hcr3 : k.cr3 = root k t := by rw [Kernel.cr3, hvirt]; rfl
  rw [Process.step, ht, Option.bind_some] at hs
  obtain ⟨c, hc, hf⟩ := kfork_spec h.sound (hcr3 ▸ mem_liveRoots hl) hcr3.symm hl (h.ok t hl)
    (hcr3.symm ▸ h.data t hl) h.idle hs
  exact ⟨t, c, ht, hc, hl, hcr3, hf, (h.forked ht hl hvirt hf).1⟩

/-- Of all pages that the parent has behind the fork. -/
theorem isolated_iff (ht : Live k t) (hcr3 : k.cr3 = root k t) (hf : Forked (liveRoots k) t c k k')
    (h' : KInv k') (ha : a ∈ (k'.tasks t).pages) : Isolated k' t c a ↔ Covered (k'.tasks t) a := by
  have hroot : root k' t = k.cr3 := by rw [root, hf.pml4e, hcr3]; rfl
  constructor
  · rintro ⟨⟨f, g, hfa, hga, hne, -⟩, -⟩
    by_contra hcov
    rw [root, hf.shared a hcov, ← hroot, hfa] at hga
    exact hne (Option.some.inj hga)
  · intro hcov
    obtain ⟨f, g, hfa, hga, hne, hfc, hgc, hmem⟩ := hf.copied a ha hcov
    have hlt : Live k' t := (Forked.live_iff ht hf t).mpr (Or.inr ht)
    have hlc : Live k' c := (Forked.live_iff ht hf c).mpr (Or.inl rfl)
    have htc : t ≠ c := by
      rintro rfl
      exact ht hf.free
    rw [← hroot] at hfa
    refine ⟨⟨f, g, hfa, hga, hne, hmem⟩, unseen_of_apart h' hlt hlc htc ⟨f, g, hfa, hga, hne, ?_, ?_⟩⟩
    · rw [Forked.liveRoots_eq ht hf]
      exact hfc
    · rw [Forked.liveRoots_eq ht hf]
      exact hgc

theorem covered_slot {s : TaskMem} {i g : Nat} (hi : i < VMA_SCANNED) (hg : g < WINDOW_FRAMES)
    (h : s.vma i = ⟨window g, window g + 4095⟩) : Covered s (window g) := by
  have htoNat := window_toNat hg
  rw [WINDOW_FRAMES] at hg
  refine ⟨i, List.mem_range.mpr hi, ?_⟩
  rw [h]
  refine ⟨window_ne_zero hg, window g, BitVec.le_refl _, ?_, rfl⟩
  rw [BitVec.lt_def, BitVec.toNat_add, htoNat, show (4095 : Word).toNat = 4095 from rfl]
  omega

theorem not_covered {F : Set Nat} {s : TaskMem} (hon : OnStacks F s) (hlow : ∀ g ∈ F, g < WINDOW_FRAMES)
    (ha : ∀ g ∈ F, vpn a ≠ vpn (window g)) : ¬ Covered s a := by
  rintro ⟨i, hi, hne, x, hx, hx', hv⟩
  obtain ⟨g, hg, heq⟩ := hon i (List.mem_range.mp hi) hne
  rw [heq] at hx hx'
  rw [vpn_of_page (window_aligned (hlow g hg)) hx hx'] at hv
  exact ha g hg hv.symm

theorem shell_low {f : Nat} (hf : f ∈ freeOf shellStart) : f + 1 < WINDOW_FRAMES := by
  have hle := ((mem_freeOf_shell f).mp hf).2
  rw [WINDOW_FRAMES]
  omega

/-- Behind the boot of the machine `init_sh` can fork. -/
theorem shell_forks : ∃ t k₁ k₂ k₃ k k', Stages shellStart t k₁ k₂ k₃ k ∧
    Process.step k (.fork [9] 0) = some k' := by
  obtain ⟨t, k₁, k₂, k₃, k, hst, hsup⟩ := shell_boots
  have hrunning := Stages.running shell_ok hst
  have hkinv := boot_kinv shell_ok (Stages.boot hst)
  have hcore := Stages.core_free shell_ok hst
  have hcard := ncard_freeOf_shell
  obtain ⟨F, hF, hon, -⟩ := Stages.stacks shell_ok rfl hst
  have hroot : frameAt (k.tasks t).pml4e = k.cr3 := by rw [hrunning.tables]; rfl
  obtain ⟨c, hc⟩ : ∃ c, getNextFreeTask k = some c := by
    refine Option.isSome_iff_exists.mp (List.find?_isSome.mpr ?_)
    by_cases ht : t = 0
    · exact ⟨1, List.mem_finRange 1, by simpa using (hrunning.others 1 (by rw [ht]; decide)).1⟩
    · exact ⟨0, List.mem_finRange 0, by simpa using (hrunning.others 0 (Ne.symm ht)).1⟩
  have hareas : ∀ i < VMA_SCANNED, ((k.tasks t).vma i).startAddr ≠ 0 → PageArea ((k.tasks t).vma i) := by
    intro i hi hne
    obtain ⟨g, hg, heq⟩ := hon i hi hne
    exact ⟨g, shell_low (hF hg), heq⟩
  have hfin : (freeOf shellStart).Finite := Set.finite_of_ncard_ne_zero (by omega)
  obtain ⟨k', hfork⟩ : ∃ k', kfork k t [9] 0 = some k' := kfork_isSome 0 hrunning.sound rfl hroot hrunning.live
    (hkinv.ok t hrunning.live) hrunning.data hc hareas (fun f hf => shell_low (hcore (Or.inl hf))) hfin hcore
    (by rw [hcard, List.length_singleton]; omega)
  refine ⟨t, k₁, k₂, k₃, k, k', hst, ?_⟩
  rw [Process.step, hrunning.current, Option.bind_some]
  exact hfork

end ForkLaw
