import DeepOS.RadixPaths
import DeepOS.Supply

/-!
# Forking with enough frames

A fork takes two frames for each table of the parent, and up to five for each page that
its `vma` table lists.
-/
namespace ForkRun

open PhyMem TaskTable PageTable PageMap VirtAlloc Clone Process AddressSpace TaskPages Fork
  KernelInvariant Supply
open RadixForest (follow nodes paths TreeIn)

variable {R : Set Nat} {t child : Slot} {k k' : Kernel}

/-! ## Counting tables -/

/-- The tables of a tree are counted by its paths. -/
theorem exists_paths (m : Nat → Fin 512 → Word) (d : Nat) : ∀ r : Nat, ∃ T : Finset (List (Fin 512)),
    T.card = tableCount m d r ∧ ∀ p, p ∈ T ↔ p.length ≤ d ∧ (follow next m r p).isSome := by
  classical
  induction d with
  | zero =>
    intro r
    refine ⟨{[]}, rfl, fun p => ?_⟩
    rw [Finset.mem_singleton, Nat.le_zero, List.length_eq_zero_iff]
    constructor
    · rintro rfl
      exact ⟨rfl, rfl⟩
    · exact fun h => h.1
  | succ d ih =>
    intro r
    choose T hcard hmem using ih
    let below (i : Fin 512) : Finset (List (Fin 512)) :=
      ((next (m r i)).elim ∅ T).map ⟨List.cons i, List.cons_injective⟩
    have hbelow : ∀ i p, p ∈ below i ↔ ∃ q, p = i :: q ∧ q.length ≤ d ∧ (follow next m r (i :: q)).isSome := by
      intro i p
      rw [Finset.mem_map]
      cases hg : next (m r i) with
      | none => simp [follow, hg]
      | some g =>
        simp only [Option.elim_some, hmem, Function.Embedding.coeFn_mk, follow, hg, Option.bind_some]
        constructor
        · rintro ⟨q, hq, rfl⟩
          exact ⟨q, rfl, hq⟩
        · rintro ⟨q, rfl, hq⟩
          exact ⟨q, hq, rfl⟩
    have hdisjoint : (↑(Finset.univ : Finset (Fin 512)) : Set (Fin 512)).PairwiseDisjoint below := by
      intro i _ j _ hij
      rw [Function.onFun, Finset.disjoint_left]
      intro p hi hj
      obtain ⟨q, rfl, -⟩ := (hbelow i p).mp hi
      obtain ⟨q', heq, -⟩ := (hbelow j _).mp hj
      exact hij (List.cons.inj heq).1
    have hnil : [] ∉ Finset.univ.biUnion below := by
      rw [Finset.mem_biUnion]
      rintro ⟨i, -, hi⟩
      obtain ⟨q, hq, -⟩ := (hbelow i []).mp hi
      cases hq
    refine ⟨insert [] (Finset.univ.biUnion below), ?_, fun p => ?_⟩
    · have hone : ∀ i, (below i).card = (next (m r i)).elim 0 (tableCount m d) := by
        intro i
        rw [Finset.card_map]
        cases next (m r i) with
        | none => rfl
        | some g => exact hcard g
      rw [Finset.card_insert_of_notMem hnil, Finset.card_biUnion hdisjoint, tableCount_succ, Nat.add_comm,
        ← Fin.sum_univ_def]
      exact congrArg (1 + ·) (Finset.sum_congr rfl fun i _ => hone i)
    · rw [Finset.mem_insert, Finset.mem_biUnion]
      constructor
      · rintro (rfl | ⟨i, -, hi⟩)
        · exact ⟨Nat.zero_le _, rfl⟩
        · obtain ⟨q, rfl, hlen, hq⟩ := (hbelow i p).mp hi
          exact ⟨Nat.succ_le_succ hlen, hq⟩
      · rintro ⟨hlen, hp⟩
        cases p with
        | nil => exact Or.inl rfl
        | cons i q => exact Or.inr ⟨i, Finset.mem_univ i, (hbelow i _).mpr ⟨q, rfl, Nat.le_of_succ_le_succ hlen, hp⟩⟩

theorem tableCount_eq {r : Nat} (h : MemInv {r} k) : tableCount k.mem 3 r = (nodes next 3 k.mem {r}).ncard := by
  obtain ⟨T, hcard, hmem⟩ := exists_paths k.mem 3 r
  have hset : paths next 3 k.mem r = ↑T := by
    ext p
    rw [Finset.mem_coe, hmem]
    rfl
  rw [← RadixForest.ncard_paths h.forest, hset, Set.ncard_coe_finset, hcard]

/-! ## The copies -/

theorem cloneTables_isSome (h : Sound R k) (hr : k.cr3 ∈ R) (hroot : frameAt (k.tasks t).pml4e = k.cr3)
    (hn : 2 * (nodes next 3 k.mem {k.cr3}).ncard ≤ supply k) : ∃ k', cloneTables k t child = some k' ∧
      supply k ≤ supply k' + 2 * (nodes next 3 k.mem {k.cr3}).ncard := by
  have hinv := AddressSpace.MemInv.mono h.inv (Set.singleton_subset_iff.mpr hr)
  have hcount := tableCount_eq hinv
  rw [← hroot] at hinv hcount
  obtain ⟨r, hclone⟩ := clone_isSome 3 (h.ready hr) (CloneLaw.MemInv.treeIn hinv) hinv.used
    (by rw [hcount, hroot, ncard_lowFrames h]; exact hn)
  obtain ⟨T, hc⟩ := clones 3 (h.ready hr) (CloneLaw.MemInv.treeIn hinv) hinv.used (h.lowFor _) hclone
  have htaken := supply_taken hc.fresh.sub
  rw [hc.count, hcount, hroot] at htaken
  refine ⟨modifyTask r.2 child fun s => { s with pml4e := r.1 }, ?_, ?_⟩
  · rw [cloneTables, hclone, Option.map_some]
  · rw [supply_modifyTask]
    omega

theorem canonical_window {g : Nat} (hg : g < WINDOW_FRAMES) : Canonical (window g) := by
  rw [Canonical, window_toNat hg]
  omega

theorem copyPage_isSome {v : Word} {dst f : Nat} (h : Sound R k) (hr : k.cr3 ∈ R) (hdst : dst ∈ R)
    (hne : k.cr3 ≠ dst) (hroot : frameAt (k.tasks child).pml4e = dst) (hf : translate k k.cr3 v = some f)
    (hfc : f ∉ core R k) (hv : Canonical v) (hn : 5 ≤ supply k) :
    ∃ k', copyPage child k v = some k' ∧ supply k ≤ supply k' + 5 := by
  obtain ⟨p, k₁, halloc, hk₁⟩ := iVirtAlloc_isSome h hr (by omega)
  obtain ⟨g₁, -, -, -, hfresh, -⟩ := iVirtAlloc_page h hr halloc
  have hsound₁ := (h.evolves_fresh hfresh).sound
  have hchild : frameAt (k₁.tasks child).pml4e ∈ R := by
    rw [hfresh.same.tasks, hroot]
    exact hdst
  obtain ⟨k₂, hmap, hk₂⟩ := map_isSome v (iVirtToPhy p) (some child) hsound₁ hchild (by omega)
  obtain ⟨g, rfl, hready⟩ := readyToCopy h hr hdst hne hroot hf hfc halloc hmap
  have htarget : access k₂ (window g) = some g := by
    rw [access, if_pos (canonical_window hready.below)]
    exact hready.target
  have hsource : access k₂ v = some f := by
    rw [access, if_pos hv]
    exact hready.source
  refine ⟨{ k₂ with mem := Function.update k₂.mem g (k₂.mem f) }, ?_, ?_⟩
  · have hcopy : memcpyPage k₂ (window g) v = some { k₂ with mem := Function.update k₂.mem g (k₂.mem f) } := by
      simp only [memcpyPage, bind, htarget, hsource, Option.bind_some]
    simp only [copyPage, bind, halloc, Option.bind_some]
    rw [hmap, Option.bind_some, hcopy]
  · have hsame : supply { k₂ with mem := Function.update k₂.mem g (k₂.mem f) } = supply k₂ := by
      rw [supply, supply]
    omega

def PageArea (area : Vma) : Prop := ∃ g, g + 1 < WINDOW_FRAMES ∧ area = ⟨window g, window g + 4095⟩

/-- The loop over such an area turns once. -/
theorem copyPages_page {g : Nat} (hg : g + 1 < WINDOW_FRAMES) (fuel : Nat) :
    copyPages child (window g + 4095) (fuel + 2) (window g) k = copyPage child k (window g) := by
  have htoNat := window_toNat (g := g) (by omega)
  rw [WINDOW_FRAMES] at hg
  have hlt : window g < window g + 4095 := by
    rw [BitVec.lt_def, BitVec.toNat_add, htoNat, show (4095 : Word).toNat = 4095 from rfl]
    omega
  have hstop : ¬ window g + 4096 < window g + 4095 := by
    rw [BitVec.lt_def, BitVec.toNat_add, BitVec.toNat_add, htoNat, show (4095 : Word).toNat = 4095 from rfl,
      show (4096 : Word).toNat = 4096 from rfl]
    omega
  rw [copyPages, if_pos hlt]
  cases copyPage child k (window g) with
  | none => rfl
  | some k' => rw [Option.bind_some, copyPages, if_neg hstop]

section

variable {dst : Nat} {parent : Slot} {k₀ : Kernel} (hr : k₀.cr3 ∈ R) (hdst : dst ∈ R) (hne : k₀.cr3 ≠ dst)
  (hroot : frameAt (k₀.tasks child).pml4e = dst) (hpc : parent ≠ child) (hok : TaskOk (k₀.tasks parent))
  (hd : ∀ a ∈ (k₀.tasks parent).pages, Data R k₀ k₀.cr3 a)

include hr hdst hne hroot hpc hok hd

theorem copyVma_isSome {i : Nat} {S : Set Nat} (hi : i < VMA_SCANNED)
    (h : Copying R k₀.cr3 dst child k₀ k S)
    (harea : ((k₀.tasks parent).vma i).startAddr ≠ 0 → PageArea ((k₀.tasks parent).vma i)) (hn : 5 ≤ supply k) :
    ∃ k', copyVma parent child k i = some k' ∧ supply k ≤ supply k' + 5 := by
  rw [copyVma, h.others parent hpc]
  by_cases h0 : ((k₀.tasks parent).vma i).startAddr = 0
  · exact ⟨k, if_pos h0, Nat.le_add_right _ _⟩
  · obtain ⟨g, hg, heq⟩ := harea h0
    have hpage : Data R k₀ k₀.cr3 (window g) := by
      have hwindow := window_toNat (g := g) (by omega)
      have hin : window g < window g + 4095 := by
        rw [WINDOW_FRAMES] at hg
        rw [BitVec.lt_def, BitVec.toNat_add, hwindow, show (4095 : Word).toNat = 4095 from rfl]
        omega
      obtain ⟨a, ha, hv⟩ := (hok i hi h0).2 (window g) (by rw [heq]; exact BitVec.le_refl _) (by rw [heq]; exact hin)
      obtain ⟨f, hf, hfc⟩ := hd a ha
      exact ⟨f, (translate_page hv).symm.trans hf, hfc⟩
    obtain ⟨f, hf, hfc⟩ := hpage
    have h₁ := h.setVma (Function.update (k.tasks child).vma i ((k₀.tasks parent).vma i))
    have hpos : 0 < FRAMES := by decide
    obtain ⟨fuel, hfuel⟩ : ∃ fuel, FRAMES + 1 = fuel + 2 := ⟨FRAMES - 1, by omega⟩
    rw [if_neg h0, heq, hfuel, copyPages_page hg]
    rw [heq] at h₁
    have hcr3 : k.cr3 = k₀.cr3 := by rw [Kernel.cr3, Kernel.cr3, h.curPml4eVirt]
    refine copyPage_isSome h₁.evolves.sound (hcr3.symm ▸ hr) hdst (hcr3.symm ▸ hne)
      ((congrArg (fun s => frameAt s.pml4e) h₁.child).trans hroot) (f := f) ?_ (fun hm => hfc (h₁.evolves.core hm)) (canonical_window (by omega)) hn
    show PageTable.translate _ k.cr3 (window g) = some f
    rw [hcr3]
    exact (translate_congr (h₁.walks _ hr hne _)).trans hf

theorem copyVmas_isSome (h : Sound R k₀)
    (hareas : ∀ i < VMA_SCANNED, ((k₀.tasks parent).vma i).startAddr ≠ 0 → PageArea ((k₀.tasks parent).vma i))
    (hn : 5 * VMA_SCANNED ≤ supply k₀) :
    ∃ k', Transition.run (copyVma parent child) k₀ (List.range VMA_SCANNED) = some k' := by
  have hstep : ∀ i < VMA_SCANNED, ∀ k, (∃ S, Copying R k₀.cr3 dst child k₀ k S) ∧ supply k₀ ≤ supply k + 5 * i →
      ∃ k', copyVma parent child k i = some k' ∧
        (∃ S, Copying R k₀.cr3 dst child k₀ k' S) ∧ supply k₀ ≤ supply k' + 5 * (i + 1) := by
    rintro i hi k₁ ⟨⟨S, hc⟩, hsup⟩
    obtain ⟨k₂, hs, hk₂⟩ := copyVma_isSome hr hdst hne hroot hpc hok hd hi hc (hareas i hi) (by omega)
    exact ⟨k₂, hs, ⟨_, (copyVma_spec hr hdst hne hroot hpc hok hd hi hc hs).1⟩, by omega⟩
  obtain ⟨k', hrun, -⟩ := Transition.run_range_some VMA_SCANNED hstep ⟨⟨∅, copying_refl h⟩, Nat.le_add_right _ _⟩
  exact ⟨k', hrun⟩

end

/-- All tables and free frames lie in `F`. -/
theorem kfork_isSome {env : List (BitVec 32)} {c : Slot} (regs : Word) (h : Sound R k) (hr : k.cr3 ∈ R)
    (hroot : frameAt (k.tasks t).pml4e = k.cr3) (hlive : Live k t) (hok : TaskOk (k.tasks t))
    (hd : ∀ a ∈ (k.tasks t).pages, Data R k k.cr3 a) (hc : Process.getNextFreeTask k = some c)
    (hareas : ∀ i < VMA_SCANNED, ((k.tasks t).vma i).startAddr ≠ 0 → PageArea ((k.tasks t).vma i))
    (hlow : ∀ f ∈ freeFrames k.memMap, f + 1 < WINDOW_FRAMES) {F : Set Nat} (hF : F.Finite) (hcore : core R k ⊆ F)
    (hn : 2 * F.ncard + 6 * env.length + 50 ≤ 3 * supply k) : ∃ k', kfork k t env regs = some k' := by
  have hfree : (k.tasks c).status = .free := by simpa using List.find?_some hc
  have htc : t ≠ c := by rintro rfl; exact hlive hfree
  have hle : supply k ≤ F.ncard := Set.ncard_le_ncard (Set.subset_union_left.trans hcore) hF
  obtain ⟨k₁, hcopy, hk₁⟩ := copyStrings_isSome (t := t) env h hr (by omega)
  have hcall := copyStrings_spec env h hr hcopy
  have hr₁ : k₁.cr3 ∈ R := hcall.cr3.symm ▸ hr
  have hroot₁ : frameAt (k₁.tasks t).pml4e = k₁.cr3 := by rw [hcall.pml4e, hroot, hcall.cr3]
  have hareas₁ : ∀ i < VMA_SCANNED, ((k₁.tasks t).vma i).startAddr ≠ 0 → PageArea ((k₁.tasks t).vma i) := by
    intro i hi h0
    rcases hcall.areas i hi with heq | ⟨-, hnew⟩
    · rw [heq] at h0 ⊢
      exact hareas i hi h0
    · obtain ⟨g, hg, heq⟩ := hnew h0
      exact ⟨g, hlow g hg, heq⟩
  -- the tables are those frames of `F` that are not free
  have hcount : (nodes next 3 k₁.mem {k₁.cr3}).ncard + supply k₁ ≤ F.ncard := by
    have hsub : nodes next 3 k₁.mem {k₁.cr3} ⊆ nodes next 3 k₁.mem R :=
      RadixForest.nodes_mono (Set.singleton_subset_iff.mpr hr₁)
    have hunion : nodes next 3 k₁.mem {k₁.cr3} ∪ freeFrames k₁.memMap ⊆ F := by
      rintro f (hf | hf)
      · exact hcore (hcall.evolves.core (Or.inr (hsub hf)))
      · exact hcore (hcall.evolves.core (Or.inl hf))
    have hdisjoint : Disjoint (nodes next 3 k₁.mem {k₁.cr3}) (freeFrames k₁.memMap) :=
      Set.disjoint_left.mpr fun f hf => hcall.evolves.sound.inv.used f (hsub hf)
    rw [supply, ← Set.ncard_union_eq hdisjoint (hF.subset (Set.subset_union_left.trans hunion)) (freeFrames_finite _)]
    exact Set.ncard_le_ncard hunion hF
  obtain ⟨k₂, hclone, hk₂⟩ : ∃ k₂, cloneTables k₁ t c = some k₂ ∧
      supply k₁ ≤ supply k₂ + 2 * (nodes next 3 k₁.mem {k₁.cr3}).ncard :=
    cloneTables_isSome hcall.evolves.sound hr₁ hroot₁ (by omega)
  obtain ⟨ptr, hev, hnew, -, htasks, -, hvirt, -, -⟩ := cloneTables_spec hcall.evolves.sound hr₁ hroot₁ hclone
  have hcr3₂ : k₂.cr3 = k₁.cr3 := by rw [Kernel.cr3, Kernel.cr3, hvirt]
  have hparent₂ : k₂.tasks t = k₁.tasks t := by rw [htasks, Function.update_of_ne htc]
  have hchild₂ : (k₂.tasks c).pml4e = ptr := by rw [htasks, Function.update_self]
  have hrR : k₂.cr3 ∈ insert (frameAt ptr) R := hcr3₂.symm ▸ Or.inr hr₁
  have hne : k₂.cr3 ≠ frameAt ptr := by
    intro he
    rw [hcr3₂] at he
    exact hnew (he ▸ hr₁)
  have hd₂ : ∀ a ∈ (k₂.tasks t).pages, Data (insert (frameAt ptr) R) k₂ k₂.cr3 a := by
    intro a ha
    rw [hparent₂] at ha
    rw [hcr3₂]
    refine hev.data hr₁ ?_
    rw [hcall.cr3]
    rcases hcall.gained a ha with ha | hda
    · exact hcall.evolves.data hr (hd a ha)
    · exact hda
  have hscanned : VMA_SCANNED = 10 := rfl
  obtain ⟨k₃, hrun⟩ := copyVmas_isSome hrR (Or.inl rfl) hne (by rw [hchild₂]) htc (hparent₂.symm ▸ hcall.ok hok) hd₂
    hev.sound (hparent₂.symm ▸ hareas₁) (by omega)
  refine ⟨modifyTask k₃ c (becomeChild (k₃.tasks t) regs), ?_⟩
  simp only [kfork, bind, hc, hcopy, hclone, hrun, Option.bind_some]

end ForkRun
