import DeepOS.BootMemory

/-!
# What the window covers

`identity_mapping` maps the window up to the end of the region that came last, and the
window has 256 MB. Pages above either end are free all the same.
-/
namespace WindowCover

open PhyMem TaskTable PageTable PageMap VirtAlloc Boot BootTables TablePaths BootPages BootMemory AddressSpace
open BootMap (Smap initMemMgmt kerPhysfree lastUsable)

/-- Both ways to make the window address of a frame agree, the address leads back to the
frame, and the tables in use map it there. -/
structure Covered (k : Kernel) (f : Nat) : Prop where
  same : frameAddr f ||| DUMB_MAPPING_VIRT = iPhyToVirt (frameAddr f)
  back : iVirtToPhy (iPhyToVirt (frameAddr f)) = frameAddr f
  above : DUMB_MAPPING_VIRT ≤ iPhyToVirt (frameAddr f)
  mapped : translate k k.cr3 (iPhyToVirt (frameAddr f)) = some f

/-- A word left over in a last table maps the window page of the frame. -/
def LeftCovers (c : Start) (f : Nat) : Prop :=
  pathOf (window f) ∈ tablesOfStart c ∧
    next (c.mem (tableFrame c (pathOf (window f))) (ptIndex (window f))) = some f

/-- The pages that the memory map makes free end below 256 MB, and not above the end of
its last usable entry, or happen to be mapped by a word left over. -/
def LastEndsHighest (c : Start) : Prop :=
  ∀ e ∈ c.entries, ∀ f, 256 < f → f < FRAMES → e.Reaches c.physbase c.physfree f →
    f < WINDOW_FRAMES ∧ ((∃ last, lastUsable c.entries = some last ∧ f ≤ last.lastPage) ∨ LeftCovers c f)

/-- No link is left over where `map` looks for one, or where the walk of a window address
of a free frame leaves the tables that were built. -/
structure LinksClean (c : Start) : Prop where
  mapped : CleanLinks c (tablesOfStart c)
  walked : ∀ f ∈ freeOf c, f < WINDOW_FRAMES → ∀ q i, q ++ [i] <+: pathOf (window f) → q ∈ tablesOfStart c →
    q ++ [i] ∉ tablesOfStart c → isPresent (c.mem (tableFrame c q) i) = false

/-! ## Addresses -/

theorem iPhyToVirt_toNat {f : Nat} (hf : f < FRAMES) :
    (iPhyToVirt (frameAddr f)).toNat = (f * 4096 + 18446744073441116160) % 2 ^ 64 := by
  rw [iPhyToVirt, BitVec.toNat_add, frameAddr_toNat hf]
  rfl

/-- From 256 MB on the sum wraps around. -/
theorem above_iff {f : Nat} (hf : f < FRAMES) : DUMB_MAPPING_VIRT ≤ iPhyToVirt (frameAddr f) ↔ f < WINDOW_FRAMES := by
  rw [BitVec.le_def, iPhyToVirt_toNat hf, dumb_toNat, WINDOW_FRAMES]
  rw [FRAMES] at hf
  omega

theorem or_eq {f : Nat} (hf : f < WINDOW_FRAMES) : frameAddr f ||| DUMB_MAPPING_VIRT = iPhyToVirt (frameAddr f) := by
  apply or_window
  rw [WINDOW_FRAMES] at hf
  rw [frameOf_frameAddr (by rw [FRAMES]; omega), WINDOW_FRAMES]
  exact hf

/-- Subtracting takes the sum back also where it has wrapped. -/
theorem iVirtToPhy_iPhyToVirt (p : Word) : iVirtToPhy (iPhyToVirt p) = p := by
  rw [iVirtToPhy, iPhyToVirt, BitVec.add_sub_cancel]

/-! ## The end of the window -/

theorem maxPhys_last (physbase physfree : Word) (entries : List Smap) (s : BootMap.MapState) :
    (entries.foldl (BootMap.initEntry physbase physfree) s).maxPhys =
      match lastUsable entries with
      | some e => e.base + e.length
      | none => s.maxPhys := by
  induction entries using List.reverseRecOn with
  | nil => rfl
  | append_singleton es e ih =>
    rw [List.foldl_append, List.foldl_cons, List.foldl_nil, initEntry_maxPhys]
    by_cases he : e.Usable
    · have hl : lastUsable (es ++ [e]) = some e := by simp [lastUsable, he]
      rw [if_pos he, hl]
    · have hl : lastUsable (es ++ [e]) = lastUsable es := by simp [lastUsable, he]
      rw [if_neg he, hl, ih]

theorem lt_windowPages {c : Start} {last : Smap} (h : lastUsable c.entries = some last) (f : Nat) :
    f < windowPages c.bootMap.maxPhys ↔ f ≤ last.lastPage := by
  have hmax : c.bootMap.maxPhys = last.base + last.length := by
    rw [Start.bootMap, initMemMgmt, maxPhys_last, h]
  rw [windowPages, hmax, Smap.lastPage, PHYS_PAGE_SIZE]
  omega

theorem lastUsable_isSome {entries : List Smap} {e : Smap} (he : e ∈ entries) (hu : e.Usable) :
    ∃ last, lastUsable entries = some last := by
  have hmem : e ∈ entries.filter fun e => decide e.Usable := List.mem_filter.mpr ⟨he, decide_eq_true hu⟩
  exact ⟨_, List.getLast?_eq_some_getLast (List.ne_nil_of_mem hmem)⟩

/-- The pages that are free are those that the memory map reaches. -/
theorem lastEndsHighest_iff {c : Start} (h0 : 0 ∉ freeOf c) : LastEndsHighest c ↔
    ∀ f ∈ freeOf c, f < WINDOW_FRAMES ∧ (f < windowPages c.bootMap.maxPhys ∨ LeftCovers c f) := by
  constructor
  · intro h f hf
    rcases (BootMap.free_iff c.physbase c.physfree c.entries c.memory hf.1).mp hf.2 with ⟨hlow, e, he, hr⟩ | ⟨rfl, -⟩
    · obtain ⟨hlt, hcase⟩ := h e he f hlow hf.1 hr
      exact ⟨hlt, hcase.imp_left fun ⟨last, hlast, hle⟩ => (lt_windowPages hlast f).mpr hle⟩
    · exact absurd hf h0
  · intro h e he f hlow hf hr
    have hfree : f ∈ freeOf c :=
      ⟨hf, (BootMap.free_iff c.physbase c.physfree c.entries c.memory hf).mpr (Or.inl ⟨hlow, e, he, hr⟩)⟩
    obtain ⟨last, hlast⟩ := lastUsable_isSome he hr.1
    obtain ⟨hlt, hcase⟩ := h f hfree
    exact ⟨hlt, hcase.imp_left fun hpages => ⟨last, hlast, (lt_windowPages hlast f).mp hpages⟩⟩

/-! ## The pages behind the kernel -/

structure Below1G (c : Start) : Prop where
  ram : ∀ e ∈ c.entries, e.Usable → e.base.toNat + e.length.toNat ≤ 2 ^ 30
  kernel : c.physfree.toNat ≤ 2 ^ 30

variable {c : Start}

theorem Below1G.windowPages_le (h : Below1G c) : windowPages c.bootMap.maxPhys ≤ 2 ^ 36 := by
  have hmax : c.bootMap.maxPhys.toNat ≤ 2 ^ 30 := by
    rw [Start.bootMap, initMemMgmt]
    rcases maxPhys_cases c.physbase c.physfree c.entries ⟨BootMap.initializeMemMap c.memory, 0, []⟩
      with heq | ⟨e, he, hu, heq⟩
    · rw [heq]
      exact (by decide : (0 : Word).toNat ≤ 2 ^ 30)
    · have hend := h.ram e he hu
      rw [heq, BitVec.toNat_add]
      omega
  rw [windowPages]
  omega

theorem Below1G.kernelPages_lt (h : Below1G c) : kernelPages c.physbase (kerPhysfree c.physfree) < 262160 := by
  have hkernel := h.kernel
  have hfree : (PHYSBASE_OFFSET + kerPhysfree c.physfree).toNat = c.physfree.toNat + 51200 := by
    rw [kerPhysfree, BitVec.toNat_add, BitVec.toNat_add, MEM_MAP_SIZE,
      show PHYSBASE_OFFSET.toNat = 18432 from rfl, BitVec.toNat_ofNat]
    omega
  rw [kernelPages, hfree]
  omega

/-- The image, and what follows it, ends below the window. -/
theorem off_window {i f : Nat} (hi : i < 262176) (hf : f < WINDOW_FRAMES) :
    vpn (kernmem + BitVec.ofNat 64 (i * 0x1000)) ≠ vpn (window f) := by
  rw [vpn_window hf, vpn, BitVec.toNat_add, BitVec.toNat_ofNat, show kernmem.toNat = 18446744071564165120 from rfl]
  rw [WINDOW_FRAMES] at hf
  omega

theorem vgaPage_eq (c : Start) (i : Nat) : vgaPage (vgaOf c) i =
    kernmem + BitVec.ofNat 64 ((kernelPages c.physbase (kerPhysfree c.physfree) + i) * 0x1000) := by
  rw [vgaPage, vgaOf, vgaVirt, BitVec.add_assoc, ← BitVec.ofNat_add, Nat.add_mul]

theorem Below1G.vga_off (h : Below1G c) {i f : Nat} (hi : i < vgaPages) (hf : f < WINDOW_FRAMES) :
    vpn (vgaPage (vgaOf c) i) ≠ vpn (window f) := by
  have hpages := h.kernelPages_lt
  have hfour : i < 4 := hi
  rw [vgaPage_eq]
  exact off_window (by omega) hf

/-! ## The frames that are covered -/

theorem pathOf_window_ne {f : Nat} (hf : f < WINDOW_FRAMES) : pathOf (window f) ≠ pathOf kernmem := by
  intro heq
  have hindex : pdpeIndex (window f) = pdpeIndex kernmem := by
    simp only [pathOf, List.cons.injEq] at heq
    exact heq.2.1
  rw [Fin.ext_iff, pdpeIndex, pdpeIndex, index_val, index_val, window, iPhyToVirt, frameAddr, PHYS_PAGE_SIZE,
    BitVec.toNat_add, BitVec.toNat_ofNat, dumb_toNat, show kernmem.toNat = 18446744071564165120 from rfl] at hindex
  rw [WINDOW_FRAMES] at hf
  omega

/-- The screen leaves the entries of the window as they are. -/
theorem Below1G.lookup_vga (h : Below1G c) {f : Nat} (hf : f < WINDOW_FRAMES) :
    (identityLeaves c).lookup (pagePath (window f)) = (windowLeaves c).lookup (pagePath (window f)) := by
  refine lookup_addLeaves_none fun i hi heq => ?_
  exact h.vga_off hi hf (pagePath_inj.mp heq)

/-- The entry of a window page holds its frame, up to the end of the window. -/
theorem Below1G.lookup_window (h : Below1G c) {f : Nat} (hf : f < WINDOW_FRAMES) :
    (identityLeaves c).lookup (pagePath (window f)) =
      if f < windowPages c.bootMap.maxPhys then some (mkEntry (frameAddr f)) else none := by
  have hle := h.windowPages_le
  have hpage : ∀ i, pagePath (windowPage i) = pagePath (window i) := fun i => by rw [windowPage, window_eq]
  have hinj : ∀ i < windowPages c.bootMap.maxPhys, pagePath (windowPage i) = pagePath (window f) → i = f := by
    intro i hi heq
    rw [hpage] at heq
    rw [WINDOW_FRAMES] at hf
    exact vpn_windowPage_inj (by omega) (by omega) (pagePath_inj.mp heq)
  rw [h.lookup_vga hf, windowLeaves]
  split
  · rename_i hlt
    rw [← hpage]
    exact lookup_addLeaves hlt fun i hi heq => hinj i hi (heq.trans (hpage f))
  · rename_i hge
    rw [lookup_addLeaves_none fun i hi heq => hge (hinj i hi heq ▸ hi), imageLeaves, lookup_addLeaves_none]
    · rfl
    · intro i _ heq
      exact pathOf_window_ne hf (List.append_singleton_inj.mp heq).1.symm

theorem window_mem_tables {f : Nat} (hf : f < windowPages c.bootMap.maxPhys) : pathOf (window f) ∈ tablesOfStart c := by
  have hmem := windowTables_subset c f hf
  rw [windowPage, window_eq] at hmem
  exact hmem (mem_tablesOf.mpr (List.prefix_refl _))

/-- Where the tables in use lead the window address of a free frame. -/
theorem translate_window {k : Kernel} (h : Below1G c) (hclean : LinksClean c)
    (hm : Holds c (tableUses c) (identityLeaves c) k) {f : Nat} (hf : f ∈ freeOf c) (hlt : f < WINDOW_FRAMES) :
    PageTable.translate k (tableFrame c []) (window f) = some f ↔
      f < windowPages c.bootMap.maxPhys ∨ LeftCovers c f := by
  rw [translate_eq]
  by_cases htable : pathOf (window f) ∈ tablesOfStart c
  · have hmem := some_mem_tableUses.mpr htable
    rw [hm.follow_table _ (pathOf_length _).le hmem, Option.bind_some, hm.mem _ _ hmem, ← pagePath,
      stored_leaf (pagePath_length _), h.lookup_window hlt]
    split
    · rename_i hpages
      rw [Option.getD_some, next_mkEntry, frameOf_frameAddr hf.1]
      exact iff_of_true rfl (Or.inl hpages)
    · rename_i hpages
      rw [Option.getD_none]
      exact ⟨fun hnext => Or.inr ⟨htable, hnext⟩, fun hcase => (hcase.resolve_left hpages).2⟩
  · have hnone : RadixForest.follow next k.mem (tableFrame c []) (pathOf (window f)) = none := by
      refine hm.follow_none _ (pathOf_length _).le (fun q i hpre hq hnew => ?_) (mt some_mem_tableUses.mp htable)
      exact hclean.walked f hf hlt q i hpre (some_mem_tableUses.mp hq) (mt some_mem_tableUses.mpr hnew)
    rw [hnone, Option.bind_none]
    refine iff_of_false (Option.some_ne_none f).symm ?_
    rintro (hpages | hleft)
    · exact htable (window_mem_tables hpages)
    · exact htable hleft.1

/-- A frame is covered if it lies below both ends. -/
theorem covered_iff {k : Kernel} (h : Below1G c) (hclean : LinksClean c)
    (hm : Holds c (tableUses c) (identityLeaves c) k) (hcr3 : k.cr3 = tableFrame c []) {f : Nat} (hf : f ∈ freeOf c) :
    Covered k f ↔ f < WINDOW_FRAMES ∧ (f < windowPages c.bootMap.maxPhys ∨ LeftCovers c f) := by
  constructor
  · intro hcov
    have hlt := (above_iff hf.1).mp hcov.above
    refine ⟨hlt, (translate_window h hclean hm hf hlt).mp ?_⟩
    rw [← hcr3]
    exact hcov.mapped
  · rintro ⟨hlt, hcase⟩
    refine ⟨or_eq hlt, iVirtToPhy_iPhyToVirt _, (above_iff hf.1).mpr hlt, ?_⟩
    rw [hcr3]
    exact (translate_window h hclean hm hf hlt).mpr hcase

/-- When no link is left over where the boot looks for one, the window covers the frames
that `page_alloc` gives out exactly if these lie below 256 MB and not above the end of the
last usable entry, or words left over in the tables map them. -/
theorem window_covers_iff (c : Start) {pml4e : Word} {k₁ k : Kernel} (h : Below1G c) (hclean : LinksClean c)
    (hkernel : mapKernel c.kernel c.physbase (kerPhysfree c.physfree) = some (pml4e, k₁))
    (hident : identityMapping pml4e (vgaOf c) c.bootMap.maxPhys k₁ = some k) :
    (∀ f ∈ freeOf c, Covered k f) ↔ LastEndsHighest c := by
  have h0 : 0 ∉ freeOf c := by
    simp only [mapKernel, bind, Option.bind_eq_some_iff] at hkernel
    obtain ⟨⟨p, k'⟩, halloc, -⟩ := hkernel
    exact zero_not_free halloc
  obtain ⟨ht, hroot, hm⟩ := identity_holds hclean.mapped hkernel hident
  -- on either side the frames lie below 256 MB, and so does the root
  have hcr3 : (∀ f ∈ freeOf c, f < WINDOW_FRAMES) → k.cr3 = tableFrame c [] := by
    intro hlow
    rw [Kernel.cr3, hroot, frameAt_or (by rw [ht]; exact hlow _ (hm.frame_mem hm.root)), ht]
  rw [lastEndsHighest_iff h0]
  constructor
  · intro hcov f hf
    have hlow : ∀ f ∈ freeOf c, f < WINDOW_FRAMES := fun f hf => (above_iff hf.1).mp (hcov f hf).above
    exact (covered_iff h hclean hm (hcr3 hlow) hf).mp (hcov f hf)
  · intro hends f hf
    exact (covered_iff h hclean hm (hcr3 fun f hf => (hends f hf).1) hf).mpr (hends f hf)

/-! ## The small machine -/

theorem small_below : Below1G smallStart := by
  refine ⟨fun e he _ => ?_, (by decide : (0x220000 : Word).toNat ≤ 2 ^ 30)⟩
  rw [List.mem_singleton.mp he]
  decide

theorem small_lastEndsHighest : LastEndsHighest smallStart := by
  rw [lastEndsHighest_iff (by rw [mem_freeOf_small]; omega)]
  intro f hf
  have hle := ((mem_freeOf_small f).mp hf).2
  have hpages : windowPages smallStart.bootMap.maxPhys = 289 := by
    rw [small_maxPhys]
    decide
  rw [hpages, WINDOW_FRAMES]
  exact ⟨by omega, Or.inl (by omega)⟩

/-- Some frames are left over behind the tables. -/
theorem small_room (c : Start) (hfree : freeOf c = freeOf smallStart) (hvga : vgaOf c = vgaOf smallStart)
    (hpages : windowPages c.bootMap.maxPhys ≤ 512) : (tableUses c).length < (freeOf c).ncard := by
  have hcard := (Finset.card_le_card (identityTables_low hpages)).trans (Finset.card_union_le _ _)
  rw [tablesOf_card, tablesOf_card] at hcard
  rw [length_tableUses, hfree, ncard_freeOf_small, tablesOfStart, hvga]
  omega

/-- Zeroed RAM has no links. -/
theorem linksClean_zero (hmem : c.mem = fun _ _ => 0) : LinksClean c := by
  have hword : ∀ f i, isPresent (c.mem f i) = false := by
    intro f i
    rw [hmem]
    exact (by decide : isPresent 0 = false)
  exact ⟨fun q i _ _ => hword _ i, fun f _ _ q i _ _ _ => hword _ i⟩

theorem window_covers_small : ∃ pml4e k₁ k,
    mapKernel smallStart.kernel 0x200000 (kerPhysfree 0x220000) = some (pml4e, k₁) ∧
      identityMapping pml4e (vgaOf smallStart) smallStart.bootMap.maxPhys k₁ = some k ∧
      ∀ f ∈ freeOf smallStart, Covered k f := by
  have hclean : LinksClean smallStart := linksClean_zero rfl
  have hroom := small_room smallStart rfl rfl (by rw [small_maxPhys]; decide)
  obtain ⟨pml4e, k₁, k, hkernel, hident⟩ := identity_isSome (c := smallStart) (by rw [mem_freeOf_small]; omega)
    hroom.le hclean.mapped
  refine ⟨pml4e, k₁, k, hkernel, hident, ?_⟩
  exact (window_covers_iff smallStart small_below hclean hkernel hident).mpr small_lastEndsHighest

def lowLastStart : Start := { smallStart with entries := [⟨0x110000, 0x10000, 1⟩, ⟨0x1000, 0x9E000, 1⟩] }

/-- Low memory is never freed. -/
theorem freeOf_lowLast : freeOf lowLastStart = freeOf smallStart := by
  have hlow : ∀ f, (⟨0x1000, 0x9E000, 1⟩ : Smap).Reaches 0x200000 0x220000 f → 1 ≤ f ∧ f ≤ 159 := by
    rintro f ⟨-, hfirst, hlast, -⟩
    exact ⟨hfirst, hlast⟩
  ext f
  rw [mem_freeOf_small]
  constructor
  · rintro ⟨hf, hset⟩
    rcases (BootMap.free_iff 0x200000 0x220000 lowLastStart.entries smallStart.memory hf).mp hset with
      ⟨hhigh, e, he, hr⟩ | ⟨rfl, e, he, hr⟩
    · rcases List.mem_pair.mp he with rfl | rfl
      · exact ⟨hr.2.1, hr.2.2.1⟩
      · have := hlow f hr
        omega
    · rw [show lastUsable lowLastStart.entries = some ⟨0x1000, 0x9E000, 1⟩ by decide] at he
      obtain rfl := Option.some.inj he
      have := hlow 0 hr
      omega
  · intro h
    have hmem := (mem_freeOf_small f).mpr h
    refine ⟨hmem.1, (BootMap.free_iff 0x200000 0x220000 lowLastStart.entries smallStart.memory hmem.1).mpr ?_⟩
    rcases (BootMap.free_iff 0x200000 0x220000 smallStart.entries smallStart.memory hmem.1).mp hmem.2 with
      ⟨hhigh, e, he, hr⟩ | ⟨rfl, -⟩
    · exact Or.inl ⟨hhigh, e, List.mem_cons.mpr (Or.inl (List.mem_singleton.mp he)), hr⟩
    · omega

theorem lowLast_windowPages : windowPages lowLastStart.bootMap.maxPhys = 160 := by
  have hmax : lowLastStart.bootMap.maxPhys = 0x9F000 := by
    rw [Start.bootMap, initMemMgmt, maxPhys_last, show lastUsable lowLastStart.entries = some ⟨0x1000, 0x9E000, 1⟩ by decide]
    decide
  rw [hmax]
  decide

theorem lowLast_below : Below1G lowLastStart := by
  refine ⟨fun e he _ => ?_, (by decide : (0x220000 : Word).toNat ≤ 2 ^ 30)⟩
  rcases List.mem_pair.mp he with rfl | rfl
  · decide
  · decide

/-- A frame that is free behind `identity_mapping` is not covered. -/
theorem free_frame_unmapped : ∃ pml4e k₁ k f,
    mapKernel lowLastStart.kernel 0x200000 (kerPhysfree 0x220000) = some (pml4e, k₁) ∧
      identityMapping pml4e (vgaOf lowLastStart) lowLastStart.bootMap.maxPhys k₁ = some k ∧
      f ∈ freeFrames k.memMap ∧ f ∈ freeOf lowLastStart ∧ ¬ Covered k f := by
  have hclean : LinksClean lowLastStart := linksClean_zero rfl
  have hroom := small_room lowLastStart freeOf_lowLast rfl (by rw [lowLast_windowPages]; omega)
  obtain ⟨pml4e, k₁, k, hkernel, hident⟩ := identity_isSome (c := lowLastStart)
    (by rw [freeOf_lowLast, mem_freeOf_small]; omega) hroom.le hclean.mapped
  obtain ⟨ht, hroot, hm⟩ := identity_holds hclean.mapped hkernel hident
  have hlow : ∀ f ∈ freeOf lowLastStart, 272 ≤ f ∧ f < WINDOW_FRAMES := by
    intro f hf
    rw [freeOf_lowLast, mem_freeOf_small] at hf
    rw [WINDOW_FRAMES]
    omega
  have hcr3 : k.cr3 = tableFrame lowLastStart [] := by
    rw [Kernel.cr3, hroot, frameAt_or (by rw [ht]; exact (hlow _ (hm.frame_mem hm.root)).2), ht]
  have hfree := frame_mem hroom
  refine ⟨pml4e, k₁, k, frame lowLastStart (tableUses lowLastStart).length, hkernel, hident, ?_, hfree, fun hcov => ?_⟩
  · rw [hm.free]
    exact (rest_least hroom).1
  · have hge := (hlow _ hfree).1
    rcases ((covered_iff lowLast_below hclean hm hcr3 hfree).mp hcov).2 with hpages | hleft
    · rw [lowLast_windowPages] at hpages
      omega
    · have hnext : next 0 = some _ := hleft.2
      cases hnext

end WindowCover
