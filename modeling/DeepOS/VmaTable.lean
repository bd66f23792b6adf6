import DeepOS.BlockPlaces

/-!
# The `vma` table

`brk` and `add_to_vma` fill the first free one of ten slots, `kexecvpe` sets the first
three, and `map_exe_format` counts on from the fourth. `kfork` copies the pages of the
first ten entries, so a page of the task should be in just one of them.
-/
namespace VmaTable

open PhyMem TaskTable PageTable PageMap VirtAlloc Process AddressSpace TaskPages LoadImage
  KernelInvariant MemLimit
open HeapBlocks (cr3_mem_liveRoots SameCursor addToVma_cursor)
open BlockPlaces (fillVma Full fillVma_full fillVma_some addToVma_task)

def pageOf (v : Word) : Nat := v.toNat / 4096

/-- The entry is in use and `kfork` would copy the page from it. -/
def Covers (area : Vma) (p : Nat) : Prop :=
  area.startAddr ≠ 0 ∧ pageOf area.startAddr ≤ p ∧ p * 4096 < area.endAddr.toNat

instance decidableCovers (area : Vma) (p : Nat) : Decidable (Covers area p) :=
  inferInstanceAs (Decidable (_ ∧ _))

def Separate (vma : Nat → Vma) : Prop :=
  ∀ i j, i < VMA_DEF_COUNT → j < VMA_DEF_COUNT → i ≠ j → ∀ p, Covers (vma i) p → ¬ Covers (vma j) p

/-- Exactly one of the entries that `kfork` scans has the page. -/
def Once (vma : Nat → Vma) (p : Nat) : Prop :=
  ∃ i, i < VMA_SCANNED ∧ Covers (vma i) p ∧ ∀ j, j < VMA_SCANNED → Covers (vma j) p → j = i

/-- The entries are separate, and each of the pages is in one that `kfork` scans. -/
structure Listed (vma : Nat → Vma) (pages : List Word) : Prop where
  separate : Separate vma
  once : ∀ v ∈ pages, Once vma (pageOf v)

/-- No page of the new area is in the table yet. -/
def Outside (vma : Nat → Vma) (area : Vma) : Prop :=
  ∀ i < VMA_DEF_COUNT, ∀ p, Covers (vma i) p → ¬ Covers area p

section

variable {vma vma' : Nat → Vma} {area : Vma} {pages vs : List Word} {i : Nat}

theorem listed_empty (h : ∀ i < VMA_DEF_COUNT, (vma i).startAddr = 0) : Listed vma [] :=
  ⟨fun i _ hi _ _ _ hc => absurd (h i hi) hc.1, fun _ hv => absurd hv List.not_mem_nil⟩

/-- Entries that are not in use do not matter. -/
theorem Listed.congr (h : Listed vma pages) (hsame : ∀ i p, Covers (vma' i) p ↔ Covers (vma i) p) :
    Listed vma' pages where
  separate := by
    intro i j hi hj hij p hc
    rw [hsame] at hc ⊢
    exact h.separate i j hi hj hij p hc
  once := by
    intro v hv
    obtain ⟨i, hi, hc, huniq⟩ := h.once v hv
    exact ⟨i, hi, (hsame i _).mpr hc, fun j hj hcj => huniq j hj ((hsame j _).mp hcj)⟩

/-- Addresses in the same pages. -/
theorem Listed.mono_pages (h : Listed vma pages) (hsub : ∀ v ∈ vs, ∃ u ∈ pages, pageOf v = pageOf u) :
    Listed vma vs := by
  refine ⟨h.separate, fun v hv => ?_⟩
  obtain ⟨u, hu, hpage⟩ := hsub v hv
  rw [hpage]
  exact h.once u hu

/-- An area of new pages in a free slot. -/
theorem Listed.add (h : Listed vma pages) (hi : i < VMA_SCANNED) (hfree : (vma i).startAddr = 0)
    (hout : Outside vma area) (hvs : ∀ v ∈ vs, Covers area (pageOf v)) :
    Listed (Function.update vma i area) (vs ++ pages) := by
  have hcount : ∀ j, j < VMA_SCANNED → j < VMA_DEF_COUNT := fun j hj => hj.trans (by decide)
  have hother : ∀ {j}, j ≠ i → Function.update vma i area j = vma j := fun hj => Function.update_of_ne hj ..
  constructor
  · intro j j' hj hj' hne p hc hc'
    by_cases hji : j = i
    · subst hji
      rw [Function.update_self] at hc
      rw [hother hne.symm] at hc'
      exact hout j' hj' p hc' hc
    · rw [hother hji] at hc
      by_cases hji' : j' = i
      · subst hji'
        rw [Function.update_self] at hc'
        exact hout j hj p hc hc'
      · rw [hother hji'] at hc'
        exact h.separate j j' hj hj' hne p hc hc'
  · intro v hv
    rcases List.mem_append.mp hv with hv | hv
    · have hc := hvs v hv
      refine ⟨i, hi, by rwa [Function.update_self], fun j hj hcj => ?_⟩
      by_contra hji
      rw [hother hji] at hcj
      exact hout j (hcount j hj) _ hcj hc
    · obtain ⟨j, hj, hcj, huniq⟩ := h.once v hv
      have hji : j ≠ i := by
        rintro rfl
        exact hcj.1 hfree
      refine ⟨j, hj, by rwa [hother hji], fun j' hj' hc' => ?_⟩
      by_cases hji' : j' = i
      · subst hji'
        rw [Function.update_self] at hc'
        exact absurd hc' (hout j (hcount j hj) _ hcj)
      · rw [hother hji'] at hc'
        exact huniq j' hj' hc'

/-- A null page leaves its slot free. -/
theorem covers_fill_null (i p : Nat) : Covers (fillVma vma 0 i) p ↔ Covers (vma i) p := by
  by_cases hfull : Full vma
  · rw [fillVma_full hfull]
  · obtain ⟨j, -, hfree, heq⟩ := fillVma_some hfull 0
    rw [heq]
    by_cases hij : i = j
    · subst hij
      rw [Function.update_self]
      exact iff_of_false (fun hc => hc.1 rfl) (fun hc => hc.1 hfree)
    · rw [Function.update_of_ne hij]

/-- Only the slots that are searched are filled. -/
theorem fillVma_high (first : Word) (hi : VMA_SCANNED ≤ i) : fillVma vma first i = vma i := by
  by_cases hfull : Full vma
  · rw [fillVma_full hfull]
  · obtain ⟨j, hj, -, heq⟩ := fillVma_some hfull first
    rw [heq]
    exact Function.update_of_ne (hj.trans_le hi).ne' _ _

end

/-- The page that an entry of one window page covers. -/
theorem covers_window {g p : Nat} (hg : g < WINDOW_FRAMES) :
    Covers ⟨window g, window g + 4095⟩ p ↔ p = pageOf (window g) := by
  have hstart := window_toNat hg
  have hlt := hg
  rw [WINDOW_FRAMES] at hlt
  have hend : (window g + 4095 : Word).toNat = 18446744073441116160 + g * 4096 + 4095 := by
    rw [BitVec.toNat_add, hstart, show (4095 : Word).toNat = 4095 from rfl]
    omega
  simp only [Covers, pageOf, hend, hstart]
  constructor
  · rintro ⟨-, hle, hlt⟩
    omega
  · rintro rfl
    exact ⟨window_ne_zero hg, le_rfl, by omega⟩

theorem pageOf_last {g : Nat} (hg : g < WINDOW_FRAMES) : pageOf (window g + 4095) = pageOf (window g) := by
  have hend : (window g + 4095 : Word).toNat = (window g).toNat + 4095 := by
    rw [BitVec.toNat_add, show (4095 : Word).toNat = 4095 from rfl, window_toNat hg]
    rw [WINDOW_FRAMES] at hg
    omega
  rw [pageOf, pageOf, hend, window_toNat hg]
  omega

/-! ## Runs -/

/-- No block can be cut from the heap page any more. -/
def Closed (s : TaskMem) : Prop := s.curPtr = 0 ∨ s.curPtr > s.heapEnd

instance decidableClosed (s : TaskMem) : Decidable (Closed s) := inferInstanceAs (Decidable (_ ∨ _))

/-- The next block begins at `cur_ptr`, so the page there is given out. -/
def cursorPage (s : TaskMem) : List Word := if Closed s then [] else [s.curPtr]

/-- The kernel, with the pages of the stacks, the segments and the heap that the task
has obtained since its last exec, and the `vma` indices that execs have used. -/
structure Space where
  kernel : Kernel
  current : List Word
  indices : List Nat

/-- The calls of a task. An exec that finds no file is none of them. -/
inductive Op where
  | brk
  | kmalloc (size : BitVec 32)
  | exec (call : ExecCall)

def gained (t : Slot) (k k' : Kernel) : List Word :=
  (k'.tasks t).pages.take ((k'.tasks t).pages.length - (k.tasks t).pages.length)

def entered (segments : List Segment) : List Segment := segments.filter fun s => s.pageNeeded ≠ 0

def Space.grow (t : Slot) (S : Space) (k' : Kernel) : Space :=
  { S with kernel := k', current := gained t S.kernel k' ++ S.current }

/-- The image has been loaded: the pages are those of its segments and the stacks. -/
def Space.replace (t : Slot) (S : Space) (image : Image) (k k' : Kernel) : Space where
  kernel := k'
  current := gained t k k'
  indices := List.range (VMA_SEGMENT_START + (entered image.segments).length) ++ S.indices

def step (t : Slot) (S : Space) : Op → Option Space
  | .brk => (brk S.kernel t).map fun r => S.grow t r.2
  | .kmalloc size => (kmalloc S.kernel t size).map fun r => S.grow t r.2
  | .exec call => call.image.bind fun image => (copyStrings S.kernel t call.sizes).bind fun k =>
      (loadImage k t image).map fun k' => S.replace t image k k'

/-- What is asked of the table. -/
structure TableOk (t : Slot) (S : Space) : Prop where
  listed : Listed (S.kernel.tasks t).vma (S.current ++ cursorPage (S.kernel.tasks t))
  indices : ∀ i ∈ S.indices, i < VMA_DEF_COUNT

/-- The pages that `map_exe_format` gives to two segments are different. -/
def PagesApart (s s' : Segment) : Prop := s.maxEnd ≤ s'.leastStart ∨ s'.maxEnd ≤ s.leastStart

/-- The segments lie below the window and above page 0, in pages of their own, and fit
into the slots that `kfork` scans. -/
structure ImageFits (image : Image) : Prop where
  linked : ∀ s ∈ image.segments, Linked s
  few : VMA_SEGMENT_START + (nonEmpty image.segments).length ≤ VMA_SCANNED
  low : ∀ s ∈ entered image.segments, s.leastStart ≠ 0
  apart : (entered image.segments).Pairwise PagesApart

def OneFree (vma : Nat → Vma) : Prop :=
  ∃ i < VMA_SCANNED, (vma i).startAddr = 0 ∧ ∀ j < VMA_SCANNED, (vma j).startAddr = 0 → j = i

/-- A block from a new page does not go on at the bottom of the address space. -/
def EndsInSpace (k : Kernel) (size : BitVec 32) : Prop :=
  ∀ g, SecondFree k.memMap g → (window g).toNat + size.toNat ≤ 2 ^ 64

/-- A page of `brk` finds a free slot and one of `kmalloc` the last free slot, no block goes
beyond the end of the address space, and an exec copies no strings and finds no open page. -/
def Meets (t : Slot) (S : Space) : Op → Prop
  | .brk => Granted S.kernel t → ¬ Full (S.kernel.tasks t).vma
  | .kmalloc size =>
    if NeedsPage S.kernel t size then
      Granted S.kernel t → OneFree (S.kernel.tasks t).vma ∧ EndsInSpace S.kernel size
    else (S.kernel.tasks t).curPtr.toNat + size.toNat ≤ 2 ^ 64
  | .exec call => call.sizes = [] ∧ Closed (S.kernel.tasks t) ∧
      ∀ image, call.image = some image → ImageFits image

/-! ## What the calls do to a task -/

section

variable {k k' : Kernel} {t : Slot}

theorem brk_task {v : Word} (ht : k.currentTask = some t) (h : brk k t = some (v, k'))
    (hg : Granted k t) : (∃ k₁, iVirtAlloc k = some (v, k₁)) ∧ k'.tasks t =
      { k.tasks t with vma := fillVma (k.tasks t).vma v, pages := v :: (k.tasks t).pages } := by
  rw [brk, if_neg hg, Option.map_eq_some_iff] at h
  obtain ⟨⟨v₁, k₁⟩, halloc, hres⟩ := h
  obtain ⟨rfl, rfl⟩ := Prod.mk.inj hres
  have hsame := (iVirtAlloc_counts ht halloc).same
  refine ⟨⟨k₁, halloc⟩, ?_⟩
  have hcharge := fun k : Kernel => show (charge k (some t)).tasks t = k.tasks t from rfl
  rw [hcharge, addToVma_task, gain, modifyTask_self, hsame.tasks]

/-- A block from a new page: the page is entered twice. -/
theorem kmalloc_task {size : BitVec 32} {v : Word} (ht : k.currentTask = some t)
    (h : kmalloc k t size = some (v, k')) (hneed : NeedsPage k t size) (hg : Granted k t)
    (hv : ∀ v k₁, iVirtAlloc k = some (v, k₁) → v ≠ 0) :
    (∃ k₁, iVirtAlloc k = some (v, k₁)) ∧ k'.tasks t =
      { k.tasks t with
        vma := fillVma (fillVma (k.tasks t).vma v) v
        pages := v :: (k.tasks t).pages
        curPtr := v + size.setWidth 64
        heapEnd := v + 4095 } := by
  have hpage : heapPage k t size = growHeap k t := if_pos hneed
  rw [kmalloc, hpage, growHeap, Option.map_map, Option.map_eq_some_iff] at h
  obtain ⟨⟨v₁, k₁⟩, hbrk, hres⟩ := h
  obtain ⟨⟨k₂, halloc⟩, htask⟩ := brk_task ht hbrk hg
  dsimp only [Function.comp_apply] at hres
  rw [if_neg (hv v₁ k₂ halloc)] at hres
  obtain ⟨rfl, rfl⟩ := Prod.mk.inj hres
  refine ⟨⟨k₂, halloc⟩, ?_⟩
  rw [modifyTask_self, addToVma_task, htask]

/-- A refused page is entered as the null page. -/
theorem kmalloc_refused {size : BitVec 32} {v : Word} (h : kmalloc k t size = some (v, k'))
    (hneed : NeedsPage k t size) (hg : ¬ Granted k t) :
    k'.tasks t = { k.tasks t with vma := fillVma (k.tasks t).vma 0 } := by
  have hpage : heapPage k t size = growHeap k t := if_pos hneed
  rw [kmalloc, hpage, growHeap, Option.map_map, Option.map_eq_some_iff] at h
  obtain ⟨⟨v₁, k₁⟩, hbrk, hres⟩ := h
  obtain ⟨rfl, rfl⟩ := brk_refused hbrk hg
  dsimp only [Function.comp_apply] at hres
  rw [if_pos rfl] at hres
  obtain ⟨-, rfl⟩ := Prod.mk.inj hres
  exact addToVma_task k₁ t 0

theorem kmalloc_inside {size : BitVec 32} {v : Word} (h : kmalloc k t size = some (v, k'))
    (hroom : ¬ NeedsPage k t size) :
    k'.tasks t = { k.tasks t with curPtr := (k.tasks t).curPtr + size.setWidth 64 } := by
  have hpage : heapPage k t size = some ((k.tasks t).curPtr, (k.tasks t).heapEnd, k) := if_neg hroom
  have hne : (k.tasks t).curPtr ≠ 0 := fun h0 => hroom (Or.inl h0)
  rw [kmalloc, hpage, Option.map_some, if_neg hne, Option.some.injEq] at h
  obtain ⟨-, rfl⟩ := Prod.mk.inj h
  exact modifyTask_self k t _

theorem gained_eq {new : List Word} (h : (k'.tasks t).pages = new ++ (k.tasks t).pages) :
    gained t k k' = new := by
  rw [gained, h, List.length_append, Nat.add_sub_cancel, List.take_left]

end

/-! ## The heap calls -/

/-- `heap_end` is the end of the page under `cur_ptr`, or lies in front of it. -/
def SamePage (s : TaskMem) : Prop := ¬ Closed s → pageOf s.heapEnd = pageOf s.curPtr

/-- What runs keep: no slot from the eleventh on is in use. -/
structure Inv (t : Slot) (S : Space) : Prop extends TableOk t S where
  kinv : KInv S.kernel
  running : S.kernel.currentTask = some t
  samePage : SamePage (S.kernel.tasks t)
  high : ∀ i, VMA_SCANNED ≤ i → i < VMA_DEF_COUNT → ((S.kernel.tasks t).vma i).startAddr = 0

section

variable {k k' : Kernel} {t : Slot} {S : Space}

theorem running_live (h : KInv k) (ht : k.currentTask = some t) : Live k t := by
  obtain ⟨u, hu, hlive, -⟩ := h.current
  obtain rfl : u = t := Option.some.inj (hu.symm.trans ht)
  exact hlive

/-- The table lists pages of the task, and the window page of a free frame is none. -/
theorem outside_window (h : KInv k) (hl : Live k t)
    (hhigh : ∀ i, VMA_SCANNED ≤ i → i < VMA_DEF_COUNT → ((k.tasks t).vma i).startAddr = 0) {g : Nat}
    (hg : g ∈ freeFrames k.memMap) : Outside (k.tasks t).vma ⟨window g, window g + 4095⟩ := by
  intro i hi p hc hw
  rw [covers_window (h.sound.low g hg)] at hw
  have hlow : i < VMA_SCANNED := not_le.mp fun hge => hc.1 (hhigh i hge hi)
  obtain ⟨halign, hcover⟩ := h.ok t hl i hlow hc.1
  obtain ⟨-, hstart, hend⟩ := hc
  rw [pageOf] at hstart
  have hlt := ((k.tasks t).vma i).endAddr.isLt
  have haddr : (BitVec.ofNat 64 (p * 4096)).toNat = p * 4096 := by
    rw [BitVec.toNat_ofNat]
    omega
  obtain ⟨a, ha, hv⟩ := hcover (BitVec.ofNat 64 (p * 4096))
    (by rw [BitVec.le_def, haddr]; omega) (by rw [BitVec.lt_def, haddr]; exact hend)
  apply h.sound.off_window (mem_liveRoots hl) (h.data t hl a ha) (Or.inl hg)
  rw [hv, vpn, vpn, haddr, hw, pageOf]
  omega

/-- A page of the allocator is the window page of a frame that was free. -/
theorem alloc_window {v : Word} {k₁ : Kernel} (h : KInv k) (hs : iVirtAlloc k = some (v, k₁)) :
    ∃ g ∈ freeFrames k.memMap, v = window g := by
  obtain ⟨g, hg, hv, -⟩ := iVirtAlloc_page h.sound (cr3_mem_liveRoots h) hs
  exact ⟨g, hg, hv⟩

/-- The frame of the page is known before the call. -/
theorem alloc_second {v : Word} {k₁ : Kernel} (h : KInv k) (hs : iVirtAlloc k = some (v, k₁)) :
    ∃ g, SecondFree k.memMap g ∧ g < WINDOW_FRAMES ∧ v = window g := by
  obtain ⟨g, hg, rfl⟩ := iVirtAlloc_second (h.sound.ready (cr3_mem_liveRoots h)) (h.sound.lowFor 2) hs
  obtain ⟨g₁, -, hleast⟩ := id hg
  exact ⟨g, hg, h.sound.low g hleast.1.1, rfl⟩

/-- A page of the allocator in a free slot. -/
theorem Inv.fill {v : Word} {k₁ : Kernel} (h : Inv t S) (hs : iVirtAlloc S.kernel = some (v, k₁))
    (hfree : ¬ Full (S.kernel.tasks t).vma) : v ≠ 0 ∧
      Listed (fillVma (S.kernel.tasks t).vma v) (v :: S.current ++ cursorPage (S.kernel.tasks t)) ∧
      ∀ i, VMA_SCANNED ≤ i → i < VMA_DEF_COUNT → (fillVma (S.kernel.tasks t).vma v i).startAddr = 0 := by
  obtain ⟨g, hg, rfl⟩ := alloc_window h.kinv hs
  have hlow := h.kinv.sound.low g hg
  obtain ⟨i, hi, hzero, heq⟩ := fillVma_some hfree (window g)
  refine ⟨window_ne_zero hlow, ?_, fun j hj hj' => by rw [fillVma_high _ hj]; exact h.high j hj hj'⟩
  have hout := outside_window h.kinv (running_live h.kinv h.running) h.high hg
  have hcover : ∀ v ∈ [window g], Covers ⟨window g, window g + 4095⟩ (pageOf v) := by
    intro v hv
    obtain rfl := List.mem_singleton.mp hv
    exact (covers_window hlow).mpr rfl
  rw [heq]
  exact h.listed.add hi hzero hout hcover

/-- The slot that takes the page was the last one. -/
theorem full_of_oneFree {vma : Nat → Vma} (h : OneFree vma) {v : Word} (hv : v ≠ 0) :
    ¬ Full vma ∧ Full (fillVma vma v) := by
  obtain ⟨i, hi, hzero, huniq⟩ := h
  have hfree : ¬ Full vma := fun hfull => hfull i hi hzero
  refine ⟨hfree, fun j hj => ?_⟩
  obtain ⟨i', hi', hzero', heq⟩ := fillVma_some hfree v
  obtain rfl := huniq i' hi' hzero'
  rw [heq]
  by_cases hji : j = i'
  · subst hji
    rwa [Function.update_self]
  · rw [Function.update_of_ne hji]
    exact fun h0 => hji (huniq j hj h0)

section

variable {s s' : TaskMem}

theorem closed_congr (hptr : s'.curPtr = s.curPtr) (hend : s'.heapEnd = s.heapEnd) :
    Closed s' ↔ Closed s := by rw [Closed, Closed, hptr, hend]

theorem cursorPage_congr (hptr : s'.curPtr = s.curPtr) (hend : s'.heapEnd = s.heapEnd) :
    cursorPage s' = cursorPage s := by
  simp only [cursorPage, closed_congr hptr hend, hptr]

theorem SamePage.congr (h : SamePage s) (hptr : s'.curPtr = s.curPtr) (hend : s'.heapEnd = s.heapEnd) :
    SamePage s' := by
  rw [SamePage, closed_congr hptr hend, hptr, hend]
  exact h

/-- A block that ends in the address space leaves `cur_ptr` in its page, or closes the page. -/
theorem advance_samePage {size : BitVec 32} (h : SamePage s) (hne₀ : s.curPtr ≠ 0)
    (hsum : s.curPtr.toNat + size.toNat ≤ 2 ^ 64) (hptr : s'.curPtr = s.curPtr + size.setWidth 64)
    (hend : s'.heapEnd = s.heapEnd) :
    ¬ Closed s' → pageOf s'.curPtr = pageOf s.curPtr ∧
      pageOf s'.heapEnd = pageOf s'.curPtr ∧ ¬ Closed s := by
  intro hopen
  rw [Closed, not_or, hptr, hend] at hopen
  obtain ⟨hne, hle⟩ := hopen
  have hnat : (s.curPtr + size.setWidth 64).toNat = (s.curPtr.toNat + size.toNat) % 2 ^ 64 := by
    rw [BitVec.toNat_add, BitVec.toNat_setWidth, Nat.mod_eq_of_lt (size.isLt.trans (by decide))]
  have hlt : s.curPtr.toNat + size.toNat < 2 ^ 64 := by
    refine lt_of_le_of_ne hsum fun heq => hne (BitVec.eq_of_toNat_eq ?_)
    rw [hnat, heq]
    rfl
  rw [Nat.mod_eq_of_lt hlt] at hnat
  rw [gt_iff_lt, BitVec.lt_def, hnat] at hle
  have hopen₀ : ¬ Closed s := by
    rw [Closed, not_or, gt_iff_lt, BitVec.lt_def]
    exact ⟨hne₀, by omega⟩
  have hpage := h hopen₀
  rw [pageOf, pageOf] at hpage
  refine ⟨?_, ?_, hopen₀⟩
  · rw [pageOf, pageOf, hptr, hnat]
    omega
  · rw [pageOf, pageOf, hptr, hend, hnat]
    omega

end

theorem Inv.brk {v : Word} (h : Inv t S) (hm : Granted S.kernel t → ¬ Full (S.kernel.tasks t).vma)
    (hs : brk S.kernel t = some (v, k')) : Inv t (S.grow t k') := by
  have hstep : Process.step S.kernel .brk = some k' := by
    rw [Process.step, h.running, Option.bind_some, hs]
    rfl
  obtain ⟨hk, -⟩ := h.kinv.step (show KernelInvariant.Meets S.kernel .brk from trivial) hstep
  by_cases hg : Granted S.kernel t
  · obtain ⟨⟨k₁, halloc⟩, htask⟩ := brk_task h.running hs hg
    obtain ⟨-, hlisted, hhigh⟩ := h.fill halloc (hm hg)
    have hgained : gained t S.kernel k' = [v] := gained_eq (by rw [htask]; rfl)
    have hsame : SameCursor t S.kernel k' := ⟨by rw [htask], by rw [htask]⟩
    have hcursor := cursorPage_congr hsame.curPtr hsame.heapEnd
    have hvma : (k'.tasks t).vma = fillVma (S.kernel.tasks t).vma v := by rw [htask]
    refine ⟨⟨?_, h.indices⟩, hk, (brk_usage h.running hs hg).current.trans h.running,
      h.samePage.congr hsame.curPtr hsame.heapEnd, ?_⟩
    · show Listed (k'.tasks t).vma (gained t S.kernel k' ++ S.current ++ cursorPage (k'.tasks t))
      rw [hvma, hgained, hcursor]
      exact hlisted
    · show ∀ i, VMA_SCANNED ≤ i → i < VMA_DEF_COUNT → ((k'.tasks t).vma i).startAddr = 0
      rw [hvma]
      exact hhigh
  · obtain ⟨-, rfl⟩ := brk_refused hs hg
    have hnone : gained t S.kernel S.kernel = [] := gained_eq rfl
    rw [Space.grow, hnone]
    exact h

theorem Inv.kmalloc {v : Word} {size : BitVec 32} (h : Inv t S) (hm : Meets t S (.kmalloc size))
    (hs : kmalloc S.kernel t size = some (v, k')) : Inv t (S.grow t k') := by
  have hstep : Process.step S.kernel (.kmalloc size) = some k' := by
    simp only [Process.step, h.running, Option.bind_some, hs, Option.map_some]
  obtain ⟨hk, -⟩ := h.kinv.step (show KernelInvariant.Meets S.kernel (.kmalloc size) from trivial) hstep
  have hrun : k'.currentTask = some t := (kmalloc_usage h.running hs).current.trans h.running
  rw [Meets] at hm
  split at hm
  · rename_i hneed
    by_cases hg : Granted S.kernel t
    · have hne : ∀ v k₁, iVirtAlloc S.kernel = some (v, k₁) → v ≠ 0 := by
        intro v k₁ halloc
        obtain ⟨g, hfree, rfl⟩ := alloc_window h.kinv halloc
        exact window_ne_zero (h.kinv.sound.low g hfree)
      obtain ⟨⟨k₁, halloc⟩, htask⟩ := kmalloc_task h.running hs hneed hg hne
      obtain ⟨hone, hspace⟩ := hm hg
      obtain ⟨hfree, hfull⟩ := full_of_oneFree hone (hne v k₁ halloc)
      obtain ⟨g, hsecond, hlow, hv⟩ := alloc_second h.kinv halloc
      have hnew : SamePage { S.kernel.tasks t with curPtr := v, heapEnd := v + 4095 } := by
        intro _
        rw [hv]
        exact pageOf_last hlow
      have hadvance := @advance_samePage _ (k'.tasks t) size hnew (hne v k₁ halloc)
        (hv ▸ hspace g hsecond) (by rw [htask]) (by rw [htask])
      obtain ⟨-, hlisted, hhigh⟩ := h.fill halloc hfree
      have hgained : gained t S.kernel k' = [v] := gained_eq (by rw [htask]; rfl)
      have hvma : (k'.tasks t).vma = fillVma (S.kernel.tasks t).vma v := by
        rw [htask]
        exact fillVma_full hfull v
      refine ⟨⟨?_, h.indices⟩, hk, hrun, fun hopen => (hadvance hopen).2.1, ?_⟩
      · show Listed (k'.tasks t).vma (gained t S.kernel k' ++ S.current ++ cursorPage (k'.tasks t))
        rw [hvma, hgained]
        refine hlisted.mono_pages fun a ha => ?_
        rcases List.mem_append.mp ha with ha | ha
        · exact ⟨a, List.mem_append_left _ ha, rfl⟩
        · -- the page under the cursor is the new one
          rw [cursorPage] at ha
          split at ha
          · cases ha
          · rename_i hopen
            exact ⟨v, List.mem_cons_self, by rw [List.mem_singleton.mp ha, (hadvance hopen).1]⟩
      · show ∀ i, VMA_SCANNED ≤ i → i < VMA_DEF_COUNT → ((k'.tasks t).vma i).startAddr = 0
        rw [hvma]
        exact hhigh
    · have htask := kmalloc_refused hs hneed hg
      have hnone : gained t S.kernel k' = [] := gained_eq (by rw [htask]; rfl)
      have hsame : SameCursor t S.kernel k' := ⟨by rw [htask], by rw [htask]⟩
      have hcursor := cursorPage_congr hsame.curPtr hsame.heapEnd
      have hvma : (k'.tasks t).vma = fillVma (S.kernel.tasks t).vma 0 := by rw [htask]
      refine ⟨⟨?_, h.indices⟩, hk, hrun, h.samePage.congr hsame.curPtr hsame.heapEnd, ?_⟩
      · show Listed (k'.tasks t).vma (gained t S.kernel k' ++ S.current ++ cursorPage (k'.tasks t))
        rw [hvma, hnone, hcursor, List.nil_append]
        exact h.listed.congr covers_fill_null
      · intro i hi hi'
        show ((k'.tasks t).vma i).startAddr = 0
        rw [hvma, fillVma_high _ hi]
        exact h.high i hi hi'
  · rename_i hroom
    have htask := kmalloc_inside hs hroom
    have hnone : gained t S.kernel k' = [] := gained_eq (by rw [htask]; rfl)
    have hvma : (k'.tasks t).vma = (S.kernel.tasks t).vma := by rw [htask]
    have hadvance := @advance_samePage _ (k'.tasks t) size h.samePage (fun h0 => hroom (Or.inl h0)) hm
      (by rw [htask]) (by rw [htask])
    refine ⟨⟨?_, h.indices⟩, hk, hrun, fun hopen => (hadvance hopen).2.1, ?_⟩
    · show Listed (k'.tasks t).vma (gained t S.kernel k' ++ S.current ++ cursorPage (k'.tasks t))
      rw [hvma, hnone, List.nil_append]
      refine h.listed.mono_pages fun a ha => ?_
      rcases List.mem_append.mp ha with ha | ha
      · exact ⟨a, List.mem_append_left _ ha, rfl⟩
      · -- the block leaves the page open only if it was open before
        rw [cursorPage] at ha
        split at ha
        · cases ha
        · rename_i hopen
          obtain ⟨hpage, -, hopen₀⟩ := hadvance hopen
          rw [cursorPage, if_neg hopen₀]
          exact ⟨(S.kernel.tasks t).curPtr, List.mem_append_right _ (List.mem_singleton_self _),
            by rw [List.mem_singleton.mp ha, hpage]⟩
    · show ∀ i, VMA_SCANNED ≤ i → i < VMA_DEF_COUNT → ((k'.tasks t).vma i).startAddr = 0
      rw [hvma]
      exact h.high

end

/-! ## Loading the segments -/

section

variable {k k' : Kernel} {t : Slot}

/-- Pages have been added to those of the task, and nothing else has changed. -/
structure Adds (t : Slot) (new : List Word) (k k' : Kernel) : Prop where
  running : k'.currentTask = k.currentTask
  task : k'.tasks t = { k.tasks t with pages := new ++ (k.tasks t).pages }

theorem mapPage_adds {v : Word} (ht : k.currentTask = some t) (h : mapPage t k v = some k') :
    Adds t [v] k k' := by
  simp only [mapPage, bind, Option.bind_eq_some_iff] at h
  obtain ⟨⟨p, k₁⟩, halloc, k₂, hmap, hres⟩ := h
  obtain rfl := Option.some.inj hres
  have h₁ : SameTasks k k₁ := (pageAlloc_counts (t := t) halloc).same
  have h₂ := h₁.trans (mapProcess_counts (h₁.currentTask.trans ht) hmap).same
  refine ⟨h₂.currentTask, ?_⟩
  rw [gain, modifyTask_self, h₂.tasks]
  rfl

theorem mapPages_adds {vs : List Word} (ht : k.currentTask = some t)
    (h : Transition.run (mapPage t) k vs = some k') : Adds t vs.reverse k k' := by
  refine Transition.run_loop (P := fun done k' => Adds t done.reverse k k') _ ?_ ⟨rfl, rfl⟩ h
  intro done v rest k₁ k₂ _ hdone hstep
  obtain ⟨hrun, htask⟩ := mapPage_adds (hdone.running.trans ht) hstep
  refine ⟨hrun.trans hdone.running, ?_⟩
  rw [htask, hdone.task, List.reverse_append]
  rfl

theorem copyOnDisk_adds {s : Segment} {is : List Nat} (h : Transition.run (copyOnDisk s) k is = some k') :
    Adds t [] k k' := by
  refine Transition.run_loop (P := fun _ k' => Adds t [] k k') _ ?_ ⟨rfl, rfl⟩ h
  intro done i rest k₁ k₂ _ hdone hstep
  obtain ⟨-, -, -, -, heq⟩ := storeByte_some hstep
  rw [heq]
  exact ⟨hdone.running, hdone.task⟩

def areaOf (s : Segment) : Vma := ⟨s.leastStart, s.maxEnd⟩

theorem mapSegment_task {s : Segment} {i j : Nat} (ht : k.currentTask = some t) (hn : s.pageNeeded ≠ 0)
    (hi : i < VMA_DEF_COUNT) (h : mapSegment t (k, i) s = some (k', j)) :
    j = i + 1 ∧ k'.currentTask = k.currentTask ∧ k'.tasks t = { k.tasks t with
      vma := Function.update (k.tasks t).vma i (areaOf s)
      pages := (pagesFrom s.leastStart s.pageNeeded.toNat).reverse ++ (k.tasks t).pages } := by
  rw [mapSegment, if_pos hn] at h
  simp only [bind, Option.bind_eq_some_iff] at h
  obtain ⟨k₂, hmap, k₃, hcopy, hres⟩ := h
  obtain ⟨rfl, rfl⟩ := Prod.mk.inj (Option.some.inj hres)
  have hpages := mapPages_adds (k := modifyTask k t fun task => setVma task i s.leastStart s.maxEnd) ht hmap
  have hbytes : Adds t [] k₂ k₃ := copyOnDisk_adds hcopy
  refine ⟨rfl, hbytes.running.trans hpages.running, ?_⟩
  rw [hbytes.task, hpages.task, modifyTask_self, setVma, if_pos hi]
  rfl

/-- The pages that are mapped for a segment are those of its entry. -/
theorem pagesFrom_covered {s : Segment} (hl : Linked s) (hn : s.pageNeeded ≠ 0) (h0 : s.leastStart ≠ 0)
    {v : Word} (hv : v ∈ pagesFrom s.leastStart s.pageNeeded.toNat) : Covers (areaOf s) (pageOf v) := by
  obtain ⟨p, hp, hp', hpage⟩ := (mem_pagesFrom hl hn v).mp hv
  refine ⟨h0, ?_, ?_⟩
  · rw [pageOf, pageOf, areaOf, toNat_leastStart, hpage]
    omega
  · rw [pageOf, areaOf, toNat_maxEnd hl, hpage]
    omega

/-- The segments `done` have been entered, in a task that had the pages `old` before. -/
structure Laid (t : Slot) (old : TaskMem) (done : List Segment) (r : Kernel × Nat) : Prop where
  running : r.1.currentTask = some t
  index : r.2 = VMA_SEGMENT_START + (entered done).length
  listed : ∃ new, (r.1.tasks t).pages = new ++ old.pages ∧ Listed (r.1.tasks t).vma new
  free : ∀ j, r.2 ≤ j → j < VMA_DEF_COUNT → ((r.1.tasks t).vma j).startAddr = 0
  areas : ∀ j p, j < VMA_DEF_COUNT → Covers ((r.1.tasks t).vma j) p →
    DUMB_MAPPING_VIRT.toNat + 4096 ≤ p * 4096 ∨ ∃ s ∈ entered done, Covers (areaOf s) p
  curPtr : (r.1.tasks t).curPtr = old.curPtr
  heapEnd : (r.1.tasks t).heapEnd = old.heapEnd

theorem entered_append (done : List Segment) (s : Segment) : entered (done ++ [s]) =
    if s.pageNeeded ≠ 0 then entered done ++ [s] else entered done := by
  rw [entered, List.filter_append, List.filter_singleton]
  split
  · simp_all [entered]
  · simp_all [entered]

theorem areaOf_apart {s s' : Segment} (h : PagesApart s' s) {p : Nat} (hc : Covers (areaOf s') p) :
    ¬ Covers (areaOf s) p := by
  rintro ⟨-, hstart, hend⟩
  obtain ⟨-, hstart', hend'⟩ := hc
  simp only [areaOf, pageOf, toNat_leastStart] at hstart hend hstart' hend'
  rw [PagesApart, BitVec.le_def, BitVec.le_def, toNat_leastStart, toNat_leastStart] at h
  omega

theorem areaOf_below {s : Segment} (hl : Linked s) {p : Nat}
    (hp : DUMB_MAPPING_VIRT.toNat + 4096 ≤ p * 4096) : ¬ Covers (areaOf s) p := by
  rintro ⟨-, -, hend⟩
  simp only [areaOf, toNat_maxEnd hl] at hend
  rw [Linked, dumb_toNat] at hl
  rw [dumb_toNat] at hp
  omega

theorem Laid.segment {old : TaskMem} {done : List Segment} {s : Segment} {r r' : Kernel × Nat}
    (h : Laid t old done r) (hi : VMA_SEGMENT_START + (entered (done ++ [s])).length ≤ VMA_SCANNED)
    (hl : Linked s) (h0 : s.pageNeeded ≠ 0 → s.leastStart ≠ 0)
    (hapart : s.pageNeeded ≠ 0 → ∀ s' ∈ entered done, PagesApart s' s)
    (hs : mapSegment t r s = some r') : Laid t old (done ++ [s]) r' := by
  obtain ⟨k, i⟩ := r
  obtain ⟨k', j⟩ := r'
  by_cases hn : s.pageNeeded ≠ 0
  · have hentered : entered (done ++ [s]) = entered done ++ [s] := by rw [entered_append, if_pos hn]
    have hindex : i = VMA_SEGMENT_START + (entered done).length := h.index
    have hlow : i < VMA_SCANNED := by
      rw [hentered, List.length_append, List.length_singleton] at hi
      omega
    have hcount : i < VMA_DEF_COUNT := hlow.trans (by decide)
    obtain ⟨rfl, hrun, htask⟩ := mapSegment_task h.running hn hcount hs
    obtain ⟨new, hpages, hlisted⟩ := h.listed
    have hvma : (k'.tasks t).vma = Function.update (k.tasks t).vma i (areaOf s) := by rw [htask]
    have hout : Outside (k.tasks t).vma (areaOf s) := by
      intro j hj p hc
      rcases h.areas j p hj hc with hp | ⟨s', hs', hc'⟩
      · exact areaOf_below hl hp
      · exact areaOf_apart (hapart hn s' hs') hc'
    refine ⟨hrun.trans h.running, ?_, ?_, ?_, ?_, ?_, ?_⟩
    · rw [hentered, List.length_append, List.length_singleton, hindex]
      rfl
    · refine ⟨(pagesFrom s.leastStart s.pageNeeded.toNat).reverse ++ new, ?_, ?_⟩
      · rw [htask, hpages, List.append_assoc]
      · rw [hvma]
        exact hlisted.add hlow (h.free i le_rfl hcount) hout
          fun v hv => pagesFrom_covered hl hn (h0 hn) (List.mem_reverse.mp hv)
    · intro j hj hj'
      rw [hvma, Function.update_of_ne (Nat.ne_of_gt hj)]
      exact h.free j (Nat.le_of_succ_le hj) hj'
    · intro j p hj hc
      rw [hvma] at hc
      rw [hentered]
      by_cases hji : j = i
      · subst hji
        rw [Function.update_self] at hc
        exact Or.inr ⟨s, List.mem_append_right _ (List.mem_singleton_self s), hc⟩
      · rw [Function.update_of_ne hji] at hc
        rcases h.areas j p hj hc with hp | ⟨s', hs', hc'⟩
        · exact Or.inl hp
        · exact Or.inr ⟨s', List.mem_append_left _ hs', hc'⟩
    · rw [htask]
      exact h.curPtr
    · rw [htask]
      exact h.heapEnd
  · rw [mapSegment, if_neg hn] at hs
    obtain ⟨rfl, rfl⟩ := Prod.mk.inj (Option.some.inj hs)
    have hentered : entered (done ++ [s]) = entered done := by rw [entered_append, if_neg hn]
    exact ⟨h.running, hentered ▸ h.index, h.listed, h.free, hentered ▸ h.areas, h.curPtr, h.heapEnd⟩

/-! ## The exec -/

theorem pageOf_window {g : Nat} (hg : g < WINDOW_FRAMES) :
    pageOf (window g) * 4096 = DUMB_MAPPING_VIRT.toNat + g * 4096 := by
  rw [pageOf, window_toNat hg, dumb_toNat]
  omega

/-- The table with the two stacks only. -/
theorem listed_stacks {vma : Nat → Vma} {g g' : Nat} (hg : g < WINDOW_FRAMES) (hg' : g' < WINDOW_FRAMES)
    (hne : g ≠ g') (hhigh : ∀ i, VMA_SCANNED ≤ i → i < VMA_DEF_COUNT → (vma i).startAddr = 0) :
    Listed (stackAreas vma (window g) (window g')) [window g', window g] := by
  have hempty : ∀ i < VMA_DEF_COUNT, (stackAreas vma 0 0 i).startAddr = 0 := by
    intro i hi
    rw [stackAreas]
    split_ifs with h₀ h₁ h₃ h₁₀
    · rfl
    · rfl
    · rfl
    · rfl
    · exact hhigh i (not_lt.mp h₁₀) hi
  have hstacks : stackAreas vma (window g) (window g') =
      Function.update (Function.update (stackAreas vma 0 0) VMA_USER_STACK_IDX ⟨window g, window g + 4095⟩)
        VMA_KERNEL_STACK_IDX ⟨window g', window g' + 4095⟩ := by
    funext i
    simp only [stackAreas, Function.update_apply]
    split_ifs with h₀ h₁
    · rw [h₀] at h₁
      cases h₁
    · rfl
    · rfl
    · rfl
    · rfl
    · rfl
  have huser : Listed (Function.update (stackAreas vma 0 0) VMA_USER_STACK_IDX
      ⟨window g, window g + 4095⟩) ([window g] ++ []) := by
    refine (listed_empty hempty).add (by decide) (hempty _ (by decide)) ?_ ?_
    · exact fun i hi p hc => absurd (hempty i hi) hc.1
    · intro v hv
      obtain rfl := List.mem_singleton.mp hv
      exact (covers_window hg).mpr rfl
  have hkernel : ∀ v ∈ [window g'], Covers ⟨window g', window g' + 4095⟩ (pageOf v) := by
    intro v hv
    obtain rfl := List.mem_singleton.mp hv
    exact (covers_window hg').mpr rfl
  rw [hstacks]
  refine huser.add (by decide) ?_ ?_ hkernel
  · rw [Function.update_of_ne (by decide)]
    exact hempty _ (by decide)
  · intro i hi p hc hc'
    by_cases hi0 : i = VMA_USER_STACK_IDX
    · rw [hi0, Function.update_self, covers_window hg] at hc
      rw [covers_window hg'] at hc'
      have hwin := pageOf_window hg
      have hwin' := pageOf_window hg'
      rw [← hc, hc'] at hwin
      omega
    · rw [Function.update_of_ne hi0] at hc
      exact hc.1 (hempty i hi)

theorem entered_length_le (segments : List Segment) :
    (entered segments).length ≤ (nonEmpty segments).length := by
  refine List.Sublist.length_le ?_
  rw [entered, nonEmpty]
  refine List.monotone_filter_right segments fun s hs => ?_
  rw [decide_eq_true_eq] at hs ⊢
  exact size_ne_zero hs

theorem laid_segments {old : TaskMem} {image : Image} {r r' : Kernel × Nat} (hfits : ImageFits image)
    (h : Laid t old [] r) (hs : Transition.run (mapSegment t) r image.segments = some r') :
    Laid t old image.segments r' := by
  refine Transition.run_loop (P := fun done r => Laid t old done r) _ ?_ h hs
  intro done s rest r₁ r₂ hsegments hdone hstep
  have hall : entered image.segments = entered (done ++ [s]) ++ entered rest := by
    rw [← hsegments, entered, entered, entered, ← List.filter_append, List.append_assoc,
      List.singleton_append]
  have hmem : s ∈ image.segments := hsegments ▸ List.mem_append_right _ List.mem_cons_self
  refine hdone.segment ?_ (hfits.linked s hmem) ?_ ?_ hstep
  · have hfew := hfits.few
    have hle := entered_length_le image.segments
    rw [hall, List.length_append] at hle
    omega
  · intro hn
    exact hfits.low s (List.mem_filter.mpr ⟨hmem, by simpa using hn⟩)
  · intro hn s' hs'
    have hapart := hfits.apart
    rw [hall, entered_append, if_pos hn, List.pairwise_append, List.pairwise_append] at hapart
    exact hapart.1.2.2 s' hs' s (List.mem_singleton_self s)

theorem loadImage_laid {image : Image} (h : KInv k) (ht : k.currentTask = some t)
    (hhigh : ∀ i, VMA_SCANNED ≤ i → i < VMA_DEF_COUNT → ((k.tasks t).vma i).startAddr = 0)
    (hfits : ImageFits image) (hs : loadImage k t image = some k') : ∃ j,
      Laid t (k.tasks t) image.segments (k', j) := by
  simp only [loadImage, bind, Option.bind_eq_some_iff] at hs
  obtain ⟨⟨u, k₁⟩, hu, ⟨v, k₂⟩, hv, k₃, hmap, hs⟩ := hs
  have hr := cr3_mem_liveRoots h
  obtain ⟨g, hg, rfl, hlt, hfresh, hused, -⟩ := iVirtAlloc_page h.sound hr hu
  have hcr3 : k₁.cr3 = k.cr3 := SameTasks.cr3_eq hfresh.same
  have hsound := (h.sound.evolves_fresh hfresh).sound
  obtain ⟨g', hg', rfl, hlt', hfresh', -⟩ := iVirtAlloc_page hsound (hcr3.symm ▸ hr) hv
  have hsame := hfresh.same.trans hfresh'.same
  have hne : g ≠ g' := fun heq => hused (heq ▸ hg')
  have hpos : 0 < g := Nat.pos_of_ne_zero fun h0 => h.sound.zero (h0 ▸ Or.inl hg)
  have hpos' : 0 < g' := Nat.pos_of_ne_zero fun h0 => hsound.zero (h0 ▸ Or.inl hg')
  rw [mapExeFormat, Option.map_eq_some_iff] at hmap
  obtain ⟨⟨k₄, j⟩, hmap, rfl⟩ := hmap
  have htask : (modifyTask k₂ t fun s => setStacks s (window g) (window g')).tasks t =
      setStacks (k.tasks t) (window g) (window g') := by
    rw [modifyTask_self, hsame.tasks]
  have hstacks : Laid t (k.tasks t) []
      (modifyTask k₂ t fun s => setStacks s (window g) (window g'), VMA_SEGMENT_START) := by
    refine ⟨hsame.currentTask.trans ht, rfl, ⟨[window g', window g], ?_, ?_⟩, ?_, ?_, ?_, ?_⟩
    · rw [htask]
      rfl
    · rw [htask]
      exact listed_stacks hlt hlt' hne hhigh
    · intro i hi hi'
      rw [htask]
      show (stackAreas (k.tasks t).vma (window g) (window g') i).startAddr = 0
      rw [VMA_SEGMENT_START] at hi
      rw [stackAreas, VMA_USER_STACK_IDX, VMA_KERNEL_STACK_IDX, VMA_SEGMENT_START, if_neg (by omega),
        if_neg (by omega), if_neg (by omega)]
      split
      · rfl
      · rename_i hge
        exact hhigh i (not_lt.mp hge) hi'
    · intro i p hi hc
      refine Or.inl ?_
      rw [htask] at hc
      change Covers (stackAreas (k.tasks t).vma (window g) (window g') i) p at hc
      rw [stackAreas] at hc
      split_ifs at hc with h₀ h₁ h₃ h₁₀
      · rw [(covers_window hlt).mp hc, pageOf_window hlt]
        omega
      · rw [(covers_window hlt').mp hc, pageOf_window hlt']
        omega
      · exact absurd rfl hc.1
      · exact absurd rfl hc.1
      · exact absurd (hhigh i (not_lt.mp h₁₀) hi) hc.1
    · rw [htask]
      rfl
    · rw [htask]
      rfl
  obtain rfl := Option.some.inj hs
  have hlaid := laid_segments hfits hstacks hmap
  have hrsp : (modifyTask k₄ t setRsp).tasks t = setRsp (k₄.tasks t) := modifyTask_self k₄ t setRsp
  refine ⟨j, hlaid.running, hlaid.index, ?_, ?_, ?_, ?_, ?_⟩
  · rw [hrsp]
    exact hlaid.listed
  · rw [hrsp]
    exact hlaid.free
  · rw [hrsp]
    exact hlaid.areas
  · rw [hrsp]
    exact hlaid.curPtr
  · rw [hrsp]
    exact hlaid.heapEnd

theorem Inv.exec {S : Space} {call : ExecCall} {image : Image} (h : Inv t S)
    (hm : Meets t S (.exec call)) (hi : call.image = some image)
    (hs : loadImage S.kernel t image = some k') : Inv t (S.replace t image S.kernel k') := by
  obtain ⟨hsizes, hclosed, hfits⟩ := hm
  have hfit := hfits image hi
  have hok : KernelInvariant.Meets S.kernel (.exec call) := by
    intro image' hi'
    obtain rfl : image = image' := Option.some.inj (hi.symm.trans hi')
    have hfew := hfit.few
    rw [VMA_SEGMENT_START, VMA_SCANNED] at hfew
    exact ⟨hfit.linked, by omega⟩
  have hstep : Process.step S.kernel (.exec call) = some k' := by
    rw [Process.step, h.running, Option.bind_some]
    show kexecvpe S.kernel t call = some k'
    simp only [kexecvpe, hsizes, copyStrings, Transition.run_nil, bind, Option.bind_some, hi]
    exact hs
  obtain ⟨hk, -⟩ := h.kinv.step hok hstep
  obtain ⟨j, hlaid⟩ := loadImage_laid h.kinv h.running h.high hfit hs
  obtain ⟨new, hpages, hlisted⟩ := hlaid.listed
  have hgained : gained t S.kernel k' = new := gained_eq hpages
  have hcursor : cursorPage (k'.tasks t) = [] := by
    rw [cursorPage_congr hlaid.curPtr hlaid.heapEnd, cursorPage, if_pos hclosed]
  have hcount : VMA_SEGMENT_START + (entered image.segments).length ≤ VMA_SCANNED :=
    (Nat.add_le_add_left (entered_length_le _) _).trans hfit.few
  refine ⟨⟨?_, ?_⟩, hk, hlaid.running, h.samePage.congr hlaid.curPtr hlaid.heapEnd, ?_⟩
  · show Listed (k'.tasks t).vma (gained t S.kernel k' ++ cursorPage (k'.tasks t))
    rw [hgained, hcursor, List.append_nil]
    exact hlisted
  · intro i hi
    rcases List.mem_append.mp hi with hi | hi
    · exact (List.mem_range.mp hi).trans_le (hcount.trans (by decide))
    · exact h.indices i hi
  · intro i hge hlt
    refine hlaid.free i ?_ hlt
    rw [hlaid.index]
    exact hcount.trans hge

end

/-! ## Whole runs -/

section

variable {k : Kernel} {t : Slot} {S S' : Space}

def Space.start (k : Kernel) : Space := ⟨k, [], []⟩

/-- A new task has an empty table and no heap. -/
theorem inv_start (h : KInv k) (ht : k.currentTask = some t)
    (hempty : ∀ i < VMA_DEF_COUNT, ((k.tasks t).vma i).startAddr = 0) (hclosed : Closed (k.tasks t)) :
    Inv t (Space.start k) := by
  have hcursor : cursorPage (k.tasks t) = [] := if_pos hclosed
  refine ⟨⟨?_, fun i hi => absurd hi List.not_mem_nil⟩, h, ht, fun hopen => absurd hclosed hopen,
    fun i _ hi => hempty i hi⟩
  show Listed (k.tasks t).vma ([] ++ cursorPage (k.tasks t))
  rw [hcursor]
  exact listed_empty hempty

theorem Inv.step {op : Op} (h : Inv t S) (hm : Meets t S op) (hs : step t S op = some S') :
    Inv t S' := by
  cases op with
  | brk =>
    rw [VmaTable.step, Option.map_eq_some_iff] at hs
    obtain ⟨⟨v, k'⟩, hbrk, rfl⟩ := hs
    exact h.brk hm hbrk
  | kmalloc size =>
    rw [VmaTable.step, Option.map_eq_some_iff] at hs
    obtain ⟨⟨v, k'⟩, hkmalloc, rfl⟩ := hs
    exact h.kmalloc hm hkmalloc
  | exec call =>
    have hsizes : call.sizes = [] := hm.1
    simp only [VmaTable.step, hsizes, copyStrings, Transition.run_nil, Option.bind_some,
      Option.bind_eq_some_iff, Option.map_eq_some_iff] at hs
    obtain ⟨image, hi, k', hload, rfl⟩ := hs
    exact h.exec hm hi hload

/-- In every run in which a page of `brk` finds a free slot and one of `kmalloc` the last
free one, no block goes beyond the end of the address space, and an exec copies no strings, finds the heap page closed and an image that fits,
each page of the task is in one scanned slot and no index leaves the table. -/
theorem vma_table_ok (h : Inv t S) {ops : List Op} (hops : Transition.Along (step t) (Meets t) S ops)
    (hr : Transition.run (step t) S ops = some S') : TableOk t S' :=
  (Transition.run_invariant (VmaTable.step t) (C := Meets t) (P := Inv t)
    (fun _ _ _ hm h hs => Inv.step h hm hs) h hops hr).toTableOk

theorem heapMachine_inv : Inv 0 (Space.start HeapBlocks.heapMachine) :=
  inv_start HeapBlocks.heapMachine_kinv rfl (fun _ _ => rfl) (Or.inl rfl)

/-- A page of `brk` in the first slot. -/
theorem vma_table_one_page : ∃ S', Transition.run (step 0) (Space.start HeapBlocks.heapMachine) [.brk] =
    some S' ∧ S'.current = [0xFFFFFFFFF0009000] ∧ TableOk 0 S' := by
  have hrun : (Transition.run (step 0) (Space.start HeapBlocks.heapMachine) [.brk]).map Space.current =
      some [0xFFFFFFFFF0009000] := by decide +kernel
  obtain ⟨S', hr, hcurrent⟩ := Option.map_eq_some_iff.mp hrun
  have hops : Transition.Along (step 0) (Meets 0) (Space.start HeapBlocks.heapMachine) [.brk] :=
    ⟨fun _ hfull => hfull 0 (by decide) rfl, fun _ _ => trivial⟩
  exact ⟨S', hr, hcurrent, vma_table_ok heapMachine_inv hops hr⟩

/-- The page of the first block is in the first two slots. -/
theorem first_block_listed_twice : Inv 0 (Space.start HeapBlocks.heapMachine) ∧
    ∃ S', Transition.run (step 0) (Space.start HeapBlocks.heapMachine) [.kmalloc 100] = some S' ∧
      ¬ TableOk 0 S' := by
  have hrun : (Transition.run (step 0) (Space.start HeapBlocks.heapMachine) [.kmalloc 100]).map (fun S =>
      decide (Covers ((S.kernel.tasks 0).vma 0) (pageOf 0xFFFFFFFFF0009000) ∧
        Covers ((S.kernel.tasks 0).vma 1) (pageOf 0xFFFFFFFFF0009000))) = some true := by decide +kernel
  obtain ⟨S', hr, hboth⟩ := Option.map_eq_some_iff.mp hrun
  refine ⟨heapMachine_inv, S', hr, fun hok => ?_⟩
  obtain ⟨h₀, h₁⟩ := of_decide_eq_true hboth
  exact hok.listed.separate 0 1 (by decide) (by decide) (by decide) _ h₀ h₁

end

end VmaTable
