import DeepOS.PhyMem

/-!
# The boot free list

`initialize_mem_map`, `init_region` and the loop of `init_mem_mgmt` over the
BIOS memory map. The state carries, beside the map itself, every bit index
passed to `mmap_set` or `mmap_unset`, so that the bounds of the array can be
stated. Page counts are natural numbers: `limit / 4096` is below `2 ^ 52`, so
none of the loop counters wraps.
-/
namespace BootMap

open PhyMem

structure Smap where
  base : Word
  length : Word
  type : BitVec 32
  deriving DecidableEq, Repr

structure MapState where
  memMap : MemMap
  maxPhys : Word
  touched : List Nat

def MapState.set (s : MapState) (bit : Nat) : MapState :=
  { s with memMap := mmapSet s.memMap bit, touched := bit :: s.touched }

def MapState.unset (s : MapState) (bit : Nat) : MapState :=
  { s with memMap := mmapUnset s.memMap bit, touched := bit :: s.touched }

/-- All 4096 words become `MEM_NOTAVAILABLE`; what follows the array is kept. -/
def initializeMemMap (memory : MemMap) : MemMap :=
  fun i => if i < MEM_MAP_SIZE then 0 else memory i

def kerPhysfree (physfree : Word) : Word := physfree + BitVec.ofNat 64 (MEM_MAP_SIZE * 64 / 8)

/-- The test of the first loop: the page starts inside the kernel or the map. -/
def Reserved (physbase physfree : Word) (page : Nat) : Prop :=
  page * PHYS_PAGE_SIZE ≤ (kerPhysfree physfree).toNat ∧ page * PHYS_PAGE_SIZE ≥ physbase.toNat

instance (physbase physfree : Word) (page : Nat) : Decidable (Reserved physbase physfree page) :=
  inferInstanceAs (Decidable (_ ∧ _))

def initRegion (physbase physfree base limit : Word) (s : MapState) : MapState :=
  let s := { s with maxPhys := limit }
  let start := base.toNat / PHYS_PAGE_SIZE
  let stop := limit.toNat / PHYS_PAGE_SIZE
  let s := (s.unset 0).unset 1
  let s := (List.range' start (stop + 1 - start)).foldl
    (fun s page => if Reserved physbase physfree page then s else s.set page) s
  (List.range (0x100000 / 0x1000)).foldl (fun s sta => s.unset (sta + 1)) s

def Smap.Usable (e : Smap) : Prop := e.type = 1 ∧ e.length ≠ 0

instance (e : Smap) : Decidable e.Usable := inferInstanceAs (Decidable (_ ∧ _))

def initEntry (physbase physfree : Word) (s : MapState) (e : Smap) : MapState :=
  if e.Usable then initRegion physbase physfree e.base (e.base + e.length) s else s

def initMemMgmt (physbase physfree : Word) (entries : List Smap) (memory : MemMap) : MapState :=
  entries.foldl (initEntry physbase physfree) ⟨initializeMemMap memory, 0, []⟩

/-! ## What one region does -/

@[simp] theorem test_set (s : MapState) (i j : Nat) :
    mmapTest (s.set i).memMap j = (decide (j = i) || mmapTest s.memMap j) :=
  BitArray.test_set (by decide) s.memMap i j

@[simp] theorem test_unset (s : MapState) (i j : Nat) :
    mmapTest (s.unset i).memMap j = (!decide (j = i) && mmapTest s.memMap j) :=
  BitArray.test_clear (by decide) s.memMap i j

@[simp] theorem touched_set (s : MapState) (i : Nat) : (s.set i).touched = i :: s.touched := rfl
@[simp] theorem touched_unset (s : MapState) (i : Nat) : (s.unset i).touched = i :: s.touched := rfl

variable (physbase physfree : Word)

/-- The first loop, seen through anything a single `mmap_set` adds one index to. -/
theorem markLoop_iff (P : MapState → Prop) (j : Nat) (hset : ∀ s i, P (s.set i) ↔ j = i ∨ P s)
    (pages : List Nat) (s : MapState) :
    P (pages.foldl (fun s page => if Reserved physbase physfree page then s else s.set page) s) ↔
      (j ∈ pages ∧ ¬ Reserved physbase physfree j) ∨ P s := by
  induction pages generalizing s with
  | nil => simp
  | cons p ps ih =>
    rw [List.foldl_cons, ih, List.mem_cons]
    by_cases hp : Reserved physbase physfree p
    · rw [if_pos hp]
      constructor
      · rintro (⟨hj, hr⟩ | ht)
        · exact Or.inl ⟨Or.inr hj, hr⟩
        · exact Or.inr ht
      · rintro (⟨rfl | hj, hr⟩ | ht)
        · exact absurd hp hr
        · exact Or.inl ⟨hj, hr⟩
        · exact Or.inr ht
    · rw [if_neg hp, hset]
      constructor
      · rintro (⟨hj, hr⟩ | rfl | ht)
        · exact Or.inl ⟨Or.inr hj, hr⟩
        · exact Or.inl ⟨Or.inl rfl, hp⟩
        · exact Or.inr ht
      · rintro (⟨rfl | hj, hr⟩ | ht)
        · exact Or.inr (Or.inl rfl)
        · exact Or.inl ⟨hj, hr⟩
        · exact Or.inr (Or.inr ht)

theorem lowLoop_test (n : Nat) (s : MapState) (j : Nat) :
    mmapTest ((List.range n).foldl (fun s sta => s.unset (sta + 1)) s).memMap j = true ↔
      ¬ (1 ≤ j ∧ j ≤ n) ∧ mmapTest s.memMap j = true := by
  induction n with
  | zero => simp; omega
  | succ n ih =>
    rw [List.range_succ, List.foldl_append, List.foldl_cons, List.foldl_nil, test_unset,
      Bool.and_eq_true, ih, Bool.not_eq_true', decide_eq_false_iff_not, ← and_assoc]
    refine and_congr_left (fun _ => ?_)
    omega

theorem lowLoop_touched (n : Nat) (s : MapState) (b : Nat) :
    b ∈ ((List.range n).foldl (fun s sta => s.unset (sta + 1)) s).touched ↔
      (1 ≤ b ∧ b ≤ n) ∨ b ∈ s.touched := by
  induction n with
  | zero => simp; omega
  | succ n ih =>
    rw [List.range_succ, List.foldl_append, List.foldl_cons, List.foldl_nil, touched_unset,
      List.mem_cons, ih, ← or_assoc]
    refine or_congr_left ?_
    omega

def Smap.firstPage (e : Smap) : Nat := e.base.toNat / PHYS_PAGE_SIZE

/-- The page holding the limit, which the inclusive loop still visits. -/
def Smap.lastPage (e : Smap) : Nat := (e.base + e.length).toNat / PHYS_PAGE_SIZE

def Smap.Reaches (e : Smap) (page : Nat) : Prop :=
  e.Usable ∧ e.firstPage ≤ page ∧ page ≤ e.lastPage ∧ ¬ Reserved physbase physfree page

variable {physbase physfree} in
theorem initEntry_of_not_usable {e : Smap} (h : ¬ e.Usable) (s : MapState) :
    initEntry physbase physfree s e = s := if_neg h

theorem mem_pages (e : Smap) (j : Nat) :
    j ∈ List.range' e.firstPage (e.lastPage + 1 - e.firstPage) ↔ e.firstPage ≤ j ∧ j ≤ e.lastPage := by
  rw [List.mem_range'_1]
  omega

/-- After one usable entry a bit is set if the entry reaches it, or if it was
set before and is neither bit 0 nor one of the low-memory bits. -/
theorem initEntry_test {e : Smap} (he : e.Usable) (s : MapState) (j : Nat) :
    mmapTest (initEntry physbase physfree s e).memMap j = true ↔
      ¬ (1 ≤ j ∧ j ≤ 256) ∧
        (e.Reaches physbase physfree j ∨ (j ≠ 0 ∧ mmapTest s.memMap j = true)) := by
  rw [initEntry, if_pos he, initRegion]
  rw [lowLoop_test, markLoop_iff physbase physfree (fun s => mmapTest s.memMap j = true) j
    (by intro s i; rw [test_set, Bool.or_eq_true, decide_eq_true_eq])]
  refine and_congr_right (fun hlow => ?_)
  rw [test_unset, test_unset]
  have hpages := mem_pages e j
  rw [Smap.firstPage, Smap.lastPage] at hpages
  rw [hpages, Smap.Reaches, Smap.firstPage, Smap.lastPage]
  simp only [Bool.and_eq_true, Bool.not_eq_true', decide_eq_false_iff_not, he, true_and, and_assoc]
  refine or_congr_right ?_
  constructor
  · rintro ⟨-, h0, ht⟩
    exact ⟨h0, ht⟩
  · rintro ⟨h0, ht⟩
    exact ⟨by omega, h0, ht⟩

/-- The bits one usable entry touches. -/
theorem initEntry_touched {e : Smap} (he : e.Usable) (s : MapState) (b : Nat) :
    b ∈ (initEntry physbase physfree s e).touched ↔
      b ≤ 256 ∨ e.Reaches physbase physfree b ∨ b ∈ s.touched := by
  rw [initEntry, if_pos he, initRegion]
  rw [lowLoop_touched, markLoop_iff physbase physfree (fun s => b ∈ s.touched) b
    (by intro s i; rw [touched_set, List.mem_cons])]
  have hpages := mem_pages e b
  rw [Smap.firstPage, Smap.lastPage] at hpages
  rw [hpages, touched_unset, touched_unset, List.mem_cons, List.mem_cons, Smap.Reaches,
    Smap.firstPage, Smap.lastPage]
  simp only [he, true_and, and_assoc]
  constructor
  · rintro (h | h | h | h | h)
    · exact Or.inl (by omega)
    · exact Or.inr (Or.inl h)
    · exact Or.inl (by omega)
    · exact Or.inl (by omega)
    · exact Or.inr (Or.inr h)
  · rintro (h | h | h)
    · by_cases h0 : b = 0
      · exact Or.inr (Or.inr (Or.inr (Or.inl h0)))
      · exact Or.inl (by omega)
    · exact Or.inr (Or.inl h)
    · exact Or.inr (Or.inr (Or.inr (Or.inr h)))

/-! ## What the whole loop leaves -/

/-- Above low memory the free pages are those some entry reaches. -/
theorem loop_test_high (entries : List Smap) (s : MapState) {j : Nat} (hj : 256 < j) :
    mmapTest (entries.foldl (initEntry physbase physfree) s).memMap j = true ↔
      (∃ e ∈ entries, e.Reaches physbase physfree j) ∨ mmapTest s.memMap j = true := by
  induction entries generalizing s with
  | nil => simp
  | cons e es ih =>
    rw [List.foldl_cons, ih, List.exists_mem_cons_iff, or_assoc, or_left_comm]
    by_cases he : e.Usable
    · rw [initEntry_test physbase physfree he]
      have hlow : ¬ (1 ≤ j ∧ j ≤ 256) := by omega
      have h0 : j ≠ 0 := by omega
      simp only [hlow, not_false_eq_true, true_and, h0, ne_eq]
    · rw [initEntry_of_not_usable he]
      have hr : ¬ e.Reaches physbase physfree j := fun h => he h.1
      simp [hr]

theorem loop_test_low (entries : List Smap) (s : MapState) {j : Nat} (hj : 1 ≤ j ∧ j ≤ 256)
    (ht : mmapTest (entries.foldl (initEntry physbase physfree) s).memMap j = true) :
    mmapTest s.memMap j = true := by
  induction entries generalizing s with
  | nil => exact ht
  | cons e es ih =>
    have h := ih _ ht
    by_cases he : e.Usable
    · rw [initEntry_test physbase physfree he] at h
      exact absurd hj h.1
    · rwa [initEntry_of_not_usable he] at h

def lastUsable (entries : List Smap) : Option Smap :=
  (entries.filter (fun e => decide e.Usable)).getLast?

/-- Frame 0 is decided by the last usable entry alone: every call clears it
first and the low-memory loop starts at frame 1. -/
theorem loop_test_zero (entries : List Smap) (s : MapState) :
    mmapTest (entries.foldl (initEntry physbase physfree) s).memMap 0 = true ↔
      match lastUsable entries with
      | some e => e.Reaches physbase physfree 0
      | none => mmapTest s.memMap 0 = true := by
  induction entries using List.reverseRecOn with
  | nil => simp [lastUsable]
  | append_singleton es e ih =>
    rw [List.foldl_append, List.foldl_cons, List.foldl_nil]
    by_cases he : e.Usable
    · have hl : lastUsable (es ++ [e]) = some e := by simp [lastUsable, he]
      rw [initEntry_test physbase physfree he, hl]
      simp
    · have hl : lastUsable (es ++ [e]) = lastUsable es := by simp [lastUsable, he]
      rw [initEntry_of_not_usable he, hl, ih]

theorem loop_touched (entries : List Smap) (s : MapState) {b : Nat} (hb : 256 < b) :
    b ∈ (entries.foldl (initEntry physbase physfree) s).touched ↔
      (∃ e ∈ entries, e.Reaches physbase physfree b) ∨ b ∈ s.touched := by
  induction entries generalizing s with
  | nil => simp
  | cons e es ih =>
    rw [List.foldl_cons, ih, List.exists_mem_cons_iff, or_assoc, or_left_comm]
    by_cases he : e.Usable
    · have hlow : ¬ b ≤ 256 := by omega
      rw [initEntry_touched physbase physfree he]
      simp only [hlow, false_or]
    · rw [initEntry_of_not_usable he]
      have hr : ¬ e.Reaches physbase physfree b := fun h => he h.1
      simp [hr]

variable (entries : List Smap) (memory : MemMap)

theorem initializeMemMap_test {j : Nat} (hj : j < FRAMES) :
    mmapTest (initializeMemMap memory) j = false := by
  have hq : j / 64 < MEM_MAP_SIZE := by
    rw [FRAMES] at hj
    rw [MEM_MAP_SIZE]
    omega
  simp [mmapTest, BitArray.test, initializeMemMap, hq]

/-- Exactly which frames are free once the loop has run. -/
theorem free_iff {f : Nat} (hf : f < FRAMES) :
    mmapTest (initMemMgmt physbase physfree entries memory).memMap f = true ↔
      (256 < f ∧ ∃ e ∈ entries, e.Reaches physbase physfree f) ∨
      (f = 0 ∧ ∃ e, lastUsable entries = some e ∧ e.Reaches physbase physfree 0) := by
  have hzero := initializeMemMap_test memory hf
  rw [initMemMgmt]
  by_cases hhigh : 256 < f
  · have h0 : f ≠ 0 := by omega
    rw [loop_test_high physbase physfree entries _ hhigh, hzero]
    simp [hhigh, h0]
  · by_cases h0 : f = 0
    · subst h0
      rw [loop_test_zero]
      rcases lastUsable entries with _ | e
      · simp [hzero]
      · simp
    · have hlow : 1 ≤ f ∧ f ≤ 256 := by omega
      constructor
      · intro ht
        have h := loop_test_low physbase physfree entries _ hlow ht
        rw [hzero] at h
        exact Bool.noConfusion h
      · rintro (⟨h, -⟩ | ⟨h, -⟩)
        · exact absurd h hhigh
        · exact absurd h h0

/-- The page lies entirely inside `[base, base + length)` of a type-1 entry. -/
def Smap.Inside (e : Smap) (page : Nat) : Prop :=
  e.type = 1 ∧ e.base.toNat ≤ page * PHYS_PAGE_SIZE ∧
    (page + 1) * PHYS_PAGE_SIZE ≤ e.base.toNat + e.length.toNat

def Overlaps (page : Nat) : Prop :=
  ∃ a, page * PHYS_PAGE_SIZE ≤ a ∧ a < (page + 1) * PHYS_PAGE_SIZE ∧
    physbase.toNat ≤ a ∧ a < physfree.toNat

/-- What a free list built at boot has to satisfy. -/
structure Sound (s : MapState) : Prop where
  inside : ∀ f ∈ freeFrames s.memMap, ∃ e ∈ entries, e.Inside f
  high : ∀ f ∈ freeFrames s.memMap, 0x100000 ≤ f * PHYS_PAGE_SIZE
  kernel : ∀ f ∈ freeFrames s.memMap, ¬ Overlaps physbase physfree f
  bounds : ∀ b ∈ s.touched, b < FRAMES

/-- The memory maps for which the loop is right. Only the page of an entry's
base and the page of its limit can fall outside the entry, so only those two
need another entry to cover them. -/
structure MapFits : Prop where
  ends : ∀ e ∈ entries, ∀ page, page = e.firstPage ∨ page = e.lastPage →
    e.Reaches physbase physfree page → 256 < page → ∃ e' ∈ entries, e'.Inside page
  small : ∀ e ∈ entries, ∀ page, e.Reaches physbase physfree page → page < FRAMES
  kernel : ∀ e ∈ entries, ∀ page, e.Reaches physbase physfree page → 256 < page →
    ¬ Overlaps physbase physfree page
  zero : ∀ e, lastUsable entries = some e → ¬ e.Reaches physbase physfree 0

/-- Strictly between its first and last page an entry covers what it reaches. -/
theorem inside_of_between {e : Smap} {page : Nat} (hr : e.Reaches physbase physfree page)
    (hfirst : page ≠ e.firstPage) (hlast : page ≠ e.lastPage) : e.Inside page := by
  obtain ⟨hu, hge, hle, -⟩ := hr
  have hlimit : (e.base + e.length).toNat ≤ e.base.toNat + e.length.toNat := by
    rw [BitVec.toNat_add]
    exact Nat.mod_le _ _
  rw [Smap.firstPage, PHYS_PAGE_SIZE] at hge hfirst
  rw [Smap.lastPage, PHYS_PAGE_SIZE] at hle hlast
  refine ⟨hu.1, ?_, ?_⟩ <;> rw [PHYS_PAGE_SIZE] <;> omega

theorem mem_free_of_reaches {e : Smap} (he : e ∈ entries) {f : Nat} (hf : f < FRAMES)
    (hr : e.Reaches physbase physfree f) (hhigh : 256 < f) :
    f ∈ freeFrames (initMemMgmt physbase physfree entries memory).memMap :=
  ⟨hf, (free_iff physbase physfree entries memory hf).mpr (Or.inl ⟨hhigh, e, he, hr⟩)⟩

theorem sound_of_mapFits (h : MapFits physbase physfree entries) :
    Sound physbase physfree entries (initMemMgmt physbase physfree entries memory) := by
  -- a free frame is above low memory and reached by some entry
  have hfree : ∀ f ∈ freeFrames (initMemMgmt physbase physfree entries memory).memMap,
      256 < f ∧ ∃ e ∈ entries, e.Reaches physbase physfree f := by
    rintro f ⟨hf, ht⟩
    rcases (free_iff physbase physfree entries memory hf).mp ht with hh | ⟨-, e, hl, hr⟩
    · exact hh
    · exact absurd hr (h.zero e hl)
  refine ⟨?_, ?_, ?_, ?_⟩
  · intro f hf
    obtain ⟨hhigh, e, he, hr⟩ := hfree f hf
    by_cases hend : f = e.firstPage ∨ f = e.lastPage
    · exact h.ends e he f hend hr hhigh
    · rw [not_or] at hend
      exact ⟨e, he, inside_of_between physbase physfree hr hend.1 hend.2⟩
  · intro f hf
    have := (hfree f hf).1
    rw [PHYS_PAGE_SIZE]
    omega
  · intro f hf
    obtain ⟨hhigh, e, he, hr⟩ := hfree f hf
    exact h.kernel e he f hr hhigh
  · intro b hb
    by_cases hhigh : 256 < b
    · rw [initMemMgmt, loop_touched physbase physfree entries _ hhigh] at hb
      rcases hb with ⟨e, he, hr⟩ | hb
      · exact h.small e he b hr
      · cases hb
    · rw [FRAMES]
      omega

theorem mapFits_of_sound
    (h : Sound physbase physfree entries (initMemMgmt physbase physfree entries memory)) :
    MapFits physbase physfree entries := by
  have hsmall : ∀ e ∈ entries, ∀ page, e.Reaches physbase physfree page → page < FRAMES := by
    intro e he page hr
    by_cases hhigh : 256 < page
    · apply h.bounds
      rw [initMemMgmt, loop_touched physbase physfree entries _ hhigh]
      exact Or.inl ⟨e, he, hr⟩
    · rw [FRAMES]
      omega
  refine ⟨?_, hsmall, ?_, ?_⟩
  · intro e he page _ hr hhigh
    exact h.inside page
      (mem_free_of_reaches physbase physfree entries memory he (hsmall e he page hr) hr hhigh)
  · intro e he page hr hhigh
    exact h.kernel page
      (mem_free_of_reaches physbase physfree entries memory he (hsmall e he page hr) hr hhigh)
  · intro e hl hr
    have hf : (0 : Nat) < FRAMES := by decide
    have hmem : 0 ∈ freeFrames (initMemMgmt physbase physfree entries memory).memMap :=
      ⟨hf, (free_iff physbase physfree entries memory hf).mpr (Or.inr ⟨rfl, e, hl, hr⟩)⟩
    have := h.high 0 hmem
    omega

/-- The boot free list is sound for exactly the maps that fit. -/
theorem boot_free_list_sound_iff :
    Sound physbase physfree entries (initMemMgmt physbase physfree entries memory) ↔
      MapFits physbase physfree entries :=
  ⟨mapFits_of_sound physbase physfree entries memory,
    sound_of_mapFits physbase physfree entries memory⟩

def pcMap : List Smap :=
  [⟨0, 0x9fc00, 1⟩, ⟨0x9fc00, 0x400, 2⟩, ⟨0xf0000, 0x10000, 2⟩, ⟨0x100000, 0x7ee0000, 1⟩,
    ⟨0x7fe0000, 0x20000, 2⟩]

/-- On that map the frame at `0x7fe0000`, the first one past the end of RAM and
reserved by the next entry, is marked free. -/
theorem pcMap_not_sound :
    ¬ Sound 0x200000 0x220000 pcMap (initMemMgmt 0x200000 0x220000 pcMap (fun _ => 0)) := by
  intro h
  have hmem : (⟨0x100000, 0x7ee0000, 1⟩ : Smap) ∈ pcMap := by simp [pcMap]
  have hr : (⟨0x100000, 0x7ee0000, 1⟩ : Smap).Reaches 0x200000 0x220000 0x7fe0 := by
    simp only [Smap.Reaches]
    decide
  have hfree := mem_free_of_reaches 0x200000 0x220000 pcMap (fun _ => 0) hmem (by decide) hr (by decide)
  obtain ⟨e, he, hin⟩ := h.inside _ hfree
  have hnone : ∀ e ∈ pcMap, ¬ (e.type = 1 ∧ e.base.toNat ≤ 0x7fe0 * PHYS_PAGE_SIZE ∧
      (0x7fe0 + 1) * PHYS_PAGE_SIZE ≤ e.base.toNat + e.length.toNat) := by
    decide
  exact hnone e he hin

end BootMap
