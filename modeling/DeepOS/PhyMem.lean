import DeepOS.BitArray
import DeepOS.Transition

/-!
# Physical page allocator

The bitmap allocator of `sys/phy_mem.c`. `mem_map` is an array of 4096 words of
64 bits; a set bit is a free frame. Words from index 4096 on are the memory
that follows the array, which a bit index out of range would reach.
-/
namespace PhyMem

abbrev Word := BitVec 64

/-- The words at and after the address `mem_map`. -/
abbrev MemMap := Nat → Word

def MEM_MAP_SIZE : Nat := 4096
def PHYS_PAGE_SIZE : Nat := 4096

/-- Number of bits, and so of frames, in the array proper. -/
def FRAMES : Nat := 64 * 4096

def frameAddr (f : Nat) : Word := BitVec.ofNat 64 (f * PHYS_PAGE_SIZE)

def frameOf (p : Word) : Nat := p.toNat / PHYS_PAGE_SIZE

def mmapSet (m : MemMap) (bit : Nat) : MemMap := BitArray.set m bit

def mmapUnset (m : MemMap) (bit : Nat) : MemMap := BitArray.clear m bit

def mmapTest (m : MemMap) (bit : Nat) : Bool := BitArray.test m bit

/-- The two nested loops over words and bits; `-1` when no bit is set. -/
def getIndexOfFreePage (m : MemMap) : Word :=
  (BitArray.scan m MEM_MAP_SIZE).elim (-1) (BitVec.ofNat 64)

/-- The address handed out, `0` standing for `NULL`, and the map afterwards. -/
def pageAlloc (m : MemMap) : Word × MemMap :=
  let index := getIndexOfFreePage m
  if index = -1 then (0, m)
  else (index * BitVec.ofNat 64 PHYS_PAGE_SIZE, mmapUnset m index.toNat)

def pageDealloc (m : MemMap) (p : Word) : MemMap := mmapSet m (p.toNat / PHYS_PAGE_SIZE)

def freeFrames (m : MemMap) : Set Nat := BitArray.members m MEM_MAP_SIZE

theorem mem_freeFrames (m : MemMap) (f : Nat) :
    f ∈ freeFrames m ↔ f < FRAMES ∧ mmapTest m f = true := Iff.rfl

theorem freeFrames_lt {m : MemMap} {f : Nat} (h : f ∈ freeFrames m) : f < FRAMES := h.1

@[simp] theorem freeFrames_set (m : MemMap) (f : Nat) (hf : f < FRAMES) :
    freeFrames (mmapSet m f) = insert f (freeFrames m) :=
  BitArray.members_set (by decide) m MEM_MAP_SIZE f hf

@[simp] theorem freeFrames_unset (m : MemMap) (f : Nat) :
    freeFrames (mmapUnset m f) = freeFrames m \ {f} :=
  BitArray.members_clear (by decide) m MEM_MAP_SIZE f

theorem frameAddr_toNat {f : Nat} (hf : f < FRAMES) : (frameAddr f).toNat = f * 4096 := by
  rw [frameAddr, BitVec.toNat_ofNat, PHYS_PAGE_SIZE]
  apply Nat.mod_eq_of_lt
  rw [FRAMES] at hf
  omega

theorem frameOf_frameAddr {f : Nat} (hf : f < FRAMES) : frameOf (frameAddr f) = f := by
  rw [frameOf, frameAddr_toNat hf, PHYS_PAGE_SIZE]
  omega

theorem frameAddr_inj {f g : Nat} (hf : f < FRAMES) (hg : g < FRAMES)
    (h : frameAddr f = frameAddr g) : f = g := by
  rw [← frameOf_frameAddr hf, ← frameOf_frameAddr hg, h]

theorem frameAddr_ne_zero {f : Nat} (hf : f < FRAMES) (h0 : f ≠ 0) : frameAddr f ≠ 0 := by
  intro h
  have ht := frameAddr_toNat hf
  rw [h] at ht
  simp at ht
  omega

/-- The word `-1` is never the index of a frame. -/
theorem index_ne_neg_one {f : Nat} (hf : f < FRAMES) : BitVec.ofNat 64 f ≠ (-1 : Word) := by
  intro h
  have ht := congrArg BitVec.toNat h
  rw [BitVec.toNat_ofNat, FRAMES] at *
  have hneg : (-1 : Word).toNat = 2 ^ 64 - 1 := by decide
  omega

theorem pageAlloc_empty {m : MemMap} (h : freeFrames m = ∅) : pageAlloc m = (0, m) := by
  have hs : BitArray.scan m MEM_MAP_SIZE = none := by
    by_contra hne
    obtain ⟨k, hk⟩ := Option.ne_none_iff_exists'.mp hne
    have hmem : k ∈ freeFrames m := ⟨(BitArray.scan_some hk).1, (BitArray.scan_some hk).2.1⟩
    rw [h] at hmem
    exact Set.notMem_empty k hmem
  have hindex : getIndexOfFreePage m = -1 := by rw [getIndexOfFreePage, hs]; rfl
  simp [pageAlloc, hindex]

/-- A nonempty map hands out its lowest frame and only clears that bit. -/
theorem pageAlloc_least {m : MemMap} {f : Nat} (h : IsLeast (freeFrames m) f) :
    pageAlloc m = (frameAddr f, mmapUnset m f) := by
  have hs : BitArray.scan m MEM_MAP_SIZE = some f := by
    have hne : BitArray.scan m MEM_MAP_SIZE ≠ none := by
      intro hnone
      have hf := BitArray.scan_none hnone f h.1.1
      rw [h.1.2] at hf
      exact Bool.noConfusion hf
    obtain ⟨k, hk⟩ := Option.ne_none_iff_exists'.mp hne
    obtain ⟨hlt, hset, hlow⟩ := BitArray.scan_some hk
    have hle : f ≤ k := h.2 ⟨hlt, hset⟩
    have hge : ¬ f < k := by
      intro hfk
      have hf := hlow f hfk
      rw [h.1.2] at hf
      exact Bool.noConfusion hf
    rw [hk, show k = f by omega]
  have hf : f < FRAMES := freeFrames_lt h.1
  have hlt : f < 2 ^ 64 := by rw [FRAMES] at hf; omega
  have hindex : getIndexOfFreePage m = BitVec.ofNat 64 f := by rw [getIndexOfFreePage, hs]; rfl
  simp only [pageAlloc, hindex, if_neg (index_ne_neg_one hf), BitVec.toNat_ofNat,
    Nat.mod_eq_of_lt hlt, frameAddr, BitVec.ofNat_mul]

theorem exists_least {m : MemMap} (h : freeFrames m ≠ ∅) : ∃ f, IsLeast (freeFrames m) f := by
  obtain ⟨g, hg⟩ := Set.nonempty_iff_ne_empty.mpr h
  classical
  exact ⟨Nat.find ⟨g, hg⟩, Nat.find_spec ⟨g, hg⟩, fun k hk => Nat.find_min' _ hk⟩

/-- The two outcomes of `page_alloc`. -/
theorem pageAlloc_cases (m : MemMap) :
    (freeFrames m = ∅ ∧ pageAlloc m = (0, m)) ∨
    (∃ f, IsLeast (freeFrames m) f ∧ pageAlloc m = (frameAddr f, mmapUnset m f)) := by
  by_cases h : freeFrames m = ∅
  · exact Or.inl ⟨h, pageAlloc_empty h⟩
  · obtain ⟨f, hf⟩ := exists_least h
    exact Or.inr ⟨f, hf, pageAlloc_least hf⟩

/-! ## Runs of the allocator -/

inductive Call where
  | alloc : Call
  | dealloc : Word → Call
  deriving DecidableEq, Repr

/-- The map together with the addresses handed out and not yet returned. -/
structure Ledger where
  memMap : MemMap
  outstanding : List Word

/-- One call. A `page_dealloc` of an address that is not outstanding is outside
the interface and has no result. -/
def call (s : Ledger) : Call → Option Ledger
  | .alloc =>
    let (p, m) := pageAlloc s.memMap
    some ⟨m, if p = 0 then s.outstanding else p :: s.outstanding⟩
  | .dealloc p =>
    if p ∈ s.outstanding then some ⟨pageDealloc s.memMap p, s.outstanding.erase p⟩ else none

def runCalls : Ledger → List Call → Option Ledger := Transition.run call

def held (s : Ledger) : Set Nat := {f | f < FRAMES ∧ frameAddr f ∈ s.outstanding}

/-- The conservation law between the initial free set, the map and the ledger. -/
structure Conserved (free₀ : Set Nat) (s : Ledger) : Prop where
  nodup : s.outstanding.Nodup
  page : ∀ p ∈ s.outstanding, ∃ f, f < FRAMES ∧ f ≠ 0 ∧ p = frameAddr f
  disjoint : Disjoint (held s) (freeFrames s.memMap)
  union : held s ∪ freeFrames s.memMap = free₀

theorem conserved_start (m : MemMap) : Conserved (freeFrames m) ⟨m, []⟩ := by
  have hheld : held ⟨m, []⟩ = ∅ := by
    ext f; simp [held]
  refine ⟨List.nodup_nil, by simp, ?_, ?_⟩
  · rw [hheld]; exact Set.empty_disjoint _
  · rw [hheld, Set.empty_union]

theorem held_cons {m m' : MemMap} {l : List Word} {f : Nat} (hf : f < FRAMES) :
    held ⟨m', frameAddr f :: l⟩ = insert f (held ⟨m, l⟩) := by
  ext g
  simp only [held, Set.mem_ofPred_eq, List.mem_cons, Set.mem_insert_iff]
  constructor
  · rintro ⟨hg, h | h⟩
    · exact Or.inl (frameAddr_inj hg hf h)
    · exact Or.inr ⟨hg, h⟩
  · rintro (rfl | ⟨hg, h⟩)
    · exact ⟨hf, Or.inl rfl⟩
    · exact ⟨hg, Or.inr h⟩

theorem held_erase {m m' : MemMap} {l : List Word} {f : Nat} (hf : f < FRAMES) (hl : l.Nodup) :
    held ⟨m', l.erase (frameAddr f)⟩ = held ⟨m, l⟩ \ {f} := by
  ext g
  simp only [held, Set.mem_ofPred_eq, hl.mem_erase_iff, Set.mem_sdiff, Set.mem_singleton_iff]
  constructor
  · rintro ⟨hg, hne, h⟩
    exact ⟨⟨hg, h⟩, fun he => hne (by rw [he])⟩
  · rintro ⟨⟨hg, h⟩, hne⟩
    exact ⟨hg, fun he => hne (frameAddr_inj hg hf he), h⟩

/-- An allocation moves the lowest free frame from the map to the ledger. -/
theorem alloc_conserved {free₀ : Set Nat} {s s' : Ledger} (h0 : 0 ∉ free₀)
    (h : Conserved free₀ s) (hc : call s .alloc = some s') : Conserved free₀ s' := by
  rcases pageAlloc_cases s.memMap with ⟨-, ha⟩ | ⟨f, hleast, ha⟩
  · simp only [call, ha, if_true, Option.some.injEq] at hc
    subst hc
    exact h
  · have hf : f < FRAMES := freeFrames_lt hleast.1
    have hfree : f ∈ free₀ := by rw [← h.union]; exact Or.inr hleast.1
    have hne : f ≠ 0 := by rintro rfl; exact h0 hfree
    have hnot : f ∉ held s := fun hh => Set.disjoint_left.mp h.disjoint hh hleast.1
    simp only [call, ha, if_neg (frameAddr_ne_zero hf hne), Option.some.injEq] at hc
    subst hc
    refine ⟨?_, ?_, ?_, ?_⟩
    · exact List.nodup_cons.mpr ⟨fun hm => hnot ⟨hf, hm⟩, h.nodup⟩
    · intro p hp
      rcases List.mem_cons.mp hp with rfl | hp
      · exact ⟨f, hf, hne, rfl⟩
      · exact h.page p hp
    · rw [held_cons (m := s.memMap) hf, freeFrames_unset, Set.disjoint_left]
      rintro g (rfl | hg) ⟨hgf, hgne⟩
      · exact hgne rfl
      · exact Set.disjoint_left.mp h.disjoint hg hgf
    · rw [held_cons (m := s.memMap) hf, freeFrames_unset, ← h.union]
      ext g
      simp only [Set.mem_union, Set.mem_insert_iff, Set.mem_sdiff, Set.mem_singleton_iff]
      by_cases hg : g = f
      · subst hg; simp [hleast.1]
      · simp [hg]

/-- A release moves its frame back from the ledger to the map. -/
theorem dealloc_conserved {free₀ : Set Nat} {s s' : Ledger} {p : Word}
    (h : Conserved free₀ s) (hc : call s (.dealloc p) = some s') : Conserved free₀ s' := by
  by_cases hp : p ∈ s.outstanding
  · obtain ⟨f, hf, -, rfl⟩ := h.page p hp
    simp only [call, if_pos hp, Option.some.injEq] at hc
    subst hc
    have hidx : (frameAddr f).toNat / PHYS_PAGE_SIZE = f := frameOf_frameAddr hf
    have hmem : f ∈ held s := ⟨hf, hp⟩
    refine ⟨h.nodup.erase _, ?_, ?_, ?_⟩
    · intro q hq
      exact h.page q (List.mem_of_mem_erase hq)
    · rw [held_erase (m := s.memMap) hf h.nodup, pageDealloc, hidx, freeFrames_set _ _ hf,
        Set.disjoint_left]
      rintro g ⟨hg, hne⟩ (rfl | hgf)
      · exact hne rfl
      · exact Set.disjoint_left.mp h.disjoint hg hgf
    · rw [held_erase (m := s.memMap) hf h.nodup, pageDealloc, hidx, freeFrames_set _ _ hf, ← h.union]
      ext g
      simp only [Set.mem_union, Set.mem_insert_iff, Set.mem_sdiff, Set.mem_singleton_iff]
      by_cases hg : g = f
      · subst hg; simp [hmem]
      · simp [hg]
  · simp [call, hp] at hc

theorem call_conserved {free₀ : Set Nat} (h0 : 0 ∉ free₀) (s : Ledger) (c : Call) (s' : Ledger)
    (h : Conserved free₀ s) (hc : call s c = some s') : Conserved free₀ s' := by
  cases c with
  | alloc => exact alloc_conserved h0 h hc
  | dealloc p => exact dealloc_conserved h hc

theorem runCalls_conserved {free₀ : Set Nat} (h0 : 0 ∉ free₀) (cs : List Call) {s s' : Ledger}
    (h : Conserved free₀ s) (hr : runCalls s cs = some s') : Conserved free₀ s' :=
  Transition.run_invariant call (fun s c s' _ => call_conserved h0 s c s') h
    (Transition.along_of_forall call (C := fun _ _ => True) (fun _ _ _ => trivial) s) hr

/-- Over any run the outstanding addresses are distinct page addresses, no
frame is lost or handed out twice, and the next allocation takes the lowest
free frame or fails without touching the map. -/
theorem alloc_run_sound (m₀ : MemMap) (h0 : 0 ∉ freeFrames m₀) (cs : List Call) (s : Ledger)
    (hr : runCalls ⟨m₀, []⟩ cs = some s) :
    s.outstanding.Nodup ∧ (∀ p ∈ s.outstanding, p ≠ 0 ∧ p.toNat % PHYS_PAGE_SIZE = 0) ∧
    Disjoint (held s) (freeFrames s.memMap) ∧
    held s ∪ freeFrames s.memMap = freeFrames m₀ ∧
    (∀ f, IsLeast (freeFrames s.memMap) f → (pageAlloc s.memMap).1 = frameAddr f) ∧
    ((pageAlloc s.memMap).1 = 0 ↔ freeFrames s.memMap = ∅) ∧
    (freeFrames s.memMap = ∅ → (pageAlloc s.memMap).2 = s.memMap) := by
  have h := runCalls_conserved h0 cs (conserved_start m₀) hr
  refine ⟨h.nodup, ?_, h.disjoint, h.union, ?_, ?_, ?_⟩
  · intro p hp
    obtain ⟨f, hf, hne, rfl⟩ := h.page p hp
    refine ⟨frameAddr_ne_zero hf hne, ?_⟩
    rw [frameAddr_toNat hf, PHYS_PAGE_SIZE]
    omega
  · intro f hf
    rw [pageAlloc_least hf]
  · constructor
    · intro hz
      rcases pageAlloc_cases s.memMap with ⟨he, -⟩ | ⟨f, hf, ha⟩
      · exact he
      · have hfree : f ∈ freeFrames m₀ := by rw [← h.union]; exact Or.inr hf.1
        have hne : f ≠ 0 := by rintro rfl; exact h0 hfree
        rw [ha] at hz
        exact absurd hz (frameAddr_ne_zero (freeFrames_lt hf.1) hne)
    · intro he
      rw [pageAlloc_empty he]
  · intro he
    rw [pageAlloc_empty he]

def twoFrames : MemMap := fun i => if i = 0 then 0b100100 else 0

/-- Both frames are handed out, then frame 2 is returned and taken again. -/
theorem alloc_run_sound_two_frames :
    ∃ s, runCalls ⟨twoFrames, []⟩ [.alloc, .alloc, .dealloc 0x2000, .alloc] = some s ∧
      s.outstanding = [0x2000, 0x5000] ∧ s.outstanding.Nodup ∧
      held s ∪ freeFrames s.memMap = freeFrames twoFrames := by
  have hrun : (runCalls ⟨twoFrames, []⟩
      [.alloc, .alloc, .dealloc 0x2000, .alloc]).map Ledger.outstanding =
        some [0x2000, 0x5000] := by decide +kernel
  obtain ⟨s, hs, hout⟩ := Option.map_eq_some_iff.mp hrun
  have h0 : 0 ∉ freeFrames twoFrames := by
    rw [mem_freeFrames]
    decide +kernel
  have h := alloc_run_sound twoFrames h0 _ s hs
  exact ⟨s, hs, hout, h.1, h.2.2.2.1⟩

end PhyMem
