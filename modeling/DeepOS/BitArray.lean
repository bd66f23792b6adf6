import Mathlib

/-!
# Bit arrays held in fixed-width words

An array of `w`-bit words read as one sequence of bits, with the usual three
shift-and-mask operations and the nested scan for the lowest set bit. Each
operation is related to the set of indices whose bit is one.
-/
namespace BitArray

variable {w : Nat}

def mask (w k : Nat) : BitVec w := 1#w <<< k

def test (m : Nat → BitVec w) (i : Nat) : Bool := m (i / w) &&& mask w (i % w) != 0#w

def set (m : Nat → BitVec w) (i : Nat) : Nat → BitVec w :=
  Function.update m (i / w) (m (i / w) ||| mask w (i % w))

def clear (m : Nat → BitVec w) (i : Nat) : Nat → BitVec w :=
  Function.update m (i / w) (m (i / w) &&& ~~~ mask w (i % w))

def scanWord (v : BitVec w) : Option Nat :=
  (List.range w).find? (fun k => v &&& mask w k != 0#w)

def scan (m : Nat → BitVec w) (n : Nat) : Option Nat :=
  (List.range n).findSome? (fun i => (scanWord (m i)).map (fun k => i * w + k))

theorem getLsbD_mask (k j : Nat) : (mask w k).getLsbD j = (decide (k < w) && decide (k = j)) := by
  have h : mask w k = BitVec.twoPow w k := rfl
  rw [h, BitVec.getLsbD_twoPow]

/-- Masking with one bit is nonzero exactly when the word has that bit. -/
theorem and_mask_ne_zero (v : BitVec w) (k : Nat) : (v &&& mask w k != 0#w) = v.getLsbD k := by
  rw [Bool.eq_iff_iff, bne_iff_ne]
  constructor
  · intro h
    by_contra hv
    apply h
    apply BitVec.eq_of_getLsbD_eq
    intro j hj
    rw [BitVec.getLsbD_and, getLsbD_mask, BitVec.getLsbD_zero]
    by_cases hkj : k = j
    · subst hkj; simp [Bool.eq_false_iff.mpr hv]
    · simp [hkj]
  · intro hv h
    have hk : k < w := BitVec.lt_of_getLsbD hv
    have hbit : (v &&& mask w k).getLsbD k = true := by
      rw [BitVec.getLsbD_and, getLsbD_mask]; simp [hv, hk]
    rw [h, BitVec.getLsbD_zero] at hbit
    exact Bool.noConfusion hbit

theorem test_eq (m : Nat → BitVec w) (i : Nat) : test m i = (m (i / w)).getLsbD (i % w) :=
  and_mask_ne_zero _ _

theorem mod_width_lt (hw : 0 < w) (i : Nat) : i % w < w := Nat.mod_lt i hw

/-- Two indices are equal once they agree on the word and on the bit. -/
theorem index_ext {i j : Nat} (hq : i / w = j / w) (hr : i % w = j % w) : i = j := by
  rw [← Nat.div_add_mod i w, ← Nat.div_add_mod j w, hq, hr]

theorem test_set (hw : 0 < w) (m : Nat → BitVec w) (i j : Nat) :
    test (set m i) j = (decide (j = i) || test m j) := by
  simp only [test_eq, set, Function.update_apply]
  by_cases hq : j / w = i / w
  · rw [if_pos hq, BitVec.getLsbD_or, getLsbD_mask, decide_eq_true (mod_width_lt hw i), ← hq]
    by_cases hr : i % w = j % w
    · have hij : j = i := index_ext hq hr.symm
      simp [hij]
    · have hij : j ≠ i := by intro h; exact hr (by rw [h])
      simp [hr, hij]
  · have hij : j ≠ i := by intro h; exact hq (by rw [h])
    simp [hq, hij]

theorem test_clear (hw : 0 < w) (m : Nat → BitVec w) (i j : Nat) :
    test (clear m i) j = (!decide (j = i) && test m j) := by
  simp only [test_eq, clear, Function.update_apply]
  by_cases hq : j / w = i / w
  · rw [if_pos hq, BitVec.getLsbD_and, BitVec.getLsbD_not, getLsbD_mask,
      decide_eq_true (mod_width_lt hw i), decide_eq_true (mod_width_lt hw j), ← hq]
    by_cases hr : i % w = j % w
    · have hij : j = i := index_ext hq hr.symm
      simp [hij]
    · have hij : j ≠ i := by intro h; exact hr (by rw [h])
      simp [hr, hij]
  · have hij : j ≠ i := by intro h; exact hq (by rw [h])
    simp [hq, hij]

theorem scanWord_some {v : BitVec w} {k : Nat} (h : scanWord v = some k) :
    k < w ∧ v.getLsbD k = true ∧ ∀ j < k, v.getLsbD j = false := by
  simp only [scanWord, and_mask_ne_zero] at h
  rw [List.find?_range_eq_some] at h
  obtain ⟨hk, hw, hlow⟩ := h
  refine ⟨by simpa using hw, hk, ?_⟩
  intro j hj
  simpa using hlow j hj

theorem scanWord_none {v : BitVec w} (h : scanWord v = none) (k : Nat) : v.getLsbD k = false := by
  simp only [scanWord, and_mask_ne_zero, List.find?_eq_none, List.mem_range] at h
  by_cases hk : k < w
  · simpa using h k hk
  · exact BitVec.getLsbD_of_ge v k (by omega)

/-- What a successful scan returns: an index inside the array whose bit is set,
with every lower bit clear. -/
theorem scan_some {m : Nat → BitVec w} {n k : Nat} (h : scan m n = some k) :
    k < n * w ∧ test m k = true ∧ ∀ j < k, test m j = false := by
  induction n with
  | zero => simp [scan] at h
  | succ n ih =>
    rw [scan, List.range_succ, List.findSome?_append] at h
    rcases hs : scan m n with _ | k'
    · rw [scan] at hs
      rw [hs] at h
      simp only [List.findSome?_cons, List.findSome?_nil, Option.none_or] at h
      rcases hv : scanWord (m n) with _ | b
      · simp [hv] at h
      simp only [hv, Option.map_some, Option.some.injEq] at h
      obtain ⟨hb, hset, hlow⟩ := scanWord_some hv
      have hw : 0 < w := by omega
      have hdiv : ∀ c < w, (n * w + c) / w = n ∧ (n * w + c) % w = c := by
        intro c hc
        rw [Nat.mul_comm n w, Nat.mul_add_div hw, Nat.mul_add_mod, Nat.div_eq_of_lt hc,
          Nat.mod_eq_of_lt hc]
        exact ⟨by omega, rfl⟩
      subst h
      refine ⟨by rw [Nat.succ_mul]; omega, ?_, ?_⟩
      · rw [test_eq, (hdiv b hb).1, (hdiv b hb).2]; exact hset
      · intro j hj
        by_cases hjn : j < n * w
        · -- the words before `n` were all scanned without a hit
          rw [test_eq]
          have hq : j / w < n := (Nat.div_lt_iff_lt_mul hw).mpr hjn
          rw [List.findSome?_eq_none_iff] at hs
          have hnone := hs (j / w) (List.mem_range.mpr hq)
          exact scanWord_none (by simpa using hnone) _
        · obtain ⟨c, rfl⟩ : ∃ c, j = n * w + c := ⟨j - n * w, by omega⟩
          have hc : c < b := by omega
          rw [test_eq, (hdiv c (by omega)).1, (hdiv c (by omega)).2]
          exact hlow c hc
    · rw [scan] at hs
      rw [hs] at h
      simp only [Option.some_or, Option.some.injEq] at h
      subst h
      obtain ⟨hk, hrest⟩ := ih hs
      exact ⟨by rw [Nat.succ_mul]; omega, hrest⟩

theorem scan_none {m : Nat → BitVec w} {n : Nat} (h : scan m n = none) :
    ∀ k < n * w, test m k = false := by
  intro k hk
  have hw : 0 < w := Nat.pos_of_ne_zero (by rintro rfl; simp at hk)
  rw [scan, List.findSome?_eq_none_iff] at h
  have hq : k / w < n := (Nat.div_lt_iff_lt_mul hw).mpr hk
  have hnone := h (k / w) (List.mem_range.mpr hq)
  rw [test_eq]
  exact scanWord_none (by simpa using hnone) _

def members (m : Nat → BitVec w) (n : Nat) : Set Nat := {i | i < n * w ∧ test m i = true}

theorem members_set (hw : 0 < w) (m : Nat → BitVec w) (n i : Nat) (hi : i < n * w) :
    members (set m i) n = insert i (members m n) := by
  ext j
  simp only [members, Set.mem_ofPred_eq, Set.mem_insert_iff, test_set hw, Bool.or_eq_true,
    decide_eq_true_eq]
  constructor
  · rintro ⟨hj, rfl | ht⟩
    · exact Or.inl rfl
    · exact Or.inr ⟨hj, ht⟩
  · rintro (rfl | ⟨hj, ht⟩)
    · exact ⟨hi, Or.inl rfl⟩
    · exact ⟨hj, Or.inr ht⟩

theorem members_clear (hw : 0 < w) (m : Nat → BitVec w) (n i : Nat) :
    members (clear m i) n = members m n \ {i} := by
  ext j
  simp only [members, Set.mem_ofPred_eq, Set.mem_sdiff, Set.mem_singleton_iff, test_clear hw,
    Bool.and_eq_true, Bool.not_eq_true', decide_eq_false_iff_not]
  constructor
  · rintro ⟨hj, hne, ht⟩
    exact ⟨⟨hj, ht⟩, hne⟩
  · rintro ⟨⟨hj, ht⟩, hne⟩
    exact ⟨hj, hne, ht⟩

end BitArray
