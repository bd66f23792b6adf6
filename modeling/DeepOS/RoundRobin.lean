import Mathlib

/-!
# Cyclic scans

Slots `0 .. n - 1` arranged in a circle and scanned from a moving start. The
gap to a fixed slot is the number of slots a scan passes over before reaching
it; a scan that stops early moves strictly closer.
-/
namespace RoundRobin

variable {n : Nat} [NeZero n]

def slot (n : Nat) [NeZero n] (k : Nat) : Fin n := Fin.ofNat n k

def gap (start : Nat) (t : Fin n) : Nat :=
  if start % n ≤ t.val then t.val - start % n else t.val + n - start % n

theorem slot_val (k : Nat) : (slot n k).val = k % n := rfl

theorem mod_lt_pos (k : Nat) : k % n < n := Nat.mod_lt k (Nat.pos_of_ne_zero (NeZero.ne n))

theorem gap_lt (start : Nat) (t : Fin n) : gap start t < n := by
  have ht := t.isLt
  have hs := mod_lt_pos (n := n) start
  rw [gap]
  split <;> omega

/-- Fewer than `n` steps wrap around at most once. -/
theorem add_mod_of_lt (start : Nat) {i : Nat} (hi : i < n) :
    (start + i) % n = if start % n + i < n then start % n + i else start % n + i - n := by
  rw [Nat.add_mod, Nat.mod_eq_of_lt hi]
  have hs := mod_lt_pos (n := n) start
  split
  · exact Nat.mod_eq_of_lt (by assumption)
  · rw [Nat.mod_eq_sub_mod (by omega)]
    exact Nat.mod_eq_of_lt (by omega)

/-- A scan reaches slot `t` after exactly `gap` steps. -/
theorem slot_gap (start : Nat) (t : Fin n) : slot n (start + gap start t) = t := by
  apply Fin.ext
  have ht := t.isLt
  have hs := mod_lt_pos (n := n) start
  rw [slot_val, add_mod_of_lt start (gap_lt start t), gap]
  split <;> split <;> omega

/-- Stopping at an earlier slot and scanning on from the next one leaves a
strictly smaller gap. -/
theorem gap_after (start : Nat) (t : Fin n) {i : Nat} (hi : i < gap start t) :
    gap ((slot n (start + i)).val + 1) t = gap start t - (i + 1) := by
  have ht := t.isLt
  have hs := mod_lt_pos (n := n) start
  have hin : i < n := Nat.lt_trans hi (gap_lt start t)
  have hn : n ≠ 0 := NeZero.ne n
  have hval : (slot n (start + i)).val =
      if start % n + i < n then start % n + i else start % n + i - n := add_mod_of_lt start hin
  have hnext : ((slot n (start + i)).val + 1) % n =
      if (slot n (start + i)).val + 1 < n then (slot n (start + i)).val + 1 else 0 := by
    have hlt := (slot n (start + i)).isLt
    split
    · exact Nat.mod_eq_of_lt (by assumption)
    · rw [show (slot n (start + i)).val + 1 = n by omega, Nat.mod_self]
  generalize (slot n (start + i)).val = v at hval hnext ⊢
  rw [gap, hnext, hval]
  rw [gap] at hi ⊢
  split_ifs at hi ⊢ <;> omega

/-- A sequence of stops, each found by a scan from just after the previous one
before that scan comes to `t`. -/
def Passes (t : Fin n) : Nat → List (Fin n) → Prop
  | _, [] => True
  | start, s :: ss => (∃ i < gap start t, s = slot n (start + i)) ∧ Passes t (s.val + 1) ss

theorem passes_gap (t : Fin n) (start : Nat) (ss : List (Fin n)) (h : Passes t start ss) :
    ∀ s ∈ ss, gap (s.val + 1) t < gap start t := by
  induction ss generalizing start with
  | nil => simp
  | cons s ss ih =>
    obtain ⟨⟨i, hi, rfl⟩, hss⟩ := h
    have hafter := gap_after start t hi
    intro u hu
    rcases List.mem_cons.mp hu with rfl | hu
    · omega
    · have := ih _ hss u hu
      omega

/-- No slot is stopped at twice before `t` is reached. -/
theorem passes_nodup (t : Fin n) (start : Nat) (ss : List (Fin n)) (h : Passes t start ss) :
    ss.Nodup := by
  induction ss generalizing start with
  | nil => exact List.nodup_nil
  | cons s ss ih =>
    refine List.nodup_cons.mpr ⟨?_, ih _ h.2⟩
    intro hmem
    exact absurd (passes_gap t _ ss h.2 s hmem) (lt_irrefl _)

end RoundRobin
