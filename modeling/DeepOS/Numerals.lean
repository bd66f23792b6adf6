import Mathlib

/-!
# Numerals

The usual way to print a number: its digits are put into a buffer, the last one first,
and then the buffer is turned around.
-/
namespace Numerals

variable {α β γ : Type}

/-- A loop that stores one digit at a time, with the room that the buffer has left, and
stops when no more are wanted. -/
def digitLoop (digit : α → γ) (next : α → α) (more : α → Bool) : Nat → α → List γ → Option (List γ)
  | 0, _, _ => none
  | room + 1, num, buf =>
    if more (next num) then digitLoop digit next more room (next num) (buf ++ [digit num])
    else some (buf ++ [digit num])

/-- A loop that swaps the two ends of the part from `lo` to `hi` and goes inwards. -/
def reverseLoop (d : γ) : Nat → Nat → Nat → List γ → List γ
  | 0, _, _, buf => buf
  | n + 1, lo, hi, buf =>
    if lo < hi then reverseLoop d n (lo + 1) (hi - 1) ((buf.set lo (buf.getD hi d)).set hi (buf.getD lo d)) else buf

/-- The digits, the last one first. Zero has one digit. -/
def places (base n : Nat) : List Nat := if n = 0 then [0] else Nat.digits base n

def numeral (base : Nat) (digit : Nat → γ) (n : Nat) : List γ := ((places base n).map digit).reverse

/-! ## Digits -/

variable {b n : Nat}

theorem places_step (hb : 1 < b) (n : Nat) :
    places b n = n % b :: if 0 < n / b then places b (n / b) else [] := by
  cases n with
  | zero => rw [Nat.zero_div, Nat.zero_mod, if_neg (lt_irrefl 0), places, if_pos rfl]
  | succ n =>
    rw [places, if_neg n.succ_ne_zero, Nat.digits_def' hb n.succ_pos]
    congr 1
    split
    · rename_i hpos
      rw [places, if_neg hpos.ne']
    · rename_i hzero
      rw [Nat.eq_zero_of_not_pos hzero, Nat.digits_zero]

theorem places_lt (hb : 1 < b) : ∀ d ∈ places b n, d < b := by
  intro d hd
  rw [places] at hd
  split at hd
  · rw [List.mem_singleton.mp hd]
    exact Nat.zero_lt_of_lt hb
  · exact Nat.digits_lt_base hb hd

theorem numeral_pos (hb : 1 < b) (digit : Nat → γ) (n : Nat) : 0 < (numeral b digit n).length := by
  rw [numeral, List.length_reverse, List.length_map, places_step hb]
  exact Nat.succ_pos _

theorem numeral_length_le (hb : 1 < b) (digit : Nat → γ) {k : Nat} (hk : 0 < k) (hn : n < b ^ k) :
    (numeral b digit n).length ≤ k := by
  rw [numeral, List.length_reverse, List.length_map, places]
  split
  · exact hk
  · exact (Nat.digits_length_le_iff hb n).mpr hn

theorem mem_numeral {digit : Nat → γ} {c : γ} (hb : 1 < b) (hc : c ∈ numeral b digit n) : ∃ d < b, digit d = c := by
  rw [numeral, List.mem_reverse, List.mem_map] at hc
  obtain ⟨d, hd, rfl⟩ := hc
  exact ⟨d, places_lt hb d hd, rfl⟩

/-- A reader that takes the digits from the first one on. It may count in any type in which a
digit more means the number times the base, plus the digit. -/
theorem foldl_numeral {δ : Type} (hb : 1 < b) {digit : Nat → γ} {read : δ → γ → δ} {value : Nat → δ}
    (hread : ∀ m d, d < b → read (value m) (digit d) = value (d + b * m)) (n : Nat) :
    (numeral b digit n).foldl read (value 0) = value n := by
  have hplaces : ∀ l : List Nat, (∀ d ∈ l, d < b) →
      l.foldr (fun d acc => read acc (digit d)) (value 0) = value (Nat.ofDigits b l) := by
    intro l
    induction l with
    | nil => exact fun _ => rfl
    | cons d l ih =>
      intro hl
      rw [List.foldr_cons, ih fun e he => hl e (List.mem_cons_of_mem d he), hread _ d (hl d List.mem_cons_self),
        Nat.ofDigits_cons]
  have hvalue : Nat.ofDigits b (places b n) = n := by
    rw [places]
    split
    · rename_i hzero
      rw [hzero, Nat.ofDigits_singleton]
    · exact Nat.ofDigits_digits b n
  rw [numeral, List.foldl_reverse, List.foldr_map, hplaces _ (places_lt hb), hvalue]

/-- The loop stores the digits when there is room for them. -/
theorem digitLoop_places (hb : 1 < b) (digit : Nat → γ) (room : Nat) : ∀ (n : Nat) (buf : List γ),
    n < b ^ room → 0 < room → digitLoop (fun n => digit (n % b)) (· / b) (fun n => decide (0 < n)) room n buf =
      some (buf ++ (places b n).map digit) := by
  induction room with
  | zero => exact fun _ _ _ h => absurd h (lt_irrefl 0)
  | succ room ih =>
    intro n buf hn _
    have hrest : n / b < b ^ room := Nat.div_lt_of_lt_mul (by rwa [Nat.pow_succ'] at hn)
    rw [digitLoop, places_step hb]
    by_cases hmore : 0 < n / b
    · have hroom : 0 < room := by
        apply Nat.pos_of_ne_zero
        rintro rfl
        rw [Nat.pow_zero] at hrest
        omega
      rw [if_pos (decide_eq_true hmore), if_pos hmore, ih _ _ hrest hroom, List.append_assoc, List.map_cons]
      rfl
    · rw [if_neg (by rw [decide_eq_true_eq]; exact hmore), if_neg hmore]
      rfl

/-- Two loops that do the same on related numbers. -/
theorem digitLoop_map {digit : α → γ} {next : α → α} {more : α → Bool} {digit' : β → γ} {next' : β → β}
    {more' : β → Bool} {f : α → β} (hdigit : ∀ a, digit' (f a) = digit a) (hnext : ∀ a, next' (f a) = f (next a))
    (hmore : ∀ a, more' (f a) = more a) (room : Nat) (a : α) (buf : List γ) :
    digitLoop digit' next' more' room (f a) buf = digitLoop digit next more room a buf := by
  induction room generalizing a buf with
  | zero => rfl
  | succ room ih => rw [digitLoop, digitLoop, hdigit, hnext, hmore, ih]

/-! ## Turning the buffer around -/

theorem reverseLoop_eq (d : γ) (n : Nat) : ∀ before mid after : List γ, mid.length ≤ n →
    reverseLoop d n before.length (before.length + mid.length - 1) (before ++ mid ++ after) =
      before ++ mid.reverse ++ after := by
  induction n with
  | zero =>
    intro before mid after hlen
    rw [List.eq_nil_of_length_eq_zero (Nat.le_zero.mp hlen)]
    rfl
  | succ n ih =>
    intro before mid after hlen
    rw [reverseLoop]
    cases mid using List.bidirectionalRec with
    | nil =>
      rw [if_neg (by simp)]
      rfl
    | singleton x => rw [if_neg (by simp), List.reverse_singleton]
    | cons_append x mid y =>
      -- the ends are swapped, and the loop goes on in between
      have hhi : before.length + (x :: (mid ++ [y])).length - 1 = (before ++ [x] ++ mid).length := by
        simp
      have hfirst : (before ++ (x :: (mid ++ [y])) ++ after).getD before.length d = x := by simp
      have hlast : (before ++ (x :: (mid ++ [y])) ++ after).getD (before ++ [x] ++ mid).length d = y := by
        rw [show before ++ (x :: (mid ++ [y])) ++ after = (before ++ [x] ++ mid) ++ y :: after by simp]
        rw [List.getD, List.getElem?_append_right le_rfl, Nat.sub_self]
        rfl
      have hset : ((before ++ (x :: (mid ++ [y])) ++ after).set before.length y).set (before ++ [x] ++ mid).length x =
          before ++ [y] ++ mid ++ (x :: after) := by
        rw [show before ++ (x :: (mid ++ [y])) ++ after = before ++ (x :: (mid ++ y :: after)) by simp,
          List.set_append_right _ _ le_rfl, Nat.sub_self, List.set_cons_zero,
          show before ++ y :: (mid ++ y :: after) = (before ++ [y] ++ mid) ++ y :: after by simp,
          show (before ++ [x] ++ mid).length = (before ++ [y] ++ mid).length by simp,
          List.set_append_right _ _ le_rfl, Nat.sub_self, List.set_cons_zero]
      have hmid : mid.length ≤ n := by
        simp only [List.length_cons, List.length_append, List.length_nil] at hlen
        omega
      have hrest := ih (before ++ [y]) mid (x :: after) hmid
      rw [hhi, if_pos (by simp), hfirst, hlast, hset]
      rw [List.length_append, List.length_singleton] at hrest
      rw [show (before ++ [x] ++ mid).length - 1 = before.length + 1 + mid.length - 1 by simp, hrest]
      simp

end Numerals
