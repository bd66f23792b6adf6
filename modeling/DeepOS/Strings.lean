import DeepOS.CString

/-!
# The kernel's string functions

`sys/string.c` on strings given without their terminator. No string in memory is
long enough for its length to leave the range of `int`.
-/
namespace Strings

open CString

/-- The loop of `strcmp`, for strings of the same length. -/
def compareChars : List Byte → List Byte → Int
  | c :: s, d :: t => if c ≠ d then charVal c - charVal d else compareChars s t
  | _, _ => 0

def strcmp (s t : List Byte) : Int :=
  if s.length ≠ t.length then (s.length : Int) - t.length else compareChars s t

def contains : List Byte → List Byte → Bool
  | _, [] => true
  | [], _ :: _ => false
  | c :: s, d :: t => if c ≠ d then false else contains s t

def startsWith (s t : List Byte) : Bool := t.length ≤ s.length && contains s t

/-- `endsWith(str, substr)`, which compares from the last characters on. -/
def endsWith (s t : List Byte) : Bool := startsWith s.reverse t.reverse

def strcat (s t : List Byte) : List Byte := s ++ t

theorem compareChars_eq_zero : ∀ {s t : List Byte}, s.length = t.length →
    (compareChars s t = 0 ↔ s = t) := by
  intro s
  induction s with
  | nil =>
    intro t h
    cases t with
    | nil => simp [compareChars]
    | cons d t => simp at h
  | cons c s ih =>
    intro t h
    cases t with
    | nil => simp at h
    | cons d t =>
      have hlen : s.length = t.length := by simpa using h
      by_cases hcd : c = d
      · simp [compareChars, hcd, ih hlen]
      · have hval : charVal c - charVal d ≠ 0 := by
          intro h0
          exact hcd (BitVec.toInt_inj.mp (by simpa [charVal] using sub_eq_zero.mp h0))
        simp [compareChars, hcd, hval]

/-- The kernel's `strcmp` is zero exactly on equal strings. -/
theorem strcmp_eq_zero (s t : List Byte) : strcmp s t = 0 ↔ s = t := by
  rw [strcmp]
  by_cases h : s.length = t.length
  · simp [h, compareChars_eq_zero h]
  · have hne : s ≠ t := fun he => h (by rw [he])
    simp only [ne_eq, h, not_false_eq_true, if_true, hne, iff_false]
    omega

theorem contains_iff (s t : List Byte) : contains s t = true ↔ t <+: s := by
  induction t generalizing s with
  | nil => simp [contains]
  | cons d t ih =>
    cases s with
    | nil => simp [contains]
    | cons c s =>
      by_cases h : c = d
      · simp [contains, h, ih, List.cons_prefix_cons]
      · simp [contains, h, List.cons_prefix_cons, Ne.symm h]

theorem startsWith_iff (s t : List Byte) : startsWith s t = true ↔ t <+: s := by
  rw [startsWith, Bool.and_eq_true, contains_iff]
  constructor
  · exact fun h => h.2
  · exact fun h => ⟨by simpa using h.length_le, h⟩

theorem endsWith_iff (s t : List Byte) : endsWith s t = true ↔ t <:+ s := by
  rw [endsWith, startsWith_iff, List.reverse_prefix]

end Strings
