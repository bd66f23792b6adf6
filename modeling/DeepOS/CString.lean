import Mathlib

/-!
# Characters, integers and strings of C

Plain `char` is signed, `int` has 32 bits, and a string is read from a list of
bytes up to its first zero. Bytes behind the list read as zero.
-/
namespace CString

abbrev Byte := BitVec 8

/-- Whether a byte is in a list is decided by comparing. -/
instance : LawfulBEq Byte := inferInstance

def charVal (c : Byte) : Int := c.toInt

def toInt32 (x : Int) : Int := x.bmod (2 ^ 32)

theorem toInt32_eq {x : Int} (h : -2 ^ 31 ≤ x) (h' : x < 2 ^ 31) : toInt32 x = x :=
  Int.bmod_eq_of_le (by omega) (by omega)

def strAt (bytes : List Byte) (p : Nat) : List Byte := (bytes.drop p).takeWhile (· ≠ 0)

def chars (text : String) : List Byte := text.toList.map fun c => BitVec.ofNat 8 c.toNat

/-- A string, as a list of bytes without its terminator. -/
def IsStr (s : List Byte) : Prop := ∀ c ∈ s, c ≠ 0

instance decidableIsStr (s : List Byte) : Decidable (IsStr s) :=
  inferInstanceAs (Decidable (∀ c ∈ s, c ≠ 0))

/-- The part before the first `x`. -/
theorem takeWhile_ne {x : Byte} {s : List Byte} (h : x ∉ s) (rest : List Byte) :
    (s ++ x :: rest).takeWhile (· ≠ x) = s := by
  induction s with
  | nil => simp
  | cons c s ih =>
    have hc : c ≠ x := fun hc => h (hc ▸ List.mem_cons_self ..)
    rw [List.cons_append, List.takeWhile_cons_of_pos (by simpa using hc),
      ih (fun hm => h (List.mem_cons_of_mem c hm))]

theorem takeWhile_str {s : List Byte} (h : IsStr s) (rest : List Byte) :
    (s ++ 0 :: rest).takeWhile (· ≠ 0) = s := takeWhile_ne (fun hm => h 0 hm rfl) rest

/-- A string followed by a zero is read back. -/
theorem strAt_eq {bytes s rest : List Byte} {p : Nat} (h : bytes.drop p = s ++ 0 :: rest)
    (hs : IsStr s) : strAt bytes p = s := by
  rw [strAt, h, takeWhile_str hs]

theorem strAt_add {bytes front back : List Byte} {p n : Nat} (h : bytes.drop p = front ++ back)
    (hn : front.length = n) : strAt bytes (p + n) = back.takeWhile (· ≠ 0) := by
  rw [strAt, ← List.drop_drop, h, ← hn, List.drop_left]

theorem strAt_append_zero (t : List Byte) : strAt (t ++ [0]) 0 = t.takeWhile (· ≠ 0) := by
  rw [strAt, List.drop_zero]
  induction t with
  | nil => rfl
  | cons c t ih =>
    rw [List.cons_append, List.takeWhile_cons, List.takeWhile_cons, ih]

theorem strAt_isStr (bytes : List Byte) (p : Nat) : IsStr (strAt bytes p) := by
  intro c hc
  simpa using List.mem_takeWhile_imp hc

end CString
