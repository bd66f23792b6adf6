import DeepOS.Keyboard
import DeepOS.Printf

/-!
# Reading numbers

`atoi` of the C library and the `%d` branch of `enterToMemory` in the kernel. Both take the
digits from the first one on, in the arithmetic of `int`.
-/
namespace NumberReaders

open CString Numerals Printf
open PhyMem (Word)
open Keyboard (Input enterToMemory)

/-- `(k<<3)+(k<<1)+(*p)-'0'`. -/
def addDigit (k : BitVec 32) (c : Byte) : BitVec 32 := (k <<< 3) + (k <<< 1) + c.signExtend 32 - 48

def atoiLoop : List Byte → BitVec 32 → Option (BitVec 32)
  | [], _ => none
  | c :: p, k => if c ≠ 0 ∧ 48 ≤ charVal c ∧ charVal c ≤ 57 then atoiLoop p (addDigit k c) else some k

def atoi (p : List Byte) : Option (BitVec 32) := atoiLoop p 0

/-- `num * 10 + ( buff[ buffIndex ] - '0')`. -/
def addTyped (num : BitVec 32) (c : Byte) : BitVec 32 := num * 10 + (c.signExtend 32 - 48)

/-- What `enterToMemory` stores for `%d`. -/
def enterNumber (s : Input) : BitVec 32 :=
  (List.range s.curBuffIndex).foldl (fun num buffIndex => addTyped num (s.buff buffIndex)) 0

def convertToHex2 (number : Word) : Option (List Byte) :=
  (digitLoop (fun n => hexChar (n % 16)) (· / 16) (fun n => decide (0 < n)) 61 number.toNat [48, 120]).map (turned 2)

/-! ## One digit -/

theorem digit_signExtend {d : Nat} (hd : d < 10) : (BitVec.ofNat 8 (d + 48)).signExtend 32 = BitVec.ofNat 32 (d + 48) := by
  interval_cases d <;> rfl

theorem addTyped_digit (m : Nat) {d : Nat} (hd : d < 10) :
    addTyped (BitVec.ofNat 32 m) (BitVec.ofNat 8 (d + 48)) = BitVec.ofNat 32 (d + 10 * m) := by
  have hzero : BitVec.ofNat 32 (d + 48) - 48 = BitVec.ofNat 32 d := by
    rw [BitVec.ofNat_add]
    exact BitVec.add_sub_cancel _ _
  rw [addTyped, digit_signExtend hd, hzero, BitVec.ofNat_add, BitVec.ofNat_mul, BitVec.add_comm, BitVec.mul_comm]
  rfl

/-- Two shifts make the product by ten. -/
theorem addDigit_eq (k : BitVec 32) (c : Byte) : addDigit k c = addTyped k c := by
  have hten : (10 : BitVec 32).toNat = 10 := rfl
  have hshift : (k <<< 3) + (k <<< 1) = k * 10 := by
    apply BitVec.eq_of_toNat_eq
    rw [BitVec.toNat_add, BitVec.toNat_mul, BitVec.toNat_shiftLeft, BitVec.toNat_shiftLeft, Nat.shiftLeft_eq,
      Nat.shiftLeft_eq, hten]
    omega
  rw [addDigit, addTyped, hshift, add_sub_assoc]

/-! ## The whole numeral -/

/-- The readers take the numeral of any number, and give its last 32 bits. -/
theorem foldl_decimal (n : Nat) : (decimal n).foldl addTyped 0 = BitVec.ofNat 32 n := by
  have hread : ∀ m d, d < 10 →
      addTyped (BitVec.ofNat 32 m) (BitVec.ofNat 8 (d + 48)) = BitVec.ofNat 32 (d + 10 * m) :=
    fun m _ hd => addTyped_digit m hd
  exact foldl_numeral (by decide) hread n

theorem decimal_chars {n : Nat} {c : Byte} (hc : c ∈ decimal n) : c ≠ 0 ∧ 48 ≤ charVal c ∧ charVal c ≤ 57 := by
  obtain ⟨d, hd, rfl⟩ := mem_numeral (by decide) hc
  interval_cases d <;> decide

/-- The loop ends at the terminator. -/
theorem atoiLoop_eq {s : List Byte} (hs : ∀ c ∈ s, c ≠ 0 ∧ 48 ≤ charVal c ∧ charVal c ≤ 57) (rest : List Byte)
    (k : BitVec 32) : atoiLoop (s ++ 0 :: rest) k = some (s.foldl addTyped k) := by
  induction s generalizing k with
  | nil => rfl
  | cons c s ih =>
    rw [List.cons_append, atoiLoop, if_pos (hs c List.mem_cons_self), addDigit_eq, List.foldl_cons]
    exact ih (fun d hd => hs d (List.mem_cons_of_mem c hd)) _

theorem atoi_decimal (n : Nat) (rest : List Byte) : atoi (decimal n ++ 0 :: rest) = some (BitVec.ofNat 32 n) := by
  rw [atoi, atoiLoop_eq (fun c hc => decimal_chars hc), foldl_decimal]

theorem enterNumber_eq (s : Input) : enterNumber s = (enterToMemory s).foldl addTyped 0 := by
  rw [enterNumber, enterToMemory, List.foldl_map]

theorem toInt_ofNat {n : Nat} (hn : n < 2 ^ 31) : (BitVec.ofNat 32 n).toInt = n := by
  have hword : (BitVec.ofNat 32 n).toNat = n := by
    rw [BitVec.toNat_ofNat]
    omega
  rw [BitVec.toInt_eq_toNat_of_lt (by omega), hword]

theorem sysItoa_libcItoa {n : Nat} (hn : n < 2 ^ 31) : sysItoa (BitVec.ofNat 64 n) = libcItoa (BitVec.ofNat 64 n) := by
  have hword : (BitVec.ofNat 64 n).toNat = n := by
    rw [BitVec.toNat_ofNat]
    omega
  have hint : intOf (BitVec.ofNat 64 n) = n := by
    rw [intOf, BitVec.setWidth_ofNat_of_le (by decide), toInt_ofNat hn]
  rw [sysItoa_eq, libcItoa_eq, hint, hword, if_neg (by omega), Int.natAbs_natCast]

/-! ## The round trips -/

def Prints (size : Nat) (r : Option (List Byte)) (text : List Byte) : Prop := r = some text ∧ text.length < size

/-- The two functions that print the number agree, and both readers give it back: `atoi` from
the printed string, whatever stands behind it, and `%d` from a line that was typed so. -/
structure ReadBack (n : Nat) : Prop where
  printed : sysItoa (BitVec.ofNat 64 n) = libcItoa (BitVec.ofNat 64 n)
  parsed : ∀ s rest, libcItoa (BitVec.ofNat 64 n) = some s → ∃ k, atoi (s ++ 0 :: rest) = some k ∧ k.toInt = n
  typed : ∀ input, libcItoa (BitVec.ofNat 64 n) = some (enterToMemory input) → (enterNumber input).toInt = n

theorem prints_decimal (n : Word) : Prints 33 (libcItoa n) (decimal n.toNat) := by
  have hlen : (decimal n.toNat).length ≤ 20 :=
    numeral_length_le (by decide) _ (by decide) (n.isLt.trans (by decide))
  exact ⟨libcItoa_eq n, by omega⟩

theorem prints_hexadecimal (n : Word) : Prints 64 (convertToHex n) (48 :: 120 :: hexadecimal n.toNat) := by
  have hlen : (hexadecimal n.toNat).length ≤ 16 :=
    numeral_length_le (by decide) _ (by decide) (n.isLt.trans_le (by decide))
  refine ⟨convertToHex_eq n, ?_⟩
  rw [List.length_cons, List.length_cons]
  omega

theorem readBack {n : Nat} (hn : n < 2 ^ 31) : ReadBack n := by
  have hword : (BitVec.ofNat 64 n).toNat = n := by
    rw [BitVec.toNat_ofNat]
    omega
  refine ⟨sysItoa_libcItoa hn, fun s rest hs => ?_, fun input hs => ?_⟩
  · rw [libcItoa_eq, hword, Option.some.injEq] at hs
    rw [← hs]
    exact ⟨_, atoi_decimal n rest, toInt_ofNat hn⟩
  · rw [libcItoa_eq, hword, Option.some.injEq] at hs
    rw [enterNumber_eq, ← hs, foldl_decimal, toInt_ofNat hn]

/-- Every 64-bit number is printed as its numeral, and every `int` that is not negative is read
back. -/
theorem numeral_round_trips :
    (∀ n : Word, Prints 33 (libcItoa n) (decimal n.toNat) ∧
      Prints 64 (convertToHex n) (48 :: 120 :: hexadecimal n.toNat) ∧ convertToHex n = convertToHex2 n) ∧
    ∀ n < 2 ^ 31, ReadBack n :=
  ⟨fun n => ⟨prints_decimal n, prints_hexadecimal n, rfl⟩, fun _ hn => readBack hn⟩

theorem numeral_round_trips_limit : ∃ s k, libcItoa 2147483647 = some s ∧ atoi (s ++ [0]) = some k ∧ k.toInt = 2147483647 := by
  obtain ⟨k, hk, hint⟩ := (numeral_round_trips.2 2147483647 (by decide)).parsed _ [] (prints_decimal 2147483647).1
  exact ⟨_, k, (prints_decimal 2147483647).1, hk, hint⟩

end NumberReaders
