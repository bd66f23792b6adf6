import DeepOS.CString
import DeepOS.PhyMem

/-!
# Size fields

The size of an archive entry is written as eleven octal digits and a zero. Two
decoders read it: `oct_to_dec`, which the ELF loader uses, and `octal_decimal`
on the digits read as a decimal `int`, which every header walk uses.
-/
namespace TarSize

open PhyMem (Word)
open CString

instance neZero_eight : NeZero 8 := ⟨by decide⟩

structure SizeField where
  digits : List (Fin 8)
  eleven : digits.length = 11

def valueIn (b : Nat) (digits : List (Fin 8)) : Nat := Nat.ofDigits b (digits.map Fin.val)

def SizeField.value (f : SizeField) : Nat := valueIn 8 f.digits

def digitChar (d : Fin 8) : Byte := BitVec.ofNat 8 (48 + d.val)

def SizeField.bytes (f : SizeField) : List Byte := f.digits.reverse.map digitChar ++ [0]

/-! ## The decoders -/

/-- `size = size*10 + (c - '0')` over a string of characters. -/
def accumulate (chars : List Byte) : Int :=
  chars.foldl (fun size c => toInt32 (size * 10 + (charVal c - 48))) 0

/-- The inner loop of `octal_decimal`. -/
def pow8 : Nat → Word
  | 0 => 1
  | t + 1 => pow8 t * 8

/-- The outer loop of `octal_decimal`; an `int` has at most ten digits. -/
def octalLoop : Nat → Int → Nat → Word → Word
  | 0, _, _, decimal => decimal
  | fuel + 1, num, t, decimal =>
    if num = 0 then decimal
    else octalLoop fuel (num.tdiv 10) (t + 1) (decimal + BitVec.ofInt 64 (num.tmod 10) * pow8 t)

def octalDecimal (num : Int) : Int := ((octalLoop 10 num 0 0).setWidth 32).toInt

/-- The first loop of `oct_to_dec`: `i` goes down to a character that is a digit
other than `'0'`. The indices read are kept; nothing bounds them from below. -/
def skipBack (mem : Int → Byte) : Nat → Int → Option (Int × List Int)
  | 0, _ => none
  | fuel + 1, i =>
    if charVal (mem i) ≤ 48 ∨ charVal (mem i) > 57 then
      (skipBack mem fuel (i - 1)).map fun r => (r.1, i :: r.2)
    else some (i, [i])

/-- The second loop of `oct_to_dec`, down from index `n - 1`. -/
def sumBack (mem : Int → Byte) : Nat → Word → Word → Word
  | 0, _, ret => ret
  | n + 1, base, ret =>
    sumBack mem n (base * 8) (ret + base * BitVec.ofInt 64 (charVal (mem n) - 48))

/-- `oct_to_dec` of the field at index 0 of `mem`, with the indices the first
loop has read. The second loop reads from where the first one stopped down to 0. -/
def octToDec (fuel : Nat) (mem : Int → Byte) : Option (Word × List Int) :=
  (skipBack mem fuel 11).map fun r => (sumBack mem (r.1 + 1).toNat 1 0, r.2)

/-! ## Values of digit lists -/

@[simp] theorem valueIn_nil (b : Nat) : valueIn b [] = 0 := rfl

@[simp] theorem valueIn_cons (b : Nat) (d : Fin 8) (ds : List (Fin 8)) :
    valueIn b (d :: ds) = d.val + b * valueIn b ds := by
  simp [valueIn, Nat.ofDigits_cons]

theorem valueIn_append (b : Nat) (ds es : List (Fin 8)) :
    valueIn b (ds ++ es) = valueIn b ds + b ^ ds.length * valueIn b es := by
  simp [valueIn, Nat.ofDigits_append]

theorem valueIn_lt {b : Nat} (hb : 8 ≤ b) (ds : List (Fin 8)) : valueIn b ds < b ^ ds.length := by
  have h : ∀ x ∈ ds.map Fin.val, x < b := by
    intro x hx
    obtain ⟨d, -, rfl⟩ := List.mem_map.mp hx
    omega
  simpa [valueIn] using Nat.ofDigits_lt_base_pow_length (by omega) h

/-- Being zero does not depend on the base. -/
theorem valueIn_zero {ds : List (Fin 8)} (h : valueIn 10 ds = 0) : valueIn 8 ds = 0 := by
  induction ds with
  | nil => rfl
  | cons d ds ih =>
    rw [valueIn_cons] at h ⊢
    have := ih (by omega)
    omega

theorem charVal_digitChar (d : Fin 8) : charVal (digitChar d) = 48 + d.val := by
  revert d
  decide

/-- Below 2^28 the digits read as a decimal number fit in an `int`. -/
theorem SizeField.decimal_lt (f : SizeField) (h : f.value < 2 ^ 28) :
    valueIn 10 f.digits < 2000000000 := by
  have hsplit := List.take_append_drop 9 f.digits
  have hlow : (f.digits.take 9).length = 9 := by
    rw [List.length_take, f.eleven]
    rfl
  have hhigh : (f.digits.drop 9).length = 2 := by
    rw [List.length_drop, f.eleven]
  obtain ⟨d, e, hde⟩ := List.length_eq_two.mp hhigh
  have hlt := valueIn_lt (b := 10) (by omega) (f.digits.take 9)
  rw [SizeField.value, ← hsplit, valueIn_append, hlow, hde] at h
  rw [← hsplit, valueIn_append, hlow, hde]
  rw [hlow] at hlt
  simp only [valueIn_cons, valueIn_nil] at h ⊢
  omega

/-! ## The decoder of the header walks -/

theorem accumulate_digits (ds : List (Fin 8)) (h : valueIn 10 ds < 2 ^ 31) :
    accumulate (ds.reverse.map digitChar) = valueIn 10 ds := by
  induction ds with
  | nil => rfl
  | cons d ds ih =>
    rw [valueIn_cons] at h ⊢
    have hprev := ih (by omega)
    rw [accumulate] at hprev ⊢
    rw [List.reverse_cons, List.map_append, List.foldl_append, hprev]
    simp only [List.map_cons, List.map_nil, List.foldl_cons, List.foldl_nil, charVal_digitChar]
    rw [toInt32_eq (by omega) (by omega)]
    omega

theorem octalLoop_digits (ds : List (Fin 8)) : ∀ (fuel t : Nat) (decimal : Word),
    valueIn 10 ds < 10 ^ fuel →
    octalLoop fuel (valueIn 10 ds) t decimal = decimal + BitVec.ofNat 64 (valueIn 8 ds) * pow8 t := by
  have hstop : ∀ (fuel t : Nat) (decimal : Word), octalLoop fuel 0 t decimal = decimal := by
    intro fuel t decimal
    cases fuel with
    | zero => rfl
    | succ fuel => simp [octalLoop]
  induction ds with
  | nil =>
    intro fuel t decimal _
    simpa using hstop fuel t decimal
  | cons d ds ih =>
    intro fuel t decimal h
    by_cases hzero : valueIn 10 (d :: ds) = 0
    · rw [valueIn_zero hzero, hzero]
      simpa using hstop fuel t decimal
    · cases fuel with
      | zero => omega
      | succ fuel =>
        rw [valueIn_cons] at h hzero ⊢
        have hdiv : ((d.val + 10 * valueIn 10 ds : Nat) : Int).tdiv 10 = valueIn 10 ds := by
          rw [Int.tdiv_eq_ediv_of_nonneg (by omega)]
          omega
        have hmod : ((d.val + 10 * valueIn 10 ds : Nat) : Int).tmod 10 = d.val := by
          rw [Int.tmod_eq_emod_of_nonneg (by omega)]
          omega
        have hlt : valueIn 10 ds < 10 ^ fuel := by
          rw [pow_succ] at h
          omega
        rw [octalLoop, if_neg (by omega), hdiv, hmod, ih fuel (t + 1) _ hlt, pow8, valueIn_cons,
          BitVec.ofNat_add, BitVec.ofNat_mul, BitVec.ofInt_natCast,
          show BitVec.ofNat 64 8 = (8 : Word) from rfl]
        ring

/-- `octal_decimal` recovers the encoded number. -/
theorem octalDecimal_digits {ds : List (Fin 8)} (h : valueIn 10 ds < 10 ^ 10)
    (h' : valueIn 8 ds < 2 ^ 31) : octalDecimal (valueIn 10 ds) = valueIn 8 ds := by
  rw [octalDecimal, octalLoop_digits ds 10 0 0 h]
  rw [pow8, zero_add, mul_one, BitVec.setWidth_ofNat_of_le (by decide)]
  have hnat : (BitVec.ofNat 32 (valueIn 8 ds)).toNat = valueIn 8 ds := by
    rw [BitVec.toNat_ofNat]
    omega
  rw [BitVec.toInt_eq_toNat_of_lt (by omega), hnat]

theorem isStr_digits (ds : List (Fin 8)) : IsStr (ds.map digitChar) := by
  have hdigit : ∀ d : Fin 8, digitChar d ≠ 0 := by decide
  intro c hc
  obtain ⟨d, -, rfl⟩ := List.mem_map.mp hc
  exact hdigit d

/-- The field read as a string and decoded as the header walks do. -/
theorem SizeField.decoded (f : SizeField) (h : f.value < 2 ^ 28) (rest : List Byte) :
    octalDecimal (accumulate ((f.bytes ++ rest).takeWhile (· ≠ 0))) = f.value := by
  have hlt := f.decimal_lt h
  have hstr : (f.bytes ++ rest).takeWhile (· ≠ 0) = f.digits.reverse.map digitChar := by
    rw [SizeField.bytes, List.append_assoc]
    exact takeWhile_str (isStr_digits _) rest
  rw [hstr, accumulate_digits f.digits (by omega)]
  exact octalDecimal_digits (by omega) (by rw [SizeField.value] at h; omega)

/-! ## The decoder of the ELF loader -/

def DigitsAt (mem : Int → Byte) (ds : List (Fin 8)) : Prop :=
  ∀ j : Nat, ∀ d, ds.reverse[j]? = some d → mem j = digitChar d

def FieldAt (mem : Int → Byte) (f : SizeField) : Prop := DigitsAt mem f.digits ∧ mem 11 = 0

theorem DigitsAt.head {mem : Int → Byte} {d : Fin 8} {ds : List (Fin 8)}
    (h : DigitsAt mem (d :: ds)) : mem ds.length = digitChar d :=
  h ds.length d (by simp)

theorem DigitsAt.tail {mem : Int → Byte} {d : Fin 8} {ds : List (Fin 8)}
    (h : DigitsAt mem (d :: ds)) : DigitsAt mem ds := by
  intro j e he
  refine h j e ?_
  rw [List.reverse_cons, List.getElem?_append_left]
  · exact he
  · exact (List.getElem?_eq_some_iff.mp he).1

theorem DigitsAt.suffix {mem : Int → Byte} {ds es : List (Fin 8)} (h : DigitsAt mem (ds ++ es)) :
    DigitsAt mem es := by
  induction ds with
  | nil => exact h
  | cons d ds ih => exact ih h.tail

theorem sumBack_digits {mem : Int → Byte} (ds : List (Fin 8)) : ∀ (base ret : Word),
    DigitsAt mem ds →
    sumBack mem ds.length base ret = ret + base * BitVec.ofNat 64 (valueIn 8 ds) := by
  induction ds with
  | nil =>
    intro base ret _
    simp [sumBack]
  | cons d ds ih =>
    intro base ret h
    have hval : charVal (mem ds.length) - 48 = d.val := by
      rw [h.head, charVal_digitChar]
      omega
    rw [List.length_cons, sumBack, hval, ih _ _ h.tail, valueIn_cons, BitVec.ofNat_add,
      BitVec.ofNat_mul, BitVec.ofInt_natCast, show BitVec.ofNat 64 8 = (8 : Word) from rfl]
    ring

/-- When the first loop stops inside the field it has passed over zeros only. -/
theorem skipBack_digits {mem : Int → Byte} (ds : List (Fin 8)) : ∀ {fuel : Nat} {r : Int × List Int},
    DigitsAt mem ds → skipBack mem fuel ((ds.length : Int) - 1) = some r → (∀ i ∈ r.2, 0 ≤ i) →
    ∃ n d es, d ≠ 0 ∧ ds = List.replicate n 0 ++ d :: es ∧ r.1 = es.length := by
  induction ds with
  | nil =>
    intro fuel r _ hs hr
    -- the loop has read the character before the field
    have hmem : (-1 : Int) ∈ r.2 := by
      cases fuel with
      | zero => cases hs
      | succ fuel =>
        simp only [skipBack] at hs
        split at hs
        · obtain ⟨q, -, rfl⟩ := Option.map_eq_some_iff.mp hs
          simp
        · rw [← Option.some.inj hs]
          simp
    have := hr _ hmem
    omega
  | cons d ds ih =>
    intro fuel r h hs hr
    have hidx : ((d :: ds).length : Int) - 1 = ds.length := by simp
    rw [hidx] at hs
    cases fuel with
    | zero => cases hs
    | succ fuel =>
      simp only [skipBack] at hs
      rw [h.head, charVal_digitChar] at hs
      split at hs
      · rename_i hcond
        obtain ⟨q, hq, rfl⟩ := Option.map_eq_some_iff.mp hs
        obtain ⟨n, e, es, he, hes, hlen⟩ := ih h.tail hq (fun i hi => hr i (by simp [hi]))
        have hd : d = 0 := Fin.ext (by have := d.isLt; omega)
        exact ⟨n + 1, e, es, he, by rw [hd, hes, List.replicate_succ, List.cons_append], hlen⟩
      · rename_i hcond
        rw [← Option.some.inj hs]
        exact ⟨0, d, ds, by rintro rfl; simp at hcond, rfl, rfl⟩

/-- What is asked of the two decoders: both give the encoded number, and the
first one stays inside the field. -/
def DecodersAgree (mem : Int → Byte) (f : SizeField) : Prop :=
  ∃ fuel r, octToDec fuel mem = some r ∧
    octalDecimal (accumulate (f.bytes.takeWhile (· ≠ 0))) = f.value ∧
    r.1 = BitVec.ofInt 64 (octalDecimal (accumulate (f.bytes.takeWhile (· ≠ 0)))) ∧
    r.1 = BitVec.ofNat 64 f.value ∧ ∀ i ∈ r.2, 0 ≤ i

theorem valueIn_zeros (n : Nat) (es : List (Fin 8)) :
    valueIn 8 (List.replicate n 0 ++ es) = 8 ^ n * valueIn 8 es := by
  induction n with
  | zero => simp
  | succ n ih =>
    rw [List.replicate_succ, List.cons_append, valueIn_cons, ih, pow_succ]
    simp only [Fin.val_zero]
    ring

/-- The decoders agree on a field below 2^28 exactly when its last digit is not
zero: `oct_to_dec` skips trailing zeros together with the terminator. -/
theorem decoders_agree_iff (f : SizeField) (hv : f.value < 2 ^ 28) (mem : Int → Byte)
    (hm : FieldAt mem f) : DecodersAgree mem f ↔ f.digits.head? ≠ some 0 := by
  obtain ⟨hdigits, hend⟩ := hm
  obtain ⟨d, ds, hds⟩ : ∃ d ds, f.digits = d :: ds :=
    List.exists_cons_of_length_pos (by rw [f.eleven]; decide)
  have hlen : ds.length = 10 := by
    have := f.eleven
    rw [hds] at this
    simpa using this
  have hskip : ∀ fuel, skipBack mem (fuel + 1) 11 = (skipBack mem fuel 10).map fun r => (r.1, 11 :: r.2) := by
    intro fuel
    rw [skipBack, hend, if_pos (Or.inl (by decide))]
    rfl
  have hdecoded := f.decoded hv []
  rw [List.append_nil] at hdecoded
  rw [hds] at hdigits
  constructor
  · rintro ⟨fuel, r, hr, -, -, hval, hpos⟩ hzero
    rw [hds, List.head?_cons, Option.some.injEq] at hzero
    cases fuel with
    | zero => cases hr
    | succ fuel =>
      rw [octToDec, hskip, Option.map_map, Option.map_eq_some_iff] at hr
      obtain ⟨q, hq, rfl⟩ := hr
      have hidx : (10 : Int) = ((d :: ds).length : Int) - 1 := by
        rw [List.length_cons, hlen]
        rfl
      rw [hidx] at hq
      obtain ⟨n, e, es, he, hes, hlast⟩ := skipBack_digits (d :: ds) hdigits hq
        (fun i hi => hpos i (by simp [hi]))
      have hn : n ≠ 0 := by
        rintro rfl
        obtain ⟨hde, -⟩ := List.cons.inj hes
        exact he (hde.symm.trans hzero)
      -- the digits summed are those in front of the zeros
      have hsum := sumBack_digits (e :: es) 1 0 ((hes ▸ hdigits).suffix)
      have hcount : (q.1 + 1).toNat = (e :: es).length := by
        rw [hlast, List.length_cons]
        rfl
      simp only [Function.comp_apply, hcount] at hval
      rw [hsum, zero_add, one_mul] at hval
      have hvalue : f.value = 8 ^ n * valueIn 8 (e :: es) := by
        rw [SizeField.value, hds, hes, valueIn_zeros]
      have hpos_es : 0 < valueIn 8 (e :: es) := by
        rw [valueIn_cons]
        have : e.val ≠ 0 := fun h0 => he (Fin.ext h0)
        omega
      have hgrow : 8 * valueIn 8 (e :: es) ≤ f.value := by
        rw [hvalue]
        exact Nat.mul_le_mul_right _ (Nat.le_self_pow hn 8)
      have hnat := congrArg BitVec.toNat hval
      rw [BitVec.toNat_ofNat, BitVec.toNat_ofNat] at hnat
      omega
  · intro hlast
    have hd : d ≠ 0 := by
      rintro rfl
      exact hlast (by rw [hds, List.head?_cons])
    have hstop : skipBack mem 1 10 = some (10, [10]) := by
      have hread := hdigits.head
      rw [hlen] at hread
      have hval := charVal_digitChar d
      have hpos : d.val ≠ 0 := fun h0 => hd (Fin.ext h0)
      rw [skipBack, show mem 10 = digitChar d from hread, if_neg (by omega)]
    have hsum := sumBack_digits (d :: ds) 1 0 hdigits
    rw [List.length_cons, hlen, zero_add, one_mul, ← hds] at hsum
    refine ⟨2, (BitVec.ofNat 64 f.value, [11, 10]), ?_, hdecoded, ?_, rfl, by simp⟩
    · rw [octToDec, hskip, hstop]
      exact congrArg (fun v => some (v, [11, 10])) hsum
    · rw [hdecoded, BitVec.ofInt_natCast]

def fieldMem (f : SizeField) (i : Int) : Byte := if 0 ≤ i then f.bytes.getD i.toNat 0 else 0

def nine : SizeField := ⟨[1, 1, 0, 0, 0, 0, 0, 0, 0, 0, 0], rfl⟩

def eight : SizeField := ⟨[0, 1, 0, 0, 0, 0, 0, 0, 0, 0, 0], rfl⟩

theorem fieldAt_fieldMem (f : SizeField) : FieldAt (fieldMem f) f := by
  have hlen : (f.digits.reverse.map digitChar).length = 11 := by
    rw [List.length_map, List.length_reverse, f.eleven]
  constructor
  · intro j d hd
    have hj : j < 11 := by
      have := (List.getElem?_eq_some_iff.mp hd).1
      rwa [List.length_reverse, f.eleven] at this
    rw [fieldMem, if_pos (by omega), Int.toNat_natCast, List.getD_eq_getElem?_getD, SizeField.bytes,
      List.getElem?_append_left (by omega), List.getElem?_map, hd]
    rfl
  · change f.bytes.getD 11 0 = 0
    rw [List.getD_eq_getElem?_getD, SizeField.bytes, List.getElem?_append_right (by omega), hlen]
    rfl

theorem decoders_agree_iff_nine : DecodersAgree (fieldMem nine) nine :=
  (decoders_agree_iff nine (by decide) (fieldMem nine) (fieldAt_fieldMem nine)).mpr (by decide)

/-- On the size 8 `oct_to_dec` gives 1. -/
theorem decoders_differ_eight : eight.value < 2 ^ 28 ∧ FieldAt (fieldMem eight) eight ∧
    ¬ DecodersAgree (fieldMem eight) eight := by
  refine ⟨by decide, fieldAt_fieldMem eight, ?_⟩
  rintro ⟨fuel, r, hr, -, -, hval, -⟩
  have hsmall : ∀ n : Fin 3, octToDec n.val (fieldMem eight) = none := by decide
  have hrun : ∀ n, octToDec (n + 3) (fieldMem eight) = some (1, [11, 10, 9]) := fun _ => rfl
  have hone : r.1 = 1 := by
    by_cases h : fuel < 3
    · rw [hsmall ⟨fuel, h⟩] at hr
      cases hr
    · obtain ⟨n, rfl⟩ : ∃ n, fuel = n + 3 := ⟨fuel - 3, by omega⟩
      rw [hrun, Option.some.injEq] at hr
      rw [← hr]
  rw [hone] at hval
  exact absurd hval (by decide)

end TarSize
