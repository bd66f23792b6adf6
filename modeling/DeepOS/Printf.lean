import DeepOS.CString
import DeepOS.Numerals
import DeepOS.PhyMem

/-!
# `printf`

The kernel's `puts` sends characters to `putc`, and `convertStr` of the C library puts
them into a string. The two are one text that differs in three places. A format is read
from memory up to its terminator; what stands behind it is not known, and a read there
has no result. An argument is the word in its slot, which for `%s` is the address of a
string.
-/
namespace Printf

open CString Numerals PhyMem

/-! ## Numbers -/

/-- The buffer, from an index on, turned around. -/
def turned (lo : Nat) (buf : List Byte) : List Byte := reverseLoop 0 buf.length lo (buf.length - 1) buf

/-- `itoa` of `sys/itoa.c`. Its prototype passes an `unsigned long`, and it takes the
`int` in the same register. -/
def sysItoa (num : Word) : Option (List Byte) :=
  (digitLoop (fun n => BitVec.ofInt 8 (Int.tmod n 10 + 48)) (fun n => Int.tdiv n 10) (fun n => decide (0 < n)) 32
    (num.setWidth 32).toInt []).map (turned 0)

/-- `itoa` of `libc/printf.c`. -/
def libcItoa (num : Word) : Option (List Byte) :=
  (digitLoop (fun n => BitVec.ofNat 8 (n % 10 + 48)) (· / 10) (fun n => decide (0 < n)) 32 num.toNat []).map (turned 0)

def hexChar (hexRemainder : Nat) : Byte :=
  if 9 < hexRemainder then BitVec.ofNat 8 (hexRemainder - 10 + 65) else BitVec.ofNat 8 (hexRemainder + 48)

/-- `convertToHex`, and `convertToHex2` of the C library. -/
def convertToHex (number : Word) : Option (List Byte) :=
  (digitLoop (fun n => hexChar (n % 16)) (· / 16) (fun n => decide (0 < n)) 61 number.toNat [48, 120]).map (turned 2)

/-! ## The formatters -/

structure Out where
  chars : List Byte
  num : BitVec 32

/-- A character that is not counted. -/
def Out.put (out : Out) (c : Byte) : Out := { out with chars := out.chars ++ [c] }

def Out.count (out : Out) (c : Byte) : Out := ⟨out.chars ++ [c], out.num + 1⟩

def copy : List Byte → Out → Out
  | [], out => out
  | c :: s, out => if c = 0 then out else copy s (out.count c)

/-- What differs: the escape `%%`, the sign, and the `itoa` that is called. -/
structure Formatter where
  percent : Out → Out
  minus : Out → Out
  itoa : Word → Option (List Byte)

/-- The inner `switch`, where `ap` is the number of arguments that have been taken. -/
def convert (f : Formatter) (mem : Word → List Byte) (args : Nat → Word) (c : Byte) (ap : Nat) (out : Out) :
    Option (Nat × Out) :=
  if c = 37 then some (ap, f.percent out)
  else if c = 100 then
    let numInt := ((args ap).setWidth 32).signExtend 64
    -- `numInt` is unsigned
    let (out, numInt) := if numInt < 0 then (f.minus out, -numInt) else (out, numInt)
    (f.itoa numInt).map fun s => (ap + 1, copy s out)
  else if c = 99 then some (ap + 1, out.count ((args ap).setWidth 8))
  else if c = 115 then some (ap + 1, copy (mem (args ap)) out)
  else if c = 112 then (convertToHex (args ap)).map fun s => (ap + 1, copy s out)
  else if c = 120 then
    let numInt := args ap
    let intNumber := if numInt < 0 then (-numInt ^^^ 0xFFFF) + 1 else numInt
    (convertToHex intNumber).map fun s => (ap + 1, copy s out)
  else some (ap, out)

/-- The outer loop, over the bytes of the format with its terminator. -/
def formatLoop (f : Formatter) (mem : Word → List Byte) (args : Nat → Word) : List Byte → Nat → Out → Option Out
  | [], _, _ => none
  | [c], _, out => if c = 0 then some out else none
  | c :: d :: rest, ap, out =>
    if c = 0 then some out
    else if c = 37 then (convert f mem args d ap out).bind fun r => formatLoop f mem args rest r.1 r.2
    else formatLoop f mem args (d :: rest) ap (out.count c)

def kernel : Formatter := ⟨fun out => out.put 37, fun out => out.put 45, sysItoa⟩

def libc : Formatter := ⟨id, id, libcItoa⟩

def puts (mem : Word → List Byte) (args : Nat → Word) (str : List Byte) : Option Out :=
  formatLoop kernel mem args (str ++ [0]) 0 ⟨[], 0⟩

/-- `convertStr`: what is stored from `targetString` on, and what `printf` returns. -/
def convertStr (mem : Word → List Byte) (args : Nat → Word) (str : List Byte) : Option Out :=
  (formatLoop libc mem args (str ++ [0]) 0 ⟨[], 0⟩).map fun out => out.put 0

/-- The string that `printf` of the C library hands to the kernel. Behind the 1000 bytes of
`strToStore` lies what the function needs to return, and there is no result. -/
def libcString (mem : Word → List Byte) (args : Nat → Word) (str : List Byte) : Option Out :=
  (convertStr mem args str).filter fun out => out.chars.length ≤ 1000

/-! ## Formats -/

inductive Piece where
  | lit (c : Byte)
  | percent
  | dec
  | chr
  | str
  | hex
  | other
deriving DecidableEq

/-- The conversion for the character behind `%`. -/
def conversion (c : Byte) : Piece :=
  if c = 37 then .percent else if c = 100 then .dec else if c = 99 then .chr else if c = 115 then .str
  else if c = 112 then .hex else if c = 120 then .hex else .other

def pieces : List Byte → Option (List Piece)
  | [] => some []
  | [c] => if c = 37 then none else some [.lit c]
  | c :: d :: rest =>
    if c = 37 then (pieces rest).map (conversion d :: ·) else (pieces (d :: rest)).map (.lit c :: ·)

def Piece.takes : Piece → Bool
  | .dec | .chr | .str | .hex => true
  | .lit _ | .percent | .other => false

/-- The pieces, each with the argument that is next when it is reached. -/
def uses (args : Nat → Word) : List Piece → Nat → List (Piece × Word)
  | [], _ => []
  | p :: ps, ap => (p, args ap) :: uses args ps (if p.takes then ap + 1 else ap)

def decimal : Nat → List Byte := numeral 10 fun d => BitVec.ofNat 8 (d + 48)

def hexadecimal : Nat → List Byte := numeral 16 hexChar

def intOf (w : Word) : Int := (w.setWidth 32).toInt

/-- What a format stands for. A conversion that `printf` does not have stands for
nothing. -/
def reference (mem : Word → List Byte) : Piece × Word → List Byte
  | (.lit c, _) => [c]
  | (.percent, _) => [37]
  | (.dec, w) => if intOf w < 0 then 45 :: decimal (intOf w).natAbs else decimal (intOf w).natAbs
  | (.chr, w) => [w.setWidth 8]
  | (.str, w) => strAt (mem w) 0
  | (.hex, w) => 48 :: 120 :: hexadecimal w.toNat
  | (.other, _) => []

/-- What the kernel prints for a piece: of a negative number one character. -/
def kernelText (mem : Word → List Byte) : Piece × Word → List Byte
  | (.dec, w) => if intOf w < 0 then [BitVec.ofInt 8 (Int.tmod (intOf w) 10 + 48)] else decimal (intOf w).natAbs
  | u => reference mem u

/-- What the C library stores for a piece: nothing for `%%`, and of a negative number
the decimals of its 64 bits. -/
def libcText (mem : Word → List Byte) : Piece × Word → List Byte
  | (.percent, _) => []
  | (.dec, w) => decimal ((w.setWidth 32).signExtend 64).toNat
  | u => reference mem u

/-! ## The numbers as numerals -/

theorem turned_eq (before digits : List Byte) : turned before.length (before ++ digits) = before ++ digits.reverse := by
  have h := reverseLoop_eq (0 : Byte) (before ++ digits).length before digits [] (by simp)
  rw [List.append_nil, List.append_nil] at h
  rw [turned, ← h, List.length_append]

theorem libcItoa_eq (num : Word) : libcItoa num = some (decimal num.toNat) := by
  have hroom : num.toNat < 10 ^ 32 := num.isLt.trans (by decide)
  rw [libcItoa, digitLoop_places (by decide) (fun d => BitVec.ofNat 8 (d + 48)) 32 _ _ hroom (by decide)]
  exact congrArg some (turned_eq [] _)

theorem convertToHex_eq (number : Word) : convertToHex number = some (48 :: 120 :: hexadecimal number.toNat) := by
  have hroom : number.toNat < 16 ^ 61 := number.isLt.trans (by decide)
  rw [convertToHex, digitLoop_places (by decide) hexChar 61 _ _ hroom (by decide)]
  exact congrArg some (turned_eq [48, 120] _)

/-- The loop over an `int` that is not negative. -/
theorem intLoop_eq (room n : Nat) (buf : List Byte) :
    digitLoop (fun n => BitVec.ofInt 8 (Int.tmod n 10 + 48)) (fun n => Int.tdiv n 10) (fun n => decide (0 < n)) room
      (n : Int) buf =
    digitLoop (fun n => BitVec.ofNat 8 (n % 10 + 48)) (· / 10) (fun n => decide (0 < n)) room n buf := by
  apply digitLoop_map (f := fun n : Nat => (n : Int))
  · intro a
    exact BitVec.ofInt_natCast 8 (a % 10 + 48)
  · exact fun a => (Int.ofNat_tdiv a 10).symm
  · exact fun a => decide_eq_decide.mpr Int.natCast_pos

/-- A number that is not negative is printed, and of a negative one the last digit is
taken from `'0'` and the loop stops. -/
theorem sysItoa_eq (num : Word) : sysItoa num = some (if intOf num < 0 then
    [BitVec.ofInt 8 (Int.tmod (intOf num) 10 + 48)] else decimal (intOf num).natAbs) := by
  have hnum : (num.setWidth 32).toInt = intOf num := rfl
  rw [sysItoa, hnum]
  by_cases hneg : intOf num < 0
  · have hstop : ¬ decide (0 < (intOf num).tdiv 10) = true := by
      rw [decide_eq_true_eq, not_lt, ← neg_neg (intOf num), Int.neg_tdiv, Left.neg_nonpos_iff]
      exact Int.tdiv_nonneg (by omega) (by decide)
    rw [if_pos hneg, digitLoop, if_neg hstop]
    exact congrArg some (turned_eq [] _)
  · have hroom : (intOf num).natAbs < 10 ^ 32 := by
      have hlt : intOf num < 2 ^ 31 := BitVec.toInt_lt
      omega
    have hcast : intOf num = ((intOf num).natAbs : Int) := by omega
    rw [if_neg hneg]
    generalize (intOf num).natAbs = n at hroom hcast
    rw [hcast, intLoop_eq, digitLoop_places (by decide) (fun d => BitVec.ofNat 8 (d + 48)) 32 _ _ hroom (by decide)]
    exact congrArg some (turned_eq [] _)

/-! ## Printing -/

def Out.add (out : Out) (text : List Byte) (n : Nat) : Out := ⟨out.chars ++ text, out.num + BitVec.ofNat 32 n⟩

theorem Out.add_nil (out : Out) : out.add [] 0 = out := by
  simp [Out.add]

theorem Out.add_add (out : Out) (s t : List Byte) (m n : Nat) : (out.add s m).add t n = out.add (s ++ t) (m + n) := by
  simp only [Out.add, List.append_assoc, BitVec.ofNat_add, add_assoc]

theorem Out.count_eq (out : Out) (c : Byte) : out.count c = out.add [c] 1 := rfl

theorem Out.put_eq (out : Out) (c : Byte) : out.put c = out.add [c] 0 := by
  simp [Out.put, Out.add]

theorem copy_eq (s : List Byte) : ∀ out : Out, copy s out = out.add (strAt s 0) (strAt s 0).length := by
  induction s with
  | nil => exact fun out => out.add_nil.symm
  | cons c s ih =>
    intro out
    rw [copy, strAt, List.drop_zero, List.takeWhile_cons]
    by_cases hc : c = 0
    · rw [if_pos hc, if_neg (by simpa using hc)]
      exact out.add_nil.symm
    · rw [if_neg hc, if_pos (by simpa using hc), ih, out.count_eq, Out.add_add, strAt, List.drop_zero,
        List.length_cons, Nat.add_comm]
      rfl

theorem strAt_of_isStr {s : List Byte} (h : IsStr s) : strAt s 0 = s := by
  rw [strAt, List.drop_zero, List.takeWhile_eq_self_iff]
  intro c hc
  simpa using h c hc

theorem numeral_isStr {b : Nat} (hb : 1 < b) {digit : Nat → Byte} (h : ∀ d < b, digit d ≠ 0) (n : Nat) :
    IsStr (numeral b digit n) := by
  intro c hc
  obtain ⟨d, hd, rfl⟩ := List.mem_map.mp (List.mem_reverse.mp hc)
  exact h d (places_lt hb d hd)

theorem decimal_isStr (n : Nat) : IsStr (decimal n) := numeral_isStr (by decide) (by decide) n

theorem hexadecimal_isStr (n : Nat) : IsStr (hexadecimal n) := numeral_isStr (by decide) (by decide) n

/-- The one character that the kernel prints of a negative number. -/
theorem minus_isStr {n : Int} : IsStr [BitVec.ofInt 8 (Int.tmod n 10 + 48)] := by
  intro c hc
  rw [List.mem_singleton.mp hc]
  have habove := Int.lt_tmod_of_pos n (show (0 : Int) < 10 by decide)
  have hbelow := Int.tmod_lt_of_pos n (show (0 : Int) < 10 by decide)
  intro h
  have htoInt := congrArg BitVec.toNat h
  rw [BitVec.toNat_ofInt] at htoInt
  have hzero : (0 : Byte).toNat = 0 := rfl
  omega

/-- How much of a text is counted: `%%` is not. -/
def counted (text : Piece × Word → List Byte) (u : Piece × Word) : Nat :=
  if u.1 = .percent then 0 else (text u).length

/-- What a formatter adds for each piece. -/
structure Prints (f : Formatter) (mem : Word → List Byte) (text : Piece × Word → List Byte) : Prop where
  percent : ∀ out w, f.percent out = out.add (text (.percent, w)) 0
  dec : ∀ w : Word, f.itoa ((w.setWidth 32).signExtend 64) = some (text (.dec, w)) ∧ IsStr (text (.dec, w))
  rest : ∀ p w, p ≠ .percent → p ≠ .dec → text (p, w) = reference mem (p, w)

theorem intOf_signExtend (w : Word) : intOf ((w.setWidth 32).signExtend 64) = intOf w := by
  have hlow : ((w.setWidth 32).signExtend 64).setWidth 32 = w.setWidth 32 := by
    apply BitVec.eq_of_getElem_eq
    intro i hi
    rw [BitVec.getElem_setWidth, BitVec.getLsbD_signExtend, if_pos hi, BitVec.getLsbD_eq_getElem hi]
    simp only [Bool.and_eq_right_iff_imp, decide_eq_true_eq]
    omega
  rw [intOf, intOf, hlow]

theorem kernel_prints (mem : Word → List Byte) : Prints kernel mem (kernelText mem) where
  percent := fun out _ => out.put_eq 37
  dec := by
    intro w
    refine ⟨?_, ?_⟩
    · exact (sysItoa_eq _).trans (by rw [intOf_signExtend]; rfl)
    · simp only [kernelText]
      split
      · exact minus_isStr
      · exact decimal_isStr _
  rest := by
    intro p w hpercent hdec
    cases p with
    | dec => exact absurd rfl hdec
    | _ => rfl

theorem libc_prints (mem : Word → List Byte) : Prints libc mem (libcText mem) where
  percent := fun out _ => out.add_nil.symm
  dec := fun w => ⟨libcItoa_eq _, decimal_isStr _⟩
  rest := by
    intro p w hpercent hdec
    cases p with
    | percent => exact absurd rfl hpercent
    | dec => exact absurd rfl hdec
    | _ => rfl

variable {f : Formatter} {mem : Word → List Byte} {text : Piece × Word → List Byte}

theorem not_neg (w : Word) : ¬ w < 0 := BitVec.not_lt_zero

/-- One conversion. -/
theorem convert_eq (h : Prints f mem text) (args : Nat → Word) (c : Byte) (ap : Nat) (out : Out) :
    convert f mem args c ap out = some (if (conversion c).takes then ap + 1 else ap,
      out.add (text (conversion c, args ap)) (counted text (conversion c, args ap))) := by
  have hhex : ∀ w, (convertToHex w).map (fun s => (ap + 1, copy s out)) =
      some (ap + 1, out.add (text (.hex, w)) (counted text (.hex, w))) := by
    intro w
    have hstr : IsStr (48 :: 120 :: hexadecimal w.toNat) := by
      simp only [IsStr, List.forall_mem_cons]
      exact ⟨by decide, by decide, hexadecimal_isStr _⟩
    rw [counted, h.rest .hex w (by decide) (by decide), convertToHex_eq, Option.map_some, copy_eq,
      reference, strAt_of_isStr hstr]
    rfl
  rw [convert, conversion]
  by_cases hpercent : c = 37
  · rw [if_pos hpercent, if_pos hpercent, h.percent out (args ap)]
    rfl
  rw [if_neg hpercent, if_neg hpercent]
  by_cases hdec : c = 100
  · obtain ⟨hitoa, hstr⟩ := h.dec (args ap)
    simp only [if_pos hdec, if_neg (not_neg _)]
    rw [hitoa, Option.map_some, copy_eq, strAt_of_isStr hstr]
    rfl
  rw [if_neg hdec, if_neg hdec]
  by_cases hchr : c = 99
  · rw [if_pos hchr, if_pos hchr, out.count_eq, counted, h.rest .chr _ (by decide) (by decide)]
    rfl
  rw [if_neg hchr, if_neg hchr]
  by_cases hstr : c = 115
  · rw [if_pos hstr, if_pos hstr, copy_eq, counted, h.rest .str _ (by decide) (by decide)]
    rfl
  rw [if_neg hstr, if_neg hstr]
  by_cases hp : c = 112
  · rw [if_pos hp, if_pos hp, hhex]
    rfl
  rw [if_neg hp, if_neg hp]
  by_cases hx : c = 120
  · simp only [if_pos hx, if_neg (not_neg _)]
    rw [hhex]
    rfl
  · rw [if_neg hx, if_neg hx, counted, h.rest .other _ (by decide) (by decide)]
    exact congrArg some (Prod.ext rfl out.add_nil.symm)

/-- The whole format: the texts of its pieces, or a read behind the terminator. -/
theorem formatLoop_eq (h : Prints f mem text) (args : Nat → Word) (s : List Byte) (hs : IsStr s) :
    ∀ (ap : Nat) (out : Out), formatLoop f mem args (s ++ [0]) ap out = (pieces s).map fun ps =>
      out.add ((uses args ps ap).flatMap text) ((uses args ps ap).map (counted text)).sum := by
  have hlit : ∀ c w, text (.lit c, w) = [c] := fun c w => h.rest (.lit c) w Piece.noConfusion Piece.noConfusion
  induction s using pieces.induct with
  | case1 => exact fun ap out => congrArg some out.add_nil.symm
  | case2 =>
    -- the `%` is followed by the terminator
    intro ap out
    have hstep : formatLoop f mem args [37, 0] ap out =
        (convert f mem args 0 ap out).bind fun r => formatLoop f mem args [] r.1 r.2 := rfl
    rw [List.singleton_append, hstep, convert_eq h]
    rfl
  | case3 c hc =>
    intro ap out
    have hc0 : c ≠ 0 := hs c (List.mem_singleton.mpr rfl)
    have hend : formatLoop f mem args [0] ap (out.count c) = some (out.count c) := rfl
    rw [List.singleton_append, formatLoop, if_neg hc0, if_neg hc, hend, pieces, if_neg hc, out.count_eq]
    simp only [Option.map_some, uses, List.flatMap_singleton, hlit, List.map_singleton, List.sum_singleton, counted]
    rfl
  | case4 d rest ih =>
    intro ap out
    have hrest := ih fun c hc => hs c (List.mem_cons_of_mem _ (List.mem_cons_of_mem _ hc))
    rw [List.cons_append, List.cons_append, formatLoop, if_neg (by decide), if_pos rfl, convert_eq h,
      Option.bind_some, hrest, pieces, if_pos rfl, Option.map_map]
    apply congrArg (Option.map · (pieces rest))
    funext ps
    rw [Out.add_add]
    rfl
  | case5 c d rest hc ih =>
    intro ap out
    have hc0 : c ≠ 0 := hs c (List.mem_cons_self ..)
    have hrest := ih fun c hc => hs c (List.mem_cons_of_mem _ hc)
    rw [List.cons_append, List.cons_append, formatLoop, if_neg hc0, if_neg hc, ← List.cons_append, hrest, pieces,
      if_neg hc, Option.map_map]
    apply congrArg (Option.map · (pieces (d :: rest)))
    funext ps
    rw [out.count_eq, Out.add_add, Function.comp_apply, uses, List.flatMap_cons, List.map_cons, List.sum_cons, hlit,
      counted, hlit]
    rfl

end Printf
