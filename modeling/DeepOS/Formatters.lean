import DeepOS.Printf

/-!
# The two formatters

What the kernel prints and what the C library stores, compared with what the format
stands for.
-/
namespace Formatters

open CString Numerals PhyMem Printf

/-! ## Texts of pieces -/

section
variable {α β : Type} {f g : α → List β} {l : List α}

theorem length_flatMap_le (h : ∀ x ∈ l, f x = g x ∨ (f x).length < (g x).length) :
    (l.flatMap f).length ≤ (l.flatMap g).length := by
  induction l with
  | nil => exact le_rfl
  | cons x l ih =>
    rw [List.flatMap_cons, List.flatMap_cons, List.length_append, List.length_append]
    apply Nat.add_le_add
    · rcases h x (List.mem_cons_self ..) with hx | hx
      · rw [hx]
      · exact hx.le
    · exact ih fun y hy => h y (List.mem_cons_of_mem x hy)

/-- Where each text is the wanted one or shorter, a wanted whole has wanted parts. -/
theorem eq_of_flatMap_eq (h : ∀ x ∈ l, f x = g x ∨ (f x).length < (g x).length)
    (heq : l.flatMap f = l.flatMap g) : ∀ x ∈ l, f x = g x := by
  induction l with
  | nil => exact fun x hx => absurd hx List.not_mem_nil
  | cons x l ih =>
    have hrest : ∀ y ∈ l, f y = g y ∨ (f y).length < (g y).length := fun y hy => h y (List.mem_cons_of_mem x hy)
    rw [List.flatMap_cons, List.flatMap_cons] at heq
    have hhead : f x = g x := by
      rcases h x (List.mem_cons_self ..) with hx | hx
      · exact hx
      · have hlength := congrArg List.length heq
        rw [List.length_append, List.length_append] at hlength
        have := length_flatMap_le hrest
        omega
    rw [hhead] at heq
    intro y hy
    rcases List.mem_cons.mp hy with rfl | hy
    · exact hhead
    · exact ih hrest (List.append_cancel_left heq) y hy

end

variable {mem : Word → List Byte} {args : Nat → Word} {str : List Byte} {ps : List Piece}

theorem uses_fst (args : Nat → Word) (ps : List Piece) (ap : Nat) : (uses args ps ap).map Prod.fst = ps := by
  induction ps generalizing ap with
  | nil => rfl
  | cons p ps ih => rw [uses, List.map_cons, ih]

theorem exists_use {p : Piece} (args : Nat → Word) (ap : Nat) (hp : p ∈ ps) : ∃ w, (p, w) ∈ uses args ps ap := by
  rw [← uses_fst args ps ap] at hp
  obtain ⟨⟨p', w⟩, hu, rfl⟩ := List.mem_map.mp hp
  exact ⟨w, hu⟩

theorem piece_of_use {u : Piece × Word} {ap : Nat} (hu : u ∈ uses args ps ap) : u.1 ∈ ps := by
  rw [← uses_fst args ps ap]
  exact List.mem_map_of_mem hu

/-- A literal stands in the format. -/
theorem lit_mem (str : List Byte) : ∀ {ps : List Piece} {c : Byte}, pieces str = some ps → .lit c ∈ ps → c ∈ str := by
  have hconversion : ∀ c d : Byte, .lit c ≠ conversion d := by
    intro c d
    rw [conversion]
    repeat' split
    all_goals exact Piece.noConfusion
  induction str using pieces.induct with
  | case1 =>
    intro ps c hps hc
    obtain rfl := Option.some.inj hps
    exact absurd hc List.not_mem_nil
  | case2 =>
    intro ps c hps hc
    cases hps
  | case3 c' hc' =>
    intro ps c hps hc
    rw [pieces, if_neg hc'] at hps
    obtain rfl := Option.some.inj hps
    exact List.mem_singleton.mpr (Piece.lit.inj (List.mem_singleton.mp hc))
  | case4 d rest ih =>
    intro ps c hps hc
    rw [pieces, if_pos rfl] at hps
    obtain ⟨ps', hps', rfl⟩ := Option.map_eq_some_iff.mp hps
    rcases List.mem_cons.mp hc with hc | hc
    · exact absurd hc (hconversion c d)
    · exact List.mem_cons_of_mem _ (List.mem_cons_of_mem _ (ih hps' hc))
  | case5 c' d rest hc' ih =>
    intro ps c hps hc
    rw [pieces, if_neg hc'] at hps
    obtain ⟨ps', hps', rfl⟩ := Option.map_eq_some_iff.mp hps
    rcases List.mem_cons.mp hc with hc | hc
    · rw [Piece.lit.inj hc]
      exact List.mem_cons_self ..
    · exact List.mem_cons_of_mem _ (ih hps' hc)

/-! ## The same meaning -/

/-- What a format stands for, and how both print it. The string that is built ends at
its first zero. -/
structure SameMeaning (mem : Word → List Byte) (args : Nat → Word) (str ref : List Byte) : Prop where
  kernel : ∃ out, puts mem args str = some out ∧ out.chars = ref ∧ out.num.toInt = ref.length
  libc : ∃ out, convertStr mem args str = some out ∧ strAt out.chars 0 = ref ∧ out.num.toInt = ref.length

def expansion (mem : Word → List Byte) (args : Nat → Word) (ps : List Piece) : List Byte :=
  (uses args ps 0).flatMap (reference mem)

/-- No `%%`, no negative number, no zero character, and no more characters than an `int`
counts. -/
structure Plain (mem : Word → List Byte) (args : Nat → Word) (ps : List Piece) : Prop where
  percent : .percent ∉ ps
  dec : ∀ w, (.dec, w) ∈ uses args ps 0 → 0 ≤ intOf w
  chr : ∀ w, (.chr, w) ∈ uses args ps 0 → w.setWidth 8 ≠ 0
  few : (expansion mem args ps).length < 2 ^ 31

theorem puts_eq (hs : IsStr str) (hps : pieces str = some ps) : puts mem args str =
    some (Out.add ⟨[], 0⟩ ((uses args ps 0).flatMap (kernelText mem)) ((uses args ps 0).map (counted (kernelText mem))).sum) := by
  rw [puts, formatLoop_eq (kernel_prints mem) args str hs, hps]
  rfl

theorem convertStr_eq (hs : IsStr str) (hps : pieces str = some ps) : convertStr mem args str =
    some ((Out.add ⟨[], 0⟩ ((uses args ps 0).flatMap (libcText mem)) ((uses args ps 0).map (counted (libcText mem))).sum).put 0) := by
  rw [convertStr, formatLoop_eq (libc_prints mem) args str hs, hps]
  rfl

theorem sum_counted {text : Piece × Word → List Byte} {us : List (Piece × Word)} (h : ∀ u ∈ us, u.1 ≠ .percent) :
    (us.map (counted text)).sum = (us.flatMap text).length := by
  rw [List.length_flatMap]
  apply congrArg List.sum
  apply List.map_congr_left
  exact fun u hu => if_neg (h u hu)

/-- What the kernel prints is right, or shorter. -/
theorem kernelText_le (mem : Word → List Byte) (u : Piece × Word) :
    kernelText mem u = reference mem u ∨ (kernelText mem u).length < (reference mem u).length := by
  obtain ⟨p, w⟩ := u
  cases p with
  | dec =>
    simp only [kernelText, reference]
    split
    · exact Or.inr (Nat.succ_lt_succ (numeral_pos (by decide) _ _))
    · exact Or.inl rfl
  | _ => exact Or.inl rfl

theorem kernelText_dec {w : Word} (h : kernelText mem (.dec, w) = reference mem (.dec, w)) : 0 ≤ intOf w := by
  by_contra hneg
  rw [not_le] at hneg
  simp only [kernelText, reference, if_pos hneg] at h
  have hlength := congrArg List.length h
  have hpos : 0 < (decimal (intOf w).natAbs).length := numeral_pos (by decide) _ _
  rw [List.length_cons, List.length_cons, List.length_nil] at hlength
  omega

theorem signExtend_toNat {w : Word} (h : 0 ≤ intOf w) :
    ((w.setWidth 32).signExtend 64).toNat = (intOf w).natAbs := by
  have hint : ((w.setWidth 32).signExtend 64).toInt = intOf w := BitVec.toInt_signExtend_of_le (by decide)
  have hmsb : ((w.setWidth 32).signExtend 64).toInt = (((w.setWidth 32).signExtend 64).toNat : Int) := by
    rw [BitVec.toInt_eq_toNat_cond]
    split
    · rfl
    · rename_i hbig
      rw [BitVec.toInt_eq_toNat_cond, if_neg hbig] at hint
      have hlt := ((w.setWidth 32).signExtend 64).isLt
      omega
  omega

/-- What the library stores is right, or shorter, when no number is negative. -/
theorem libcText_le {u : Piece × Word} (h : u.1 = .dec → 0 ≤ intOf u.2) :
    libcText mem u = reference mem u ∨ (libcText mem u).length < (reference mem u).length := by
  obtain ⟨p, w⟩ := u
  cases p with
  | percent => exact Or.inr Nat.one_pos
  | dec =>
    have hpos : 0 ≤ intOf w := h rfl
    rw [libcText, reference, signExtend_toNat hpos, if_neg (not_lt.mpr hpos)]
    exact Or.inl rfl
  | _ => exact Or.inl rfl

/-- A text without the zero character. -/
theorem reference_isStr {u : Piece × Word} (hlit : ∀ c, u.1 = .lit c → c ≠ 0) (hchr : u.1 = .chr → u.2.setWidth 8 ≠ (0 : Byte)) :
    IsStr (reference mem u) := by
  obtain ⟨p, w⟩ := u
  cases p with
  | lit c =>
    intro x hx
    rw [List.mem_singleton.mp hx]
    exact hlit c rfl
  | percent =>
    intro x hx
    rw [List.mem_singleton.mp hx]
    decide
  | dec =>
    rw [reference]
    split
    · simp only [IsStr, List.forall_mem_cons]
      exact ⟨by decide, decimal_isStr _⟩
    · exact decimal_isStr _
  | chr =>
    intro x hx
    rw [List.mem_singleton.mp hx]
    exact hchr rfl
  | str =>
    intro x hx
    simpa using List.mem_takeWhile_imp hx
  | hex =>
    simp only [reference, IsStr, List.forall_mem_cons]
    exact ⟨by decide, by decide, hexadecimal_isStr _⟩
  | other => exact fun x hx => absurd hx List.not_mem_nil

theorem num_toInt (n : Nat) : (Out.add ⟨[], 0⟩ [] n).num.toInt = n ↔ n < 2 ^ 31 := by
  have hnum : (Out.add ⟨[], 0⟩ [] n).num = BitVec.ofNat 32 n := BitVec.zero_add _
  rw [hnum]
  constructor
  · intro h
    have hlt : (BitVec.ofNat 32 n).toInt < 2 ^ 31 := BitVec.toInt_lt
    omega
  · intro h
    rw [BitVec.toInt_ofNat']
    exact Int.bmod_eq_of_le (by omega) (by omega)

/-- For every format that does not end in a lone `%` and all arguments, both formatters
print what the format stands for exactly when it is plain. -/
theorem printf_means_reference_iff (mem : Word → List Byte) (args : Nat → Word) (str : List Byte) (ps : List Piece)
    (hs : IsStr str) (hps : pieces str = some ps) :
    SameMeaning mem args str (expansion mem args ps) ↔ Plain mem args ps := by
  constructor
  · rintro ⟨⟨kout, hkout, hkchars, hknum⟩, ⟨lout, hlout, hlchars, -⟩⟩
    rw [puts_eq hs hps] at hkout
    obtain rfl := Option.some.inj hkout
    rw [convertStr_eq hs hps] at hlout
    obtain rfl := Option.some.inj hlout
    have hkernel : ∀ u ∈ uses args ps 0, kernelText mem u = reference mem u :=
      eq_of_flatMap_eq (fun u _ => kernelText_le mem u) hkchars
    have hdec : ∀ w, (.dec, w) ∈ uses args ps 0 → 0 ≤ intOf w := fun w hw => kernelText_dec (hkernel _ hw)
    -- the library stores at most as much, and the zero that is read first ends the string
    have hstored : ((uses args ps 0).flatMap (libcText mem)).takeWhile (· ≠ 0) = expansion mem args ps :=
      (strAt_append_zero _).symm.trans hlchars
    have hlibc : ∀ u ∈ uses args ps 0, libcText mem u = reference mem u ∨
        (libcText mem u).length < (reference mem u).length := by
      rintro ⟨p, w⟩ hu
      apply libcText_le
      rintro rfl
      exact hdec w hu
    have hwhole : (uses args ps 0).flatMap (libcText mem) = expansion mem args ps := by
      have hbegin := List.takeWhile_prefix (· ≠ 0) (l := (uses args ps 0).flatMap (libcText mem))
      rw [hstored] at hbegin
      exact (hbegin.eq_of_length (le_antisymm hbegin.length_le (length_flatMap_le hlibc))).symm
    have hequal := eq_of_flatMap_eq hlibc hwhole
    refine ⟨fun hmem => ?_, hdec, fun w hw hzero => ?_, ?_⟩
    · obtain ⟨w, hw⟩ := exists_use args 0 hmem
      exact absurd (hequal _ hw) (List.cons_ne_nil _ _).symm
    · have hin : (0 : Byte) ∈ expansion mem args ps := by
        apply List.mem_flatMap.mpr
        exact ⟨(.chr, w), hw, List.mem_singleton.mpr hzero.symm⟩
      rw [← hlchars] at hin
      exact strAt_isStr _ _ 0 hin rfl
    · have hlt : (BitVec.toInt (Out.add ⟨[], 0⟩ ((uses args ps 0).flatMap (kernelText mem))
          ((uses args ps 0).map (counted (kernelText mem))).sum).num) < 2 ^ 31 := BitVec.toInt_lt
      omega
  · rintro ⟨hpercent, hdec, hchr, hfew⟩
    have hnotpercent : ∀ u ∈ uses args ps 0, u.1 ≠ .percent := fun u hu h => hpercent (h ▸ piece_of_use hu)
    have hkernel : (uses args ps 0).flatMap (kernelText mem) = expansion mem args ps := by
      apply List.flatMap_congr
      rintro ⟨p, w⟩ hu
      cases p with
      | dec =>
        have hneg : ¬ intOf w < 0 := not_lt.mpr (hdec w hu)
        simp only [kernelText, reference, if_neg hneg]
      | _ => rfl
    have hlibc : (uses args ps 0).flatMap (libcText mem) = expansion mem args ps := by
      apply List.flatMap_congr
      rintro ⟨p, w⟩ hu
      cases p with
      | percent => exact absurd rfl (hnotpercent _ hu)
      | dec =>
        have hneg : ¬ intOf w < 0 := not_lt.mpr (hdec w hu)
        simp only [libcText, reference, if_neg hneg, signExtend_toNat (hdec w hu)]
      | _ => rfl
    have hstr : IsStr (expansion mem args ps) := by
      intro c hc
      obtain ⟨⟨p, w⟩, hu, hcu⟩ := List.mem_flatMap.mp hc
      apply reference_isStr ?_ ?_ c hcu
      · rintro c' rfl
        exact hs c' (lit_mem str hps (piece_of_use hu))
      · rintro rfl
        exact hchr w hu
    refine ⟨⟨_, puts_eq hs hps, hkernel, ?_⟩, ⟨_, convertStr_eq hs hps, ?_, ?_⟩⟩
    · rw [sum_counted hnotpercent, hkernel]
      exact (num_toInt _).mpr hfew
    · rw [hlibc]
      exact (strAt_append_zero _).trans (List.takeWhile_eq_self_iff.mpr fun c hc => by simpa using hstr c hc)
    · rw [sum_counted hnotpercent, hlibc]
      exact (num_toInt _).mpr hfew

/-- `a%c` with the character `b`. -/
theorem letters_printed : SameMeaning (fun _ => []) (fun _ => 98) [97, 37, 99]
    (expansion (fun _ => []) (fun _ => 98) [.lit 97, .chr]) := by
  refine (printf_means_reference_iff (fun _ => []) (fun _ => 98) [97, 37, 99] [.lit 97, .chr] (by decide) (by decide)).mpr
    ⟨by decide, fun w hw => ?_, fun w hw => ?_, by decide⟩
  · simp [uses] at hw
  · have hchr : w = 98 := by simpa [uses] using hw
    rw [hchr]
    decide

/-- The library drops `%%`, and of -5 the kernel prints `+`. -/
theorem percent_and_minus_lost :
    (convertStr (fun _ => []) (fun _ => 0) [37, 37]).map Out.chars = some [0] ∧
    (puts (fun _ => []) (fun _ => BitVec.ofInt 64 (-5)) [37, 100]).map Out.chars = some [43] ∧
    ¬ ∀ mem args str ps, IsStr str → pieces str = some ps → SameMeaning mem args str (expansion mem args ps) := by
  have hlost : (convertStr (fun _ => []) (fun _ => 0) [37, 37]).map Out.chars = some [0] := by decide
  refine ⟨hlost, by decide, fun h => ?_⟩
  obtain ⟨out, hout, hchars, -⟩ := (h (fun _ => []) (fun _ => 0) [37, 37] [.percent] (by decide) (by decide)).libc
  rw [hout] at hlost
  rw [Option.some.inj hlost] at hchars
  exact absurd hchars (by decide)

/-! ## Bounds -/

def width (mem : Word → List Byte) : Piece × Word → Nat
  | (.lit _, _) => 1
  | (.percent, _) => 0
  | (.dec, w) => (places 10 ((w.setWidth 32).signExtend 64).toNat).length
  | (.chr, _) => 1
  | (.str, w) => (strAt (mem w) 0).length
  | (.hex, w) => (places 16 w.toNat).length + 2
  | (.other, _) => 0

theorem width_eq (mem : Word → List Byte) (u : Piece × Word) : (libcText mem u).length = width mem u := by
  have hnumeral : ∀ (b : Nat) (digit : Nat → Byte) n, (numeral b digit n).length = (places b n).length := by
    intro b digit n
    rw [numeral, List.length_reverse, List.length_map]
  obtain ⟨p, w⟩ := u
  cases p with
  | dec => exact hnumeral 10 _ _
  | hex => exact congrArg (· + 2) (hnumeral 16 _ _)
  | _ => rfl

/-- Both formatters end without a read behind the terminator, and what is stored fits
into `strToStore`. -/
def Bounded (mem : Word → List Byte) (args : Nat → Word) (str : List Byte) : Prop :=
  (∃ out, puts mem args str = some out) ∧ ∃ out, convertStr mem args str = some out ∧ out.chars.length ≤ 1000

/-- The string fits when the texts of the pieces leave room for its terminator. -/
theorem libcString_isSome_iff (mem : Word → List Byte) (args : Nat → Word) (str : List Byte) (hs : IsStr str) :
    (∃ out, libcString mem args str = some out) ↔
      ∃ ps, pieces str = some ps ∧ ((uses args ps 0).map (width mem)).sum < 1000 := by
  cases hps : pieces str with
  | none =>
    rw [libcString, convertStr, formatLoop_eq (libc_prints mem) args str hs, hps]
    simp
  | some ps =>
    have hlength : ((uses args ps 0).flatMap (libcText mem)).length = ((uses args ps 0).map (width mem)).sum := by
      rw [List.length_flatMap]
      apply congrArg List.sum
      apply List.map_congr_left
      exact fun u _ => width_eq mem u
    rw [libcString, convertStr_eq hs hps]
    simp only [Option.filter_eq_some_iff, Out.put, Out.add, List.nil_append, List.length_append, List.length_singleton,
      decide_eq_true_eq, Option.some.injEq, exists_eq_left', hlength]
    exact Nat.succ_le_iff

/-- For every format and all arguments: exactly when no lone `%` ends the format, and
the texts of its pieces leave room for the terminator. -/
theorem format_bounds_iff (mem : Word → List Byte) (args : Nat → Word) (str : List Byte) (hs : IsStr str) :
    Bounded mem args str ↔ ∃ ps, pieces str = some ps ∧ ((uses args ps 0).map (width mem)).sum < 1000 := by
  rw [← libcString_isSome_iff mem args str hs]
  constructor
  · rintro ⟨-, out, hout, hle⟩
    exact ⟨out, Option.filter_eq_some_iff.mpr ⟨hout, decide_eq_true hle⟩⟩
  · rintro ⟨out, hfits⟩
    obtain ⟨hout, hle⟩ := Option.filter_eq_some_iff.mp hfits
    obtain ⟨ps, hps, -⟩ := (libcString_isSome_iff mem args str hs).mp ⟨out, hfits⟩
    exact ⟨⟨_, puts_eq hs hps⟩, out, hout, of_decide_eq_true hle⟩

/-- `a%c` again. -/
theorem letters_bounded : Bounded (fun _ => []) (fun _ => 98) [97, 37, 99] :=
  (format_bounds_iff (fun _ => []) (fun _ => 98) [97, 37, 99] (by decide)).mpr ⟨[.lit 97, .chr], by decide, by decide⟩

/-- A lone `%` is read past its terminator, and a string of 1000 letters leaves no room
for one. -/
theorem format_leaves_bounds : puts (fun _ => []) (fun _ => 0) [37] = none ∧
    (∃ out, convertStr (fun _ => List.replicate 1000 97) (fun _ => 0) [37, 115] = some out ∧ out.chars.length = 1001) ∧
    ¬ ∀ mem args str, IsStr str → Bounded mem args str := by
  have hpast : puts (fun _ => []) (fun _ => 0) [37] = none := rfl
  refine ⟨hpast, ⟨_, @convertStr_eq _ _ [37, 115] [.str] (by decide) (by decide), ?_⟩, fun h => ?_⟩
  · have hletters : strAt (List.replicate 1000 (97 : Byte)) 0 = List.replicate 1000 97 := by
      apply strAt_of_isStr
      intro c hc
      rw [List.eq_of_mem_replicate hc]
      decide
    simp only [Out.put, Out.add, uses, List.flatMap_singleton, libcText, reference, hletters, List.nil_append,
      List.length_append, List.length_replicate, List.length_singleton]
  · obtain ⟨⟨out, hout⟩, -⟩ := h (fun _ => []) (fun _ => 0) [37] (by decide)
    rw [hpast] at hout
    cases hout

end Formatters
