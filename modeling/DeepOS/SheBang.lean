import DeepOS.CString

/-!
# The interpreter line

`getSheBang` reads a file one character at a time and looks at the character, not at what
`read` returns: at the end of the file the character of the read before is looked at again.
-/
namespace SheBang

open CString

/-- What is left of the file, and `c[0]`. -/
structure Reader where
  rest : List Byte
  c : Byte

/-- `read(fd, c, 1)`. At the end of the file nothing is stored. -/
def Reader.read : Reader → Reader
  | ⟨[], c⟩ => ⟨[], c⟩
  | ⟨b :: rest, _⟩ => ⟨rest, b⟩

/-- What is stored from `buff` on, and how often the descriptor is closed. -/
structure Done where
  stored : List Byte
  closes : Nat

def skipBlanks : Nat → Reader → Option Reader
  | 0, _ => none
  | fuel + 1, s => if s.c = 32 ∨ s.c = 10 ∨ s.c = 0 then skipBlanks fuel s.read else some s

/-- The second loop, with the terminator that is stored when it ends. -/
def copyLine : Nat → Reader → List Byte → Option (List Byte)
  | 0, _, _ => none
  | fuel + 1, s, stored =>
    if s.c ≠ 10 then
      let next := Reader.read { s with c := 0 }
      if next.c = 0 then some (stored ++ [s.c] ++ [0]) else copyLine fuel next (stored ++ [s.c])
    else some (stored ++ [0])

def testLine (fuel : Nat) (s : Reader) : Option Done :=
  if s.c = 35 then
    let s := s.read
    if s.c = 33 then
      let s := s.read
      if s.c = 32 then some ⟨[], 1⟩
      else (copyLine fuel s []).map fun stored => ⟨stored, 1⟩
    else some ⟨[], 1⟩
  else some ⟨[], 1⟩

/-- `c0` is what the array holds before the first read. -/
def getSheBang (fuel : Nat) (content : List Byte) (c0 : Byte) : Option Done :=
  (skipBlanks fuel (Reader.read ⟨content, c0⟩)).bind (testLine fuel)

/-! ## What is promised -/

def isBlank (c : Byte) : Bool := c = 32 ∨ c = 10 ∨ c = 0

def body (content : List Byte) : List Byte := content.dropWhile isBlank

def interpreter : List Byte → Option (List Byte)
  | 35 :: 33 :: d :: rest => if d ≠ 32 ∧ d ≠ 10 then some ((d :: rest).takeWhile (· ≠ 10)) else none
  | _ => none

/-- The call returns with the interpreter of the file in `buff`, or with `buff` untouched,
and has closed the descriptor. -/
def Parses (content : List Byte) (c0 : Byte) : Prop :=
  ∃ fuel r, getSheBang fuel content c0 = some r ∧ r.closes = 1 ∧
    r.stored = ((interpreter (body content)).map (· ++ [0])).getD []

/-- There is a character that ends the first loop, and behind `#!` there is one that is no
newline. In an empty file the character is what the array held before. -/
def Readable (content : List Byte) (c0 : Byte) : Prop :=
  if content = [] then isBlank c0 = false
  else body content ≠ [] ∧ body content ≠ [35, 33] ∧ ¬ [35, 33, 10] <+: body content

instance decidableReadable (content : List Byte) (c0 : Byte) : Decidable (Readable content c0) :=
  inferInstanceAs (Decidable (if content = [] then _ else _))

/-! ## The first loop -/

variable {content blanks rest : List Byte} {b c : Byte} {fuel : Nat}

theorem isBlank_iff : isBlank c = true ↔ c = 32 ∨ c = 10 ∨ c = 0 := decide_eq_true_iff

theorem skipBlanks_stop (hb : isBlank b = false) : skipBlanks (fuel + 1) ⟨rest, b⟩ = some ⟨rest, b⟩ := by
  have hno : ¬ (b = 32 ∨ b = 10 ∨ b = 0) := by
    rw [← isBlank_iff, hb]
    exact Bool.false_ne_true
  exact if_neg hno

theorem skipBlanks_pass (hb : isBlank b = true) (s : List Byte) :
    skipBlanks (fuel + 1) ⟨s, b⟩ = skipBlanks fuel (Reader.read ⟨s, b⟩) := if_pos (isBlank_iff.mp hb)

/-- At the end of the file a blank is read again and again. -/
theorem skipBlanks_end (hb : isBlank b = true) (fuel : Nat) : skipBlanks fuel ⟨[], b⟩ = none := by
  induction fuel with
  | zero => rfl
  | succ fuel ih => rw [skipBlanks_pass hb, Reader.read, ih]

theorem skipBlanks_blanks (hblanks : ∀ c ∈ blanks, isBlank c = true) (hc : blanks = [] → isBlank c = true)
    (fuel : Nat) : skipBlanks fuel (Reader.read ⟨blanks, c⟩) = none := by
  induction blanks generalizing c fuel with
  | nil => exact skipBlanks_end (hc rfl) fuel
  | cons b blanks ih =>
    have hb := hblanks b List.mem_cons_self
    cases fuel with
    | zero => rfl
    | succ fuel =>
      rw [Reader.read, skipBlanks_pass hb]
      exact ih (fun d hd => hblanks d (List.mem_cons_of_mem b hd)) (fun _ => hb) fuel

/-- The loop ends with the first character that is no blank. -/
theorem skipBlanks_eq (hblanks : ∀ c ∈ blanks, isBlank c = true) (hb : isBlank b = false) (c : Byte) (fuel : Nat) :
    skipBlanks fuel (Reader.read ⟨blanks ++ b :: rest, c⟩) = if blanks.length < fuel then some ⟨rest, b⟩ else none := by
  induction blanks generalizing c fuel with
  | nil =>
    cases fuel with
    | zero => rfl
    | succ fuel => exact (skipBlanks_stop hb).trans (if_pos fuel.succ_pos).symm
  | cons d blanks ih =>
    cases fuel with
    | zero => rfl
    | succ fuel =>
      rw [List.cons_append, Reader.read, skipBlanks_pass (hblanks d List.mem_cons_self),
        ih (fun e he => hblanks e (List.mem_cons_of_mem d he)), List.length_cons]
      simp only [Nat.add_lt_add_iff_right]

/-! ## The second loop -/

/-- What is copied is the line. -/
theorem copyLine_line (hs : IsStr rest) (stored : List Byte) {line : List Byte}
    (h : copyLine fuel ⟨rest, b⟩ stored = some line) : line = stored ++ (b :: rest).takeWhile (· ≠ 10) ++ [0] := by
  induction fuel generalizing rest b stored with
  | zero => cases h
  | succ fuel ih =>
    rw [copyLine] at h
    by_cases hb : b = 10
    · rw [if_neg (not_not.mpr hb), Option.some.injEq] at h
      rw [← h, List.takeWhile_cons_of_neg (by simpa using hb), List.append_nil]
    · rw [if_pos hb] at h
      rw [List.takeWhile_cons_of_pos (by simpa using hb)]
      cases rest with
      | nil =>
        rw [Reader.read, if_pos rfl, Option.some.injEq] at h
        rw [← h]
        rfl
      | cons d rest =>
        have hd : d ≠ 0 := hs d List.mem_cons_self
        rw [Reader.read, if_neg hd] at h
        rw [ih (fun e he => hs e (List.mem_cons_of_mem d he)) _ h]
        simp only [List.append_assoc, List.cons_append, List.nil_append]

theorem copyLine_isSome (hs : IsStr rest) (stored : List Byte) (hfuel : rest.length < fuel) :
    (copyLine fuel ⟨rest, b⟩ stored).isSome := by
  induction rest generalizing fuel b stored with
  | nil =>
    obtain ⟨fuel, rfl⟩ := Nat.exists_eq_add_of_lt hfuel
    rw [copyLine]
    split <;> rfl
  | cons d rest ih =>
    obtain ⟨fuel, rfl⟩ : ∃ n, fuel = n + 1 := ⟨fuel - 1, by omega⟩
    have hd : d ≠ 0 := hs d List.mem_cons_self
    rw [copyLine]
    by_cases hb : b = 10
    · rw [if_neg (not_not.mpr hb)]
      rfl
    · rw [if_pos hb, Reader.read, if_neg hd]
      exact ih (fun e he => hs e (List.mem_cons_of_mem d he)) _ (by rw [List.length_cons] at hfuel; omega)

/-! ## The line -/

/-- The test of a line does what is promised, with any bound from `n` turns on. -/
def TestParses (n : Nat) (b : Byte) (rest : List Byte) : Prop :=
  ∃ fuel > n, ∃ r, testLine fuel ⟨rest, b⟩ = some r ∧ r.closes = 1 ∧
    r.stored = ((interpreter (b :: rest)).map (· ++ [0])).getD []

theorem testParses_quiet (n : Nat) (hline : ∀ fuel, testLine fuel ⟨rest, b⟩ = some ⟨[], 1⟩)
    (hno : interpreter (b :: rest) = none) : TestParses n b rest := by
  refine ⟨n + 1, n.lt_succ_self, _, hline _, rfl, ?_⟩
  rw [hno]
  rfl

theorem interpreter_none {text : List Byte} (h : ¬ [35, 33] <+: text) : interpreter text = none := by
  unfold interpreter
  split
  · exact absurd ⟨_, rfl⟩ h
  · rfl

/-- A text that does not begin with `#!` is no line of this kind. -/
theorem other_text {text : List Byte} (h : ¬ [35, 33] <+: text) : text ≠ [35, 33] ∧ ¬ [35, 33, 10] <+: text := by
  constructor
  · rintro rfl
    exact h (List.prefix_rfl)
  · intro hline
    exact h ((List.prefix_append [35, 33] [10]).trans hline)

theorem interpreter_line (e : Byte) (rest : List Byte) : interpreter (35 :: 33 :: e :: rest) =
    if e ≠ 32 ∧ e ≠ 10 then some ((e :: rest).takeWhile (· ≠ 10)) else none := rfl

/-- The character behind `#!` decides. -/
theorem testParses_bang (n : Nat) {e : Byte} (hs : IsStr rest) : TestParses n 35 (33 :: e :: rest) ↔ e ≠ 10 := by
  by_cases hblank : e = 32
  · subst hblank
    exact ⟨fun _ => by decide, fun _ => testParses_quiet n (fun _ => rfl) rfl⟩
  · have htest : ∀ fuel, testLine fuel ⟨33 :: e :: rest, 35⟩ =
        (copyLine fuel ⟨rest, e⟩ []).map fun stored => ⟨stored, 1⟩ := fun _ => if_neg hblank
    constructor
    · rintro ⟨fuel, -, r, hr, -, hstored⟩ rfl
      rw [htest, Option.map_eq_some_iff] at hr
      obtain ⟨line, hline, rfl⟩ := hr
      rw [interpreter_line, if_neg (fun h => h.2 rfl)] at hstored
      -- the terminator is stored over the first character of `buff`
      have hzero : line = [0] := copyLine_line hs [] hline
      rw [hzero] at hstored
      cases hstored
    · intro hnew
      have hfuel : rest.length < n + rest.length + 1 := by omega
      obtain ⟨line, hline⟩ := Option.isSome_iff_exists.mp (copyLine_isSome (b := e) hs [] hfuel)
      refine ⟨n + rest.length + 1, by omega, ⟨line, 1⟩, ?_, rfl, ?_⟩
      · rw [htest, hline, Option.map_some]
      · rw [interpreter_line, if_pos ⟨hblank, hnew⟩]
        exact copyLine_line hs [] hline

/-- At the end of the file behind `#!` the `!` is taken for the interpreter. -/
theorem testParses_end (n : Nat) : ¬ TestParses n 35 [33] := by
  rintro ⟨fuel, hfuel, r, hr, -, hstored⟩
  obtain ⟨fuel, rfl⟩ : ∃ m, fuel = m + 1 := ⟨fuel - 1, by omega⟩
  obtain rfl : (⟨[33, 0], 1⟩ : Done) = r := Option.some.inj hr
  exact absurd hstored (by decide)

theorem testParses_iff (n : Nat) (hs : IsStr rest) :
    TestParses n b rest ↔ b :: rest ≠ [35, 33] ∧ ¬ [35, 33, 10] <+: b :: rest := by
  by_cases hb : b = 35
  · subst hb
    cases rest with
    | nil => exact ⟨fun _ => ⟨by decide, by decide⟩, fun _ => testParses_quiet n (fun _ => rfl) rfl⟩
    | cons d rest =>
      by_cases hd : d = 33
      · subst hd
        cases rest with
        | nil => exact ⟨fun h => absurd h (testParses_end n), fun h => absurd rfl h.1⟩
        | cons e rest =>
          have hs' : IsStr rest := fun d hd => hs d (List.mem_cons_of_mem _ (List.mem_cons_of_mem _ hd))
          rw [testParses_bang n hs']
          simp [eq_comm]
      · have hother : ¬ [35, 33] <+: 35 :: d :: rest := by
          rw [List.cons_prefix_cons, List.cons_prefix_cons]
          exact fun h => hd h.2.1.symm
        have hquiet : ∀ fuel, testLine fuel ⟨d :: rest, 35⟩ = some ⟨[], 1⟩ := fun _ => if_neg hd
        exact ⟨fun _ => other_text hother, fun _ => testParses_quiet n hquiet (interpreter_none hother)⟩
  · have hother : ¬ [35, 33] <+: b :: rest := by
      rw [List.cons_prefix_cons]
      exact fun h => hb h.1.symm
    have hquiet : ∀ fuel, testLine fuel ⟨rest, b⟩ = some ⟨[], 1⟩ := fun _ => if_neg hb
    exact ⟨fun _ => other_text hother, fun _ => testParses_quiet n hquiet (interpreter_none hother)⟩

/-! ## The whole call -/

theorem body_nil_iff : body content = [] ↔ ∀ c ∈ content, isBlank c = true := List.dropWhile_eq_nil_iff

/-- A call for a file with blanks only does not return. -/
theorem getSheBang_blanks (hblanks : ∀ c ∈ content, isBlank c = true) (hc : content = [] → isBlank c = true)
    (fuel : Nat) : getSheBang fuel content c = none := by
  rw [getSheBang, skipBlanks_blanks hblanks hc fuel, Option.bind_none]

/-- The blanks take one turn each. -/
theorem parses_iff (hblanks : ∀ c ∈ blanks, isBlank c = true) (hb : isBlank b = false) (c : Byte) :
    Parses (blanks ++ b :: rest) c ↔ TestParses blanks.length b rest := by
  have hbody : body (blanks ++ b :: rest) = b :: rest := by
    rw [body, List.dropWhile_append_of_pos hblanks, List.dropWhile_cons_of_neg (by rw [hb]; decide)]
  rw [Parses, TestParses, hbody]
  constructor
  · rintro ⟨fuel, r, hr, hdone⟩
    rw [getSheBang, skipBlanks_eq hblanks hb] at hr
    by_cases hfuel : blanks.length < fuel
    · rw [if_pos hfuel] at hr
      exact ⟨fuel, hfuel, r, hr, hdone⟩
    · rw [if_neg hfuel] at hr
      cases hr
  · rintro ⟨fuel, hfuel, r, hr, hdone⟩
    refine ⟨fuel, r, ?_, hdone⟩
    rw [getSheBang, skipBlanks_eq hblanks hb, if_pos hfuel]
    exact hr

/-- In an empty file the character before the first read is tested. -/
theorem parses_empty (c : Byte) : Parses [] c ↔ isBlank c = false := by
  constructor
  · rintro ⟨fuel, r, hr, -⟩
    rw [Bool.eq_false_iff]
    intro hc
    rw [getSheBang_blanks (fun d hd => absurd hd List.not_mem_nil) (fun _ => hc)] at hr
    cases hr
  · intro hc
    have htest : testLine 1 ⟨[], c⟩ = some ⟨[], 1⟩ := by
      by_cases hhash : c = 35
      · subst hhash
        rfl
      · exact if_neg hhash
    refine ⟨1, ⟨[], 1⟩, ?_, rfl, rfl⟩
    rw [getSheBang, Reader.read, skipBlanks_stop hc]
    exact htest

/-- For every content without NUL, `getSheBang` keeps its promise exactly when the file is
readable. -/
theorem getSheBang_iff (content : List Byte) (c0 : Byte) (h : IsStr content) :
    Parses content c0 ↔ Readable content c0 := by
  by_cases hempty : content = []
  · subst hempty
    rw [Readable, if_pos rfl]
    exact parses_empty c0
  · rw [Readable, if_neg hempty]
    have hsplit : content.takeWhile isBlank ++ body content = content := List.takeWhile_append_dropWhile
    have hblanks : ∀ c ∈ content.takeWhile isBlank, isBlank c = true := fun c hc => List.mem_takeWhile_imp hc
    cases hbody : body content with
    | nil =>
      refine ⟨?_, fun hread => absurd rfl hread.1⟩
      rintro ⟨fuel, r, hr, -⟩
      rw [getSheBang_blanks (body_nil_iff.mp hbody) (fun hnil => absurd hnil hempty)] at hr
      cases hr
    | cons b rest =>
      have hb : isBlank b = false := by
        have hhead := List.head?_dropWhile_not isBlank content
        rw [body] at hbody
        rw [hbody] at hhead
        exact hhead
      have hs : IsStr rest := by
        intro d hd
        refine h d ?_
        rw [← hsplit, hbody]
        exact List.mem_append_right _ (List.mem_cons_of_mem b hd)
      have hparses : Parses (content.takeWhile isBlank ++ b :: rest) c0 ↔ TestParses _ b rest :=
        parses_iff hblanks hb c0
      rw [hbody] at hsplit
      rw [hsplit] at hparses
      rw [hparses, testParses_iff _ hs]
      exact ⟨fun hread => ⟨List.cons_ne_nil b rest, hread⟩, fun hread => hread.2⟩

/-- A script of the shell. -/
theorem getSheBang_iff_shell : Parses [10, 35, 33, 98, 47, 115, 104, 10, 97] 0 :=
  (getSheBang_iff [10, 35, 33, 98, 47, 115, 104, 10, 97] 0 (by decide)).mpr (by decide)

/-- A file of one newline is read for ever. -/
theorem newline_never_returns : (∀ fuel c0, getSheBang fuel [10] c0 = none) ∧ ¬ Parses [10] 0 := by
  have hnone : ∀ fuel c0, getSheBang fuel [10] c0 = none := by
    intro fuel c0
    refine getSheBang_blanks (fun c hc => ?_) (fun hnil => absurd hnil (List.cons_ne_nil 10 [])) fuel
    rw [List.mem_singleton.mp hc]
    decide
  refine ⟨hnone, ?_⟩
  rintro ⟨fuel, r, hr, -⟩
  rw [hnone] at hr
  cases hr

end SheBang
