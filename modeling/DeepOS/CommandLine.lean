import DeepOS.Tokens

/-!
# The shell's command line

`dsh` trims a line in place, takes off one `&` and cuts the rest into `argv`. The array
is that of the caller, and entries behind the last one stored keep what they held.
-/
namespace CommandLine

open CString PathSearch Tokens

/-! ## `trim` -/

def isspace (a : Byte) : Bool := a = 32 || a = 9 || a = 10

def endLoop (str : List Byte) : Nat → Nat
  | 0 => 0
  | e + 1 => if isspace (str.getD (e + 1) 0) then endLoop str e else e + 1

def trim (str : List Byte) : List Byte :=
  let str := str.dropWhile isspace
  if str = [] then str else str.take (endLoop str (str.length - 1) + 1)

/-! ## `dsh` -/

def blanks : List Byte := [32, 9, 10]

/-- The loop `while( argc++ < 64 )`, with the turns that are left. -/
def argLoop : Nat → Nat → (Nat → Option Nat) → Tok → Nat × (Nat → Option Nat) × Tok
  | 0, argc, argv, k => (argc + 1, argv, k)
  | n + 1, argc, argv, k =>
    let r := libcStrtok none blanks k
    let argv := Function.update argv (argc + 1) r.1
    if r.1 = none then (argc + 1, argv, r.2) else argLoop n (argc + 1) argv r.2

/-- What `dsh` has when it looks at `argv[0]`. The pointers in `argv` are positions in
the command. -/
structure Command where
  bg : Bool
  argc : Nat
  argv : Nat → Option Nat
  command : List Byte

/-- The line is not empty after `trim`. -/
def dsh (line : List Byte) (argv : Nat → Option Nat) (k : Tok) : Command :=
  let command := trim line
  let bg := decide (command.getD (command.length - 1) 0 = 38)
  let command := if bg then command.take (command.length - 1) else command
  let first := libcStrtok (some command) blanks k
  let r := argLoop 64 0 (Function.update argv 0 first.1) first.2
  ⟨bg, r.1, r.2.1, r.2.2.s⟩

/-! ## The line as a list of words -/

/-- Without the blanks at both ends. -/
def trimmed (line : List Byte) : List Byte := (line.dropWhile isspace).rdropWhile isspace

def withoutAmp (t : List Byte) : List Byte := if t.getLast? = some 38 then t.dropLast else t

def words (s : List Byte) : List (List Byte) := (s.splitOnP isspace).filter (· ≠ [])

structure Parses (line : List Byte) (c : Command) : Prop where
  bg : c.bg = decide ((trimmed line).getLast? = some 38)
  argc : c.argc = (words (withoutAmp (trimmed line))).length
  argv : ∀ i (hi : i < (words (withoutAmp (trimmed line))).length), ∃ p, c.argv i = some p ∧
    strAt c.command p = (words (withoutAmp (trimmed line))).get ⟨i, hi⟩
  command : 1 ≤ c.argc ∧ c.argv 0 ≠ none
  last : c.argv c.argc = none

theorem isspace_iff (a : Byte) : isspace a = true ↔ a ∈ blanks := by
  simp only [isspace, blanks, Bool.or_eq_true, decide_eq_true_eq, List.mem_cons, List.not_mem_nil, or_false,
    or_assoc]

theorem not_isspace (a : Byte) : isspace a = false ↔ a ∉ blanks := by
  rw [← isspace_iff, Bool.not_eq_true]

/-- The loop runs back over the blanks at the end. -/
theorem take_endLoop (t : List Byte) (c : Byte) (hc : isspace c = false) (n : Nat) (hn : n ≤ t.length) :
    (c :: t).take (endLoop (c :: t) n + 1) = ((c :: t).take (n + 1)).rdropWhile isspace := by
  induction n with
  | zero => simp [endLoop, List.rdropWhile_singleton, hc]
  | succ n ih =>
    have hlt : n < t.length := hn
    have hsplit : (c :: t).take (n + 1 + 1) = (c :: t).take (n + 1) ++ [t[n]] := by
      rw [List.take_succ_cons, List.take_succ_cons, List.take_add_one, List.getElem?_eq_getElem hlt]
      rfl
    have hat : (c :: t).getD (n + 1) 0 = t[n] := by
      simp [List.getD, List.getElem?_eq_getElem hlt]
    rw [endLoop, hat, hsplit]
    by_cases hb : isspace t[n] = true
    · rw [if_pos hb, List.rdropWhile_concat_pos _ _ _ hb]
      exact ih hlt.le
    · rw [if_neg hb, List.rdropWhile_concat_neg _ _ _ hb, hsplit]

theorem trim_eq (line : List Byte) : trim line = trimmed line := by
  rw [trim, trimmed]
  cases h : line.dropWhile isspace with
  | nil => rfl
  | cons c t =>
    have hc : isspace c = false := by
      have hhead := List.head?_dropWhile_not isspace line
      rw [h, List.head?_cons] at hhead
      exact hhead
    rw [if_neg (List.cons_ne_nil c t), List.length_cons, Nat.add_sub_cancel, take_endLoop t c hc _ le_rfl,
      List.take_of_length_le (by simp)]

/-! ## Words and tokens -/

theorem splitOnP_head (s : List Byte) : ∃ rest, s.splitOnP isspace = s.takeWhile (· ∉ blanks) :: rest ∧
    rest.filter (· ≠ []) = words (s.dropWhile (· ∉ blanks)) := by
  induction s with
  | nil => exact ⟨[], rfl, rfl⟩
  | cons c s ih =>
    by_cases hc : c ∈ blanks
    · have hp : isspace c = true := (isspace_iff c).mpr hc
      have hsplit : (c :: s).splitOnP isspace = [] :: s.splitOnP isspace := by
        rw [List.splitOnP_cons_eq_if_modifyHead, if_pos hp]
      refine ⟨s.splitOnP isspace, ?_, ?_⟩
      · rw [hsplit, List.takeWhile_cons_of_neg (by simpa using hc)]
      · rw [List.dropWhile_cons_of_neg (by simpa using hc), words, hsplit]
        rfl
    · have hp : ¬ isspace c = true := fun h => hc ((isspace_iff c).mp h)
      obtain ⟨rest, hsplit, hrest⟩ := ih
      refine ⟨rest, ?_, ?_⟩
      · rw [List.splitOnP_cons_eq_if_modifyHead, if_neg hp, hsplit, List.takeWhile_cons_of_pos (by simpa using hc)]
        rfl
      · rw [List.dropWhile_cons_of_pos (by simpa using hc), hrest]

theorem words_blank {c : Byte} (hc : c ∈ blanks) (s : List Byte) : words (c :: s) = words s := by
  rw [words, List.splitOnP_cons_eq_if_modifyHead, if_pos ((isspace_iff c).mpr hc), words]
  rfl

theorem words_char {c : Byte} (hc : c ∉ blanks) (s : List Byte) :
    words (c :: s) = (c :: s.takeWhile (· ∉ blanks)) :: words (s.dropWhile (· ∉ blanks)) := by
  obtain ⟨rest, hsplit, hrest⟩ := splitOnP_head s
  rw [words, List.splitOnP_cons_eq_if_modifyHead, if_neg fun h => hc ((isspace_iff c).mp h), hsplit, ← hrest]
  rfl

/-- The runs that are listed are the words, from the next one on. -/
theorem runs_words (whole : List Byte) (s : List Byte) : ∀ i, whole.drop i = s →
    (runStarts blanks true i s).map (run blanks whole) = words s ∧
      (runStarts blanks false i s).map (run blanks whole) = words (s.dropWhile (· ∉ blanks)) := by
  induction s with
  | nil => exact fun _ _ => ⟨rfl, rfl⟩
  | cons c s ih =>
    intro i hi
    have hnext : whole.drop (i + 1) = s := by
      rw [← List.drop_drop, hi]
      rfl
    obtain ⟨hfresh, hin⟩ := ih (i + 1) hnext
    by_cases hc : c ∈ blanks
    · rw [runStarts, runStarts, if_pos hc, if_pos hc, words_blank hc,
        List.dropWhile_cons_of_neg (by simpa using hc), words_blank hc]
      exact ⟨hfresh, hfresh⟩
    · rw [runStarts, runStarts, if_neg hc, if_neg hc, if_pos rfl, if_neg Bool.false_ne_true, words_char hc,
        List.dropWhile_cons_of_pos (by simpa using hc), List.map_cons, hin]
      refine ⟨?_, rfl⟩
      rw [run, hi, List.takeWhile_cons_of_pos (by simpa using hc)]

theorem starts_words (s : List Byte) : (starts blanks s).map (run blanks s) = words s :=
  (runs_words s s 0 rfl).1

/-! ## The loop -/

variable {s : List Byte} {k : Tok}

/-- The next call after `j + 1` of them. -/
theorem next_call (s : List Byte) (k : Tok) (j : Nat) : calls libcStrtok s blanks k (j + 1) =
    ((calls libcStrtok s blanks k j).1 ++ [(libcStrtok none blanks (calls libcStrtok s blanks k j).2).1],
      (libcStrtok none blanks (calls libcStrtok s blanks k j).2).2) := rfl

/-- The call returns the next token. -/
theorem next_token (hs : IsStr s) (h13 : s.getD 0 0 ≠ 13) (k : Tok) (j : Nat) :
    (libcStrtok none blanks (calls libcStrtok s blanks k j).2).1 = (starts blanks s)[j + 1]? := by
  have hbefore := (calls_scan (d := blanks) hs h13 k j).results
  have hafter := (calls_scan (d := blanks) hs h13 k (j + 1)).results
  change (calls libcStrtok s blanks k j).1 = _ at hbefore
  change (calls libcStrtok s blanks k (j + 1)).1 = _ at hafter
  rw [next_call, hbefore, List.range_succ (n := j + 1), List.map_append] at hafter
  exact List.singleton_inj.mp (List.append_cancel_left hafter)

/-- Where the loop stops: behind the last token, or when its bound is reached. -/
def lastArgc (m : Nat) : Nat := if max m 1 ≤ 64 then max m 1 else 65

theorem argLoop_spec (hs : IsStr s) (h13 : s.getD 0 0 ≠ 13) (k : Tok) (n : Nat) :
    ∀ {j : Nat} {argv : Nat → Option Nat}, n + j = 64 → j < max (starts blanks s).length 1 → ∃ q argv',
      argLoop n j argv (calls libcStrtok s blanks k j).2 =
        (lastArgc (starts blanks s).length, argv', (calls libcStrtok s blanks k q).2) ∧
      (∀ i, argv' i = if j < i ∧ i ≤ lastArgc (starts blanks s).length ∧ i ≤ 64 then (starts blanks s)[i]?
        else argv i) ∧ j ≤ q ∧ ∀ i, j < i → i ≤ lastArgc (starts blanks s).length → i ≤ 64 → i ≤ q := by
  induction n with
  | zero =>
    intro j argv hj hlt
    obtain rfl : j = 64 := by omega
    have hlast : lastArgc (starts blanks s).length = 65 := if_neg (by omega)
    refine ⟨64, argv, ?_, fun i => ?_, le_rfl, fun i _ _ hi => hi⟩
    · rw [argLoop, hlast]
    · rw [if_neg (by omega)]
  | succ n ih =>
    intro j argv hj hlt
    have htoken := next_token hs h13 k j
    rw [argLoop, htoken]
    cases hnext : (starts blanks s)[j + 1]? with
    | none =>
      have hlen : (starts blanks s).length ≤ j + 1 := List.getElem?_eq_none_iff.mp hnext
      have hmax : max (starts blanks s).length 1 = j + 1 := by omega
      have hlast : lastArgc (starts blanks s).length = j + 1 := by rw [lastArgc, hmax, if_pos (by omega)]
      refine ⟨j + 1, Function.update argv (j + 1) none, ?_, fun i => ?_, Nat.le_succ j, fun i hi hle _ => ?_⟩
      · rw [if_pos rfl, hlast, next_call]
      · rw [hlast]
        by_cases hi : i = j + 1
        · subst hi
          rw [Function.update_self, if_pos (by omega), hnext]
        · rw [Function.update_of_ne hi, if_neg (by omega)]
      · omega
    | some p =>
      have hlen : j + 1 < (starts blanks s).length := (List.getElem?_eq_some_iff.mp hnext).1
      have hlast : j + 1 < lastArgc (starts blanks s).length := by
        rw [lastArgc]
        split
        · omega
        · omega
      obtain ⟨q, argv', hloop, hargv, hle, hq⟩ := @ih (j + 1) (Function.update argv (j + 1) (some p))
        (by omega) (by omega)
      refine ⟨q, argv', ?_, fun i => ?_, by omega, fun i hi hlast' hbound => ?_⟩
      · rw [if_neg (Option.some_ne_none p), ← hloop, next_call]
      · rw [hargv]
        by_cases hi : i = j + 1
        · subst hi
          rw [if_neg (by omega), if_pos (by omega), Function.update_self, hnext]
        · rw [Function.update_of_ne hi]
          exact if_congr (by omega) rfl rfl
      · by_cases hi' : i = j + 1
        · omega
        · exact hq i (by omega) hlast' hbound

/-- `argv[0]` is not stored again. -/
theorem argLoop_zero (n : Nat) : ∀ (argc : Nat) (argv : Nat → Option Nat) (k : Tok),
    (argLoop n argc argv k).2.1 0 = argv 0 := by
  induction n with
  | zero => exact fun _ _ _ => rfl
  | succ n ih =>
    intro argc argv k
    rw [argLoop]
    have hkeep := Function.update_of_ne (Nat.succ_ne_zero argc).symm (libcStrtok none blanks k).1 argv
    split
    · exact hkeep
    · rw [ih]
      exact hkeep

/-! ## The command -/

/-- The test for `&`. -/
theorem ends_amp (t : List Byte) : decide (t.getD (t.length - 1) 0 = 38) = decide (t.getLast? = some 38) := by
  rw [decide_eq_decide, List.getD, List.getLast?_eq_getElem?]
  cases t[t.length - 1]? with
  | none => exact ⟨fun h => absurd h (by decide), fun h => by cases h⟩
  | some c => exact ⟨congrArg some, Option.some.inj⟩

/-- What is left of the line behind it. -/
theorem take_amp (t : List Byte) :
    (if decide (t.getLast? = some 38) = true then t.take (t.length - 1) else t) = withoutAmp t := by
  rw [withoutAmp, List.dropLast_eq_take]
  exact if_congr decide_eq_true_iff rfl rfl

theorem head_withoutAmp {t : List Byte} (h : t ≠ [38]) : (withoutAmp t).head? = t.head? := by
  rw [withoutAmp]
  split
  · rename_i hlast
    cases t with
    | nil => rfl
    | cons c t =>
      cases t with
      | nil =>
        obtain rfl := Option.some.inj hlast
        exact absurd rfl h
      | cons c' t => rfl
  · rfl

/-- A line that is not empty begins with a character. -/
theorem trimmed_head {line : List Byte} (h : trimmed line ≠ []) : ∃ c, (trimmed line).head? = some c ∧ c ∉ blanks := by
  obtain ⟨c, t, ht⟩ := List.exists_cons_of_ne_nil h
  obtain ⟨rest, hrest⟩ := List.rdropWhile_prefix isspace (line.dropWhile isspace)
  rw [← trimmed, ht] at hrest
  have hhead := List.head?_dropWhile_not isspace line
  rw [← hrest, List.cons_append, List.head?_cons] at hhead
  exact ⟨c, by rw [ht]; rfl, (not_isspace c).mp hhead⟩

theorem trimmed_isStr {line : List Byte} (h : IsStr line) : IsStr (withoutAmp (trimmed line)) := by
  have htrim : IsStr (trimmed line) := fun c hc =>
    h c ((List.dropWhile_suffix isspace).subset ((List.rdropWhile_prefix isspace (line.dropWhile isspace)).subset hc))
  rw [withoutAmp]
  split
  · exact fun c hc => htrim c (List.dropLast_subset _ hc)
  · exact htrim

theorem words_ne_nil {c : Byte} {s : List Byte} (h : s.head? = some c) (hc : c ∉ blanks) : words s ≠ [] := by
  cases s with
  | nil => cases h
  | cons c' s =>
    obtain rfl := Option.some.inj h
    rw [words_char hc]
    exact List.cons_ne_nil _ _

/-- The command, by its parts. -/
theorem dsh_eq (line : List Byte) (argv : Nat → Option Nat) (k : Tok) :
    dsh line argv k =
      let first := libcStrtok (some (withoutAmp (trimmed line))) blanks k
      let r := argLoop 64 0 (Function.update argv 0 first.1) first.2
      ⟨decide ((trimmed line).getLast? = some 38), r.1, r.2.1, r.2.2.s⟩ := by
  simp only [dsh, trim_eq, ends_amp, take_amp]

/-- Not the `&` alone and not a carriage return at the start, and no more words than
the loop takes. -/
structure Readable (line : List Byte) (argv : Nat → Option Nat) : Prop where
  amp : trimmed line ≠ [38]
  cr : (trimmed line).head? ≠ some 13
  fits : (words (withoutAmp (trimmed line))).length ≤ 64 ∨
    (words (withoutAmp (trimmed line))).length = 65 ∧ argv 65 = none

theorem head_getD {s : List Byte} {c : Byte} (hc : c ≠ 0) : s.getD 0 0 = c ↔ s.head? = some c := by
  cases s with
  | nil => exact ⟨fun h => absurd h.symm hc, fun h => by cases h⟩
  | cons c' s => exact ⟨congrArg some, Option.some.inj⟩

/-- All of `argv`, and the tokens in the command that is left. -/
theorem argLoop_all (hs : IsStr s) (h13 : s.getD 0 0 ≠ 13) (argv : Nat → Option Nat) (k : Tok) : ∃ argv' k',
    argLoop 64 0 (Function.update argv 0 (libcStrtok (some s) blanks k).1) (libcStrtok (some s) blanks k).2 =
      (lastArgc (starts blanks s).length, argv', k') ∧
    (∀ i, argv' i = if i ≤ lastArgc (starts blanks s).length ∧ i ≤ 64 then (starts blanks s)[i]? else argv i) ∧
    ∀ i p, i ≤ lastArgc (starts blanks s).length → i ≤ 64 → (starts blanks s)[i]? = some p →
      strAt k'.s p = run blanks s p := by
  have hfirst : (libcStrtok (some s) blanks k).1 = (starts blanks s)[0]? :=
    List.singleton_inj.mp (calls_scan (d := blanks) hs h13 k 0).results
  obtain ⟨q, argv', hloop, hargv, -, hq⟩ := @argLoop_spec s hs h13 k 64 0
    (Function.update argv 0 (libcStrtok (some s) blanks k).1) (by omega) (by omega)
  refine ⟨argv', (calls libcStrtok s blanks k q).2, hloop, fun i => ?_, fun i p hi hle hp => ?_⟩
  · rw [hargv]
    cases i with
    | zero => rw [if_neg (by omega), if_pos (by omega), Function.update_self, hfirst]
    | succ i =>
      rw [Function.update_of_ne (Nat.succ_ne_zero i)]
      exact if_congr (by omega) rfl rfl
  · have hreach : i < q + 1 := by
      cases i with
      | zero => exact Nat.succ_pos q
      | succ i => exact Nat.lt_succ_of_le (hq (i + 1) (Nat.succ_pos i) hi hle)
    have hmem : some p ∈ (calls strtokAt s blanks k q).1 := by
      rw [(calls_scan (d := blanks) hs h13 k q).results]
      exact List.mem_map.mpr ⟨i, List.mem_range.mpr hreach, hp⟩
    exact calls_read hs h13 hmem

/-- For every line that is not empty after `trim`, and whatever `argv` held before, the
shell parses the line exactly when it is readable. -/
theorem dsh_parses_iff (line : List Byte) (argv : Nat → Option Nat) (k : Tok) (hline : IsStr line)
    (hne : trim line ≠ []) : Parses line (dsh line argv k) ↔ Readable line argv := by
  rw [trim_eq] at hne
  obtain ⟨c, hc, hblank⟩ := trimmed_head hne
  have hs := trimmed_isStr hline
  rw [dsh_eq]
  by_cases h13 : (withoutAmp (trimmed line)).getD 0 0 = 13
  · -- the first call returns `NULL`
    constructor
    · intro hparse
      have hnull : libcStrtok (some (withoutAmp (trimmed line))) blanks k =
          (none, ⟨withoutAmp (trimmed line), 0⟩) := if_pos h13
      have hfirst := hparse.command.2
      simp only [hnull, argLoop_zero] at hfirst
      exact absurd (Function.update_self ..) hfirst
    · intro hread
      have hhead := (head_getD (by decide)).mp h13
      rw [head_withoutAmp hread.amp] at hhead
      exact absurd hhead hread.cr
  have hlength : (starts blanks (withoutAmp (trimmed line))).length = (words (withoutAmp (trimmed line))).length := by
    rw [← starts_words, List.length_map]
  obtain ⟨argv', k', hloop, hargv, hread⟩ := argLoop_all hs h13 argv k
  simp only [hloop]
  rw [hlength] at hargv hread ⊢
  constructor
  · intro hparse
    have hargc : lastArgc (words (withoutAmp (trimmed line))).length = (words (withoutAmp (trimmed line))).length :=
      hparse.argc
    have hlast : argv' (lastArgc (words (withoutAmp (trimmed line))).length) = none := hparse.last
    have hamp : trimmed line ≠ [38] := by
      intro h
      rw [h] at hargc
      exact absurd hargc (by decide)
    refine ⟨hamp, fun h => ?_, ?_⟩
    · rw [← head_withoutAmp hamp] at h
      exact h13 ((head_getD (by decide)).mpr h)
    · rw [hargv, hargc] at hlast
      by_cases hle : (words (withoutAmp (trimmed line))).length ≤ 64
      · exact Or.inl hle
      · have hfull : (words (withoutAmp (trimmed line))).length = 65 := by
          rw [← hargc, lastArgc, if_neg (by omega)]
        rw [if_neg (by omega), hfull] at hlast
        exact Or.inr ⟨hfull, hlast⟩
  · rintro ⟨hamp, hcr, hfits⟩
    have hpos : words (withoutAmp (trimmed line)) ≠ [] := words_ne_nil ((head_withoutAmp hamp).trans hc) hblank
    have hlen := List.length_pos_of_ne_nil hpos
    have hargc : lastArgc (words (withoutAmp (trimmed line))).length = (words (withoutAmp (trimmed line))).length := by
      rw [lastArgc]
      split
      · omega
      · omega
    rw [hargc] at hargv hread ⊢
    have hsome : ∀ i, i < (words (withoutAmp (trimmed line))).length → ∃ p,
        (starts blanks (withoutAmp (trimmed line)))[i]? = some p ∧ argv' i = some p := by
      intro i hi
      have hget := List.getElem?_eq_getElem (hlength ▸ hi : i < (starts blanks (withoutAmp (trimmed line))).length)
      exact ⟨_, hget, by rw [hargv, if_pos (by omega), hget]⟩
    refine ⟨rfl, rfl, fun i hi => ?_, ⟨hlen, ?_⟩, ?_⟩
    · obtain ⟨p, hp, hp'⟩ := hsome i hi
      refine ⟨p, hp', ?_⟩
      have hword : (words (withoutAmp (trimmed line)))[i]? = some (run blanks (withoutAmp (trimmed line)) p) := by
        rw [← starts_words, List.getElem?_map, hp]
        rfl
      rw [hread i p hi.le (by omega) hp]
      exact (Option.some.inj (hword.symm.trans (List.getElem?_eq_getElem hi)))
    · obtain ⟨p, -, hp⟩ := hsome 0 hlen
      dsimp only
      rw [hp]
      exact Option.some_ne_none p
    · dsimp only
      rw [hargv]
      split
      · rw [← hlength]
        exact List.getElem?_eq_none le_rfl
      · rcases hfits with hle | ⟨hfull, hnone⟩
        · omega
        · rw [hfull]
          exact hnone

/-- `ls &` is readable. -/
theorem ls_in_background : Parses [108, 115, 32, 38] (dsh [108, 115, 32, 38] (fun _ => none) ⟨[], 0⟩) :=
  (dsh_parses_iff [108, 115, 32, 38] (fun _ => none) ⟨[], 0⟩ (by decide) (by decide)).mpr
    ⟨by decide, by decide, Or.inl (by decide)⟩

/-- The line `&` leaves an empty command: `argc` is 1 and `argv[0]` is `NULL`. -/
theorem lone_ampersand : (dsh [38] (fun _ => none) ⟨[], 0⟩).argc = 1 ∧
    (dsh [38] (fun _ => none) ⟨[], 0⟩).argv 0 = none ∧ ¬ ∀ line argv k, IsStr line → line.length ≤ 255 →
      trim line ≠ [] → Parses line (dsh line argv k) := by
  have hargc : (dsh [38] (fun _ => none) ⟨[], 0⟩).argc = 1 := by decide
  have hnull : (dsh [38] (fun _ => none) ⟨[], 0⟩).argv 0 = none := by decide
  refine ⟨hargc, hnull, fun h => ?_⟩
  exact (h [38] (fun _ => none) ⟨[], 0⟩ (by decide) (by decide) (by decide)).command.2 hnull

end CommandLine
