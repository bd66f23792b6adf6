import DeepOS.PathSearch

/-!
# The tokens of a string

`strtok` returns pointers into the string that it cuts up. The kernel and the C library
have one copy each of the same text. The tokens of a string are its runs of characters
that are not delimiters, known by where they start. No string in memory is long enough
for a position to leave the range of `int`.
-/
namespace Tokens

open CString PathSearch

/-! ## The two copies -/

/-- A call of `strtok`, with the position of the token that it returns. -/
def strtokAt (str : Option (List Byte)) (comp : List Byte) (k : Tok) : Option Nat × Tok :=
  match str with
  | some str => if str.getD 0 0 = 13 then (none, ⟨str, 0⟩) else strtokLoop comp (str.length + 1) 0 ⟨str, 0⟩
  | none => strtokLoop comp (k.s.length + 1) k.pos k

/-- `strtok` of `sys/string.c`. -/
def sysStrtok : Option (List Byte) → List Byte → Tok → Option Nat × Tok := strtokAt

/-- `strtok` of `libc/string.c`. -/
def libcStrtok : Option (List Byte) → List Byte → Tok → Option Nat × Tok := strtokAt

/-- The token is the string at the position. -/
theorem strtok_eq (str : Option (List Byte)) (comp : List Byte) (k : Tok) :
    strtok str comp k = token (strtokAt str comp k) := by
  cases str with
  | none => rfl
  | some str =>
    rw [strtok, strtokAt]
    split
    · rfl
    · rfl

/-- The pointers that the first call and `n` more return, and the state behind them. -/
def calls (strtok : Option (List Byte) → List Byte → Tok → Option Nat × Tok) (s d : List Byte) (k : Tok) :
    Nat → List (Option Nat) × Tok
  | 0 => let r := strtok (some s) d k; ([r.1], r.2)
  | n + 1 =>
    let before := calls strtok s d k n
    let r := strtok none d before.2
    (before.1 ++ [r.1], r.2)

/-! ## Runs of characters -/

def RunStart (d s : List Byte) (i : Nat) : Prop :=
  ∃ c, s[i]? = some c ∧ c ∉ d ∧ ∀ j, i = j + 1 → ∃ c', s[j]? = some c' ∧ c' ∈ d

def run (d s : List Byte) (i : Nat) : List Byte := (s.drop i).takeWhile (· ∉ d)

/-- The starts of the runs in `s`, which stands at `i`. Unless `fresh`, it begins within
a run. -/
def runStarts (d : List Byte) : Bool → Nat → List Byte → List Nat
  | _, _, [] => []
  | fresh, i, c :: s =>
    if c ∈ d then runStarts d true (i + 1) s
    else if fresh then i :: runStarts d false (i + 1) s else runStarts d false (i + 1) s

theorem runStarts_ge (d s : List Byte) (fresh : Bool) (i : Nat) : ∀ p ∈ runStarts d fresh i s, i ≤ p := by
  induction s generalizing fresh i with
  | nil => exact fun p hp => absurd hp List.not_mem_nil
  | cons c s ih =>
    intro p hp
    rw [runStarts] at hp
    have hrest : ∀ fresh, p ∈ runStarts d fresh (i + 1) s → i ≤ p := fun fresh h => Nat.le_of_succ_le (ih fresh (i + 1) p h)
    split at hp
    · exact hrest true hp
    · split at hp
      · rcases List.mem_cons.mp hp with rfl | hp
        · exact le_rfl
        · exact hrest false hp
      · exact hrest false hp

theorem runStarts_pairwise (d s : List Byte) (fresh : Bool) (i : Nat) : (runStarts d fresh i s).Pairwise (· < ·) := by
  induction s generalizing fresh i with
  | nil => exact List.Pairwise.nil
  | cons c s ih =>
    rw [runStarts]
    split
    · exact ih true (i + 1)
    · split
      · refine List.pairwise_cons.mpr ⟨fun p hp => ?_, ih false (i + 1)⟩
        exact runStarts_ge d s false (i + 1) p hp
      · exact ih false (i + 1)

/-- `i + p` is listed when a run starts at `p`, or at the beginning of a fresh string. -/
theorem mem_runStarts (d s : List Byte) (fresh : Bool) (i p : Nat) : i + p ∈ runStarts d fresh i s ↔
    RunStart d s p ∧ (p = 0 → fresh = true) := by
  induction s generalizing fresh i p with
  | nil => exact ⟨fun h => absurd h List.not_mem_nil, fun ⟨⟨c, hc, _⟩, _⟩ => by cases hc⟩
  | cons c s ih =>
    have hbelow : ∀ fresh, i ∉ runStarts d fresh (i + 1) s := fun fresh h => by
      have := runStarts_ge d s fresh (i + 1) i h
      omega
    cases p with
    | zero =>
      rw [Nat.add_zero, runStarts]
      by_cases hc : c ∈ d
      · rw [if_pos hc]
        refine ⟨fun h => absurd h (hbelow true), ?_⟩
        rintro ⟨⟨c', hc', hout, -⟩, -⟩
        obtain rfl := Option.some.inj hc'
        exact absurd hc hout
      · rw [if_neg hc]
        have hstart : RunStart d (c :: s) 0 := ⟨c, rfl, hc, fun j hj => by cases hj⟩
        cases fresh with
        | true => exact ⟨fun _ => ⟨hstart, fun _ => rfl⟩, fun _ => List.mem_cons_self ..⟩
        | false => exact ⟨fun h => absurd h (hbelow false), fun h => by cases h.2 rfl⟩
    | succ p =>
      have hstart : RunStart d (c :: s) (p + 1) ↔ RunStart d s p ∧ (p = 0 → c ∈ d) := by
        constructor
        · rintro ⟨c', hc', hout, hbefore⟩
          refine ⟨⟨c', hc', hout, fun j hj => ?_⟩, fun hp => ?_⟩
          · obtain ⟨c'', hc'', hin⟩ := hbefore p rfl
            subst hj
            exact ⟨c'', hc'', hin⟩
          · obtain ⟨c'', hc'', hin⟩ := hbefore p rfl
            subst hp
            obtain rfl := Option.some.inj hc''
            exact hin
        · rintro ⟨⟨c', hc', hout, hbefore⟩, hfirst⟩
          refine ⟨c', hc', hout, fun j hj => ?_⟩
          obtain rfl := Nat.succ.inj hj
          cases p with
          | zero => exact ⟨c, rfl, hfirst rfl⟩
          | succ j => exact hbefore j rfl
      have hne : p + 1 = 0 ↔ False := iff_false_intro p.succ_ne_zero
      rw [hstart, show i + (p + 1) = i + 1 + p by omega, runStarts, hne, false_imp_iff, and_true]
      by_cases hc : c ∈ d
      · rw [if_pos hc, ih true]
        exact ⟨fun h => ⟨h.1, fun _ => hc⟩, fun h => ⟨h.1, fun _ => rfl⟩⟩
      · rw [if_neg hc]
        have hlist : i + 1 + p ∈ (if fresh then i :: runStarts d false (i + 1) s else runStarts d false (i + 1) s) ↔
            i + 1 + p ∈ runStarts d false (i + 1) s := by
          cases fresh with
          | true =>
            rw [if_pos rfl, List.mem_cons]
            exact ⟨fun h => h.resolve_left (by omega), Or.inr⟩
          | false => exact Iff.rfl
        rw [hlist, ih false]
        exact ⟨fun h => ⟨h.1, fun hp => by cases h.2 hp⟩, fun h => ⟨h.1, fun hp => absurd (h.2 hp) hc⟩⟩

def starts (d s : List Byte) : List Nat := runStarts d true 0 s

theorem mem_starts (d s : List Byte) (i : Nat) : i ∈ starts d s ↔ RunStart d s i := by
  have h := mem_runStarts d s true 0 i
  rw [Nat.zero_add] at h
  rw [starts, h]
  exact ⟨fun h => h.1, fun h => ⟨h, fun _ => rfl⟩⟩

/-! ## The state of the scan -/

/-- The string with its delimiters before `n` overwritten. -/
def cutTo (d : List Byte) : Nat → List Byte → List Byte
  | 0, s => s
  | _ + 1, [] => []
  | n + 1, c :: s => (if c ∈ d then 0 else c) :: cutTo d n s

def scanned (d s : List Byte) (pos : Nat) : Tok := ⟨cutTo d pos s, pos⟩

variable {d s : List Byte}

theorem cutTo_nil (d : List Byte) (n : Nat) : cutTo d n [] = [] := by
  cases n with
  | zero => rfl
  | succ n => rfl

theorem cutTo_length (d : List Byte) (n : Nat) (s : List Byte) : (cutTo d n s).length = s.length := by
  induction n generalizing s with
  | zero => rfl
  | succ n ih =>
    cases s with
    | nil => rfl
    | cons c s => rw [cutTo, List.length_cons, List.length_cons, ih]

/-- What is read at or behind the scan. -/
theorem cutTo_getD (d : List Byte) (n : Nat) (s : List Byte) : (cutTo d n s).getD n 0 = s.getD n 0 := by
  induction n generalizing s with
  | zero => rfl
  | succ n ih =>
    cases s with
    | nil => rfl
    | cons c s => exact ih s

/-- The character before which the scan stands is overwritten when it is a delimiter. -/
theorem cutTo_succ {n : Nat} {c : Byte} (h : s[n]? = some c) :
    cutTo d (n + 1) s = if c ∈ d then (cutTo d n s).set n 0 else cutTo d n s := by
  induction n generalizing s with
  | zero =>
    cases s with
    | nil => cases h
    | cons c' s =>
      obtain rfl := Option.some.inj h
      simp only [cutTo, List.set_cons_zero]
      split
      · rfl
      · rfl
  | succ n ih =>
    cases s with
    | nil => cases h
    | cons c' s =>
      rw [cutTo, ih h, cutTo]
      by_cases hc : c ∈ d
      · rw [if_pos hc, if_pos hc, List.set_cons_succ]
      · rw [if_neg hc, if_neg hc]

/-- Characters that are not delimiters stay. -/
theorem cutTo_keep {n i : Nat} {c : Byte} (h : s[i]? = some c) (hc : c ∉ d) : (cutTo d n s).getD i 0 = c := by
  induction n generalizing s i with
  | zero => rw [cutTo, List.getD, h, Option.getD_some]
  | succ n ih =>
    cases s with
    | nil => cases h
    | cons c' s =>
      cases i with
      | zero =>
        obtain rfl := Option.some.inj h
        rw [cutTo, if_neg hc]
        rfl
      | succ i => exact ih h

/-- A run that the scan has passed, or that ends with the string, is read as it was. -/
theorem run_cutTo {n : Nat} (hs : IsStr s) (h : (s.takeWhile (· ∉ d)).length < n ∨ s.length ≤ n) :
    (cutTo d n s).takeWhile (· ≠ 0) = s.takeWhile (· ∉ d) := by
  induction n generalizing s with
  | zero =>
    obtain rfl : s = [] := List.eq_nil_of_length_eq_zero (by omega)
    rfl
  | succ n ih =>
    cases s with
    | nil => rfl
    | cons c s =>
      by_cases hc : c ∈ d
      · rw [cutTo, if_pos hc, List.takeWhile_cons_of_neg (by simp), List.takeWhile_cons_of_neg (by simpa using hc)]
      · have hc0 : c ≠ 0 := hs c (List.mem_cons_self ..)
        rw [List.takeWhile_cons_of_pos (by simpa using hc), List.length_cons, List.length_cons] at h
        rw [cutTo, if_neg hc, List.takeWhile_cons_of_pos (by simpa using hc0),
          List.takeWhile_cons_of_pos (by simpa using hc),
          ih (fun x hx => hs x (List.mem_cons_of_mem c hx)) (by omega)]

theorem cutTo_drop (d : List Byte) (n i : Nat) (s : List Byte) : (cutTo d n s).drop i = cutTo d (n - i) (s.drop i) := by
  induction i generalizing n s with
  | zero => rfl
  | succ i ih =>
    cases s with
    | nil => rw [cutTo_nil, List.drop_nil, cutTo_nil]
    | cons c s =>
      cases n with
      | zero =>
        rw [Nat.zero_sub]
        rfl
      | succ n => rw [cutTo, List.drop_succ_cons, ih, Nat.succ_sub_succ, List.drop_succ_cons]

theorem token_read {n i : Nat} (hs : IsStr s) (h : i + (run d s i).length < n ∨ s.length ≤ n) :
    strAt (cutTo d n s) i = run d s i := by
  rw [strAt, cutTo_drop, run]
  refine run_cutTo (fun c hc => hs c (List.mem_of_mem_drop hc)) ?_
  rw [run] at h
  rw [List.length_drop]
  omega

/-! ## One call -/

/-- The tokens that are still to be returned, when the scan stands at `pos` and has
read a run from `start` on. -/
def pending (d s : List Byte) (start pos : Nat) : List Nat :=
  if start < pos then start :: runStarts d false pos (s.drop pos) else runStarts d true pos (s.drop pos)

/-- What a call has done: it has returned the next token, and passed its end. -/
structure Returns (d s : List Byte) (pos : Nat) (ps : List Nat) (r : Option Nat × Tok) : Prop where
  result : r.1 = ps.head?
  state : ∃ q, r.2 = scanned d s q ∧ pos ≤ q ∧ q ≤ s.length ∧ runStarts d true q (s.drop q) = ps.tail ∧
    ∀ p, r.1 = some p → p + (run d s p).length < q ∨ q = s.length

theorem Returns.mono {pos pos' : Nat} {ps : List Nat} {r : Option Nat × Tok} (h : Returns d s pos' ps r)
    (hle : pos ≤ pos') : Returns d s pos ps r := by
  obtain ⟨hresult, q, hq, hpos, hrest⟩ := h
  exact ⟨hresult, q, hq, hle.trans hpos, hrest⟩

theorem takeWhile_length_le {l : List Byte} {n : Nat} {c : Byte} (h : l[n]? = some c) (hc : c ∈ d) :
    (l.takeWhile (· ∉ d)).length ≤ n := by
  induction n generalizing l with
  | zero =>
    cases l with
    | nil => cases h
    | cons c' l =>
      obtain rfl := Option.some.inj h
      rw [List.takeWhile_cons_of_neg (by simpa using hc)]
      exact le_rfl
  | succ n ih =>
    cases l with
    | nil => cases h
    | cons c' l =>
      rw [List.takeWhile_cons]
      split
      · exact Nat.succ_le_succ (ih h)
      · exact Nat.zero_le _

theorem strtokLoop_spec (hs : IsStr s) (n : Nat) : ∀ {start pos fuel : Nat}, pos + n = s.length → start ≤ pos →
    (start < pos → ∃ c, s[start]? = some c ∧ c ∉ d) → n < fuel →
    Returns d s pos (pending d s start pos) (strtokLoop d fuel start (scanned d s pos)) := by
  induction n with
  | zero =>
    intro start pos fuel hlen hle hrun hfuel
    obtain ⟨fuel, rfl⟩ : ∃ m, fuel = m + 1 := ⟨fuel - 1, by omega⟩
    have hend : (scanned d s pos).s.getD (scanned d s pos).pos 0 = 0 := by
      simp only [scanned]
      rw [cutTo_getD, List.getD_eq_default _ _ (by omega)]
    have hdrop : s.drop pos = [] := List.drop_eq_nil_of_le (by omega)
    rw [strtokLoop, if_neg (not_not.mpr hend), pending, hdrop]
    by_cases hlt : start < pos
    · obtain ⟨c, hc, hout⟩ := hrun hlt
      have hkept : (scanned d s pos).s.getD start 0 = c := cutTo_keep hc hout
      have hc0 : c ≠ 0 := hs c (List.mem_of_getElem? hc)
      have hneg : ¬ (scanned d s pos).s.getD start 0 = 0 := by
        rw [hkept]
        exact hc0
      rw [if_pos hlt, if_neg hneg]
      exact ⟨rfl, pos, rfl, le_rfl, by omega, by rw [hdrop]; rfl, fun p _ => Or.inr (by omega)⟩
    · obtain rfl : start = pos := by omega
      have hpos : (scanned d s start).s.getD start 0 = 0 := hend
      rw [if_pos hpos, if_neg hlt]
      exact ⟨rfl, start, rfl, le_rfl, by omega, by rw [hdrop]; rfl, fun p _ => Or.inr (by omega)⟩
  | succ n ih =>
    intro start pos fuel hlen hle hrun hfuel
    obtain ⟨fuel, rfl⟩ : ∃ m, fuel = m + 1 := ⟨fuel - 1, by omega⟩
    have hlt : pos < s.length := by omega
    have hget : s[pos]? = some s[pos] := List.getElem?_eq_getElem hlt
    generalize s[pos] = c at hget
    have hdrop : s.drop pos = c :: s.drop (pos + 1) := by
      rw [List.getElem?_eq_some_iff] at hget
      obtain ⟨_, rfl⟩ := hget
      exact List.drop_eq_getElem_cons hlt
    have hc0 : c ≠ 0 := hs c (List.mem_of_getElem? hget)
    have hat : (scanned d s pos).s.getD (scanned d s pos).pos 0 = c := by
      simp only [scanned]
      rw [cutTo_getD, List.getD, hget, Option.getD_some]
    rw [strtokLoop, if_pos (by rw [hat]; exact hc0), hat]
    by_cases hc : c ∈ d
    · -- the delimiter is overwritten
      have hset : (⟨(scanned d s pos).s.set (scanned d s pos).pos 0, (scanned d s pos).pos + 1⟩ : Tok) =
          scanned d s (pos + 1) := by
        rw [scanned, scanned, cutTo_succ hget, if_pos hc]
      rw [if_pos hc, hset]
      dsimp only
      by_cases hstart : start < pos
      · obtain ⟨c', hc', hout⟩ := hrun hstart
        have hkept : (scanned d s (pos + 1)).s.getD start 0 = c' := cutTo_keep hc' hout
        have hc0' : c' ≠ 0 := hs c' (List.mem_of_getElem? hc')
        rw [if_pos (by rw [hkept]; exact hc0'), pending, if_pos hstart, hdrop, runStarts, if_pos hc]
        refine ⟨rfl, pos + 1, rfl, by omega, by omega, rfl, fun p hp => Or.inl ?_⟩
        obtain rfl := Option.some.inj hp
        have hdelim : (s.drop start)[pos - start]? = some c := by
          rw [List.getElem?_drop, Nat.add_sub_cancel' hle]
          exact hget
        have hshort := takeWhile_length_le hdelim hc
        rw [run]
        omega
      · obtain rfl : start = pos := by omega
        have hcut : (scanned d s (start + 1)).s.getD start 0 = 0 := by
          simp only [scanned]
          rw [cutTo_succ hget, if_pos hc, List.getD, List.getElem?_set_self (by rw [cutTo_length]; exact hlt),
            Option.getD_some]
        rw [if_neg (not_not.mpr hcut)]
        have hpending : pending d s start start = pending d s (start + 1) (start + 1) := by
          rw [pending, pending, if_neg (lt_irrefl _), if_neg (lt_irrefl _), hdrop, runStarts, if_pos hc]
        rw [hpending]
        exact (ih (by omega) le_rfl (fun h => absurd h (lt_irrefl _)) (by omega)).mono (Nat.le_succ _)
    · have hstep : ({ scanned d s pos with pos := (scanned d s pos).pos + 1 } : Tok) = scanned d s (pos + 1) := by
        simp only [scanned]
        rw [cutTo_succ hget, if_neg hc]
      rw [if_neg hc, hstep]
      have hpending : pending d s start pos = pending d s start (pos + 1) := by
        rw [pending, pending, if_pos (Nat.lt_succ_of_le hle), hdrop]
        by_cases hstart : start < pos
        · rw [if_pos hstart, runStarts, if_neg hc]
          rfl
        · obtain rfl : start = pos := by omega
          rw [if_neg hstart, runStarts, if_neg hc, if_pos rfl]
      rw [hpending]
      refine (ih (by omega) (by omega) (fun _ => ?_) (by omega)).mono (Nat.le_succ _)
      by_cases hstart : start < pos
      · exact hrun hstart
      · obtain rfl : start = pos := by omega
        exact ⟨c, hget, hc⟩

/-! ## All calls -/

structure Scan (d s : List Byte) (n : Nat) (r : List (Option Nat) × Tok) : Prop where
  results : r.1 = (List.range (n + 1)).map fun i => (starts d s)[i]?
  state : ∃ q, r.2 = scanned d s q ∧ q ≤ s.length ∧ runStarts d true q (s.drop q) = (starts d s).drop (n + 1) ∧
    ∀ p, some p ∈ r.1 → p + (run d s p).length < q ∨ q = s.length

theorem calls_scan (hs : IsStr s) (h13 : s.getD 0 0 ≠ 13) (k : Tok) (n : Nat) :
    Scan d s n (calls strtokAt s d k n) := by
  induction n with
  | zero =>
    have hcall := strtokLoop_spec (d := d) hs s.length (Nat.zero_add _) le_rfl
      (fun h => absurd h (lt_irrefl 0)) (Nat.lt_succ_self _)
    have hpending : pending d s 0 0 = starts d s := if_neg (lt_irrefl 0)
    have hfirst : calls strtokAt s d k 0 = ([(strtokLoop d (s.length + 1) 0 (scanned d s 0)).1],
        (strtokLoop d (s.length + 1) 0 (scanned d s 0)).2) := by
      simp only [calls, strtokAt, if_neg h13]
      rfl
    rw [hpending] at hcall
    obtain ⟨hresult, q, hq, -, hle, hrest, hpassed⟩ := hcall
    rw [hfirst]
    refine ⟨?_, q, hq, hle, ?_, fun p hp => hpassed p ?_⟩
    · rw [hresult, List.head?_eq_getElem?]
      rfl
    · rw [hrest, List.drop_one]
    · exact (List.mem_singleton.mp hp).symm
  | succ n ih =>
    obtain ⟨hresults, q, hq, hle, hrest, hpassed⟩ := ih
    have hcall := strtokLoop_spec (d := d) hs (s.length - q) (Nat.add_sub_cancel' hle) le_rfl
      (fun h => absurd h (lt_irrefl q)) (by rw [Nat.lt_succ_iff]; exact Nat.sub_le _ _ : s.length - q < s.length + 1)
    have hpending : pending d s q q = (starts d s).drop (n + 1) := by
      rw [pending, if_neg (lt_irrefl q), hrest]
    have hlength : (scanned d s q).s.length = s.length := cutTo_length d q s
    have hnext : calls strtokAt s d k (n + 1) = ((calls strtokAt s d k n).1 ++
        [(strtokLoop d (s.length + 1) q (scanned d s q)).1], (strtokLoop d (s.length + 1) q (scanned d s q)).2) := by
      simp only [calls, strtokAt, hq, hlength]
      rfl
    rw [hpending] at hcall
    obtain ⟨hresult, q', hq', hge, hle', hrest', hpassed'⟩ := hcall
    rw [hnext]
    refine ⟨?_, q', hq', hle', ?_, fun p hp => ?_⟩
    · dsimp only
      rw [hresults, hresult, List.range_succ (n := n + 1), List.map_append, List.head?_drop]
      rfl
    · rw [hrest', List.tail_drop]
    · rcases List.mem_append.mp hp with hp | hp
      · rcases hpassed p hp with hlt | hend
        · exact Or.inl (hlt.trans_le hge)
        · exact Or.inr (le_antisymm hle' (hend ▸ hge))
      · exact hpassed' p (List.mem_singleton.mp hp).symm

/-- What the function promises: the calls return pointers to the runs of the original
string, in order and each once, and then `NULL`; each token that has been returned is
still that run, with a terminator behind it. -/
def Tokenizes (strtok : Option (List Byte) → List Byte → Tok → Option Nat × Tok) : Prop :=
  ∀ s d : List Byte, IsStr s → s.getD 0 0 ≠ 13 → ∃ ps : List Nat, ps.Pairwise (· < ·) ∧
    (∀ i, i ∈ ps ↔ RunStart d s i) ∧ ∀ (k : Tok) (n : Nat),
      (calls strtok s d k n).1 = (List.range (n + 1)).map (fun i => ps[i]?) ∧
      ∀ p, some p ∈ (calls strtok s d k n).1 →
        strAt (calls strtok s d k n).2.s p = run d s p ∧ run d s p ≠ [] ∧
          (calls strtok s d k n).2.s.getD (p + (run d s p).length) 0 = 0

theorem run_ne_nil {i : Nat} (h : RunStart d s i) : run d s i ≠ [] := by
  obtain ⟨c, hc, hout, -⟩ := h
  rw [List.getElem?_eq_some_iff] at hc
  obtain ⟨hi, rfl⟩ := hc
  rw [run, List.drop_eq_getElem_cons hi, List.takeWhile_cons_of_pos (by simpa using hout)]
  exact List.cons_ne_nil _ _

/-- Behind the string at a position stands a zero. -/
theorem getD_strAt (bytes : List Byte) (p : Nat) : bytes.getD (p + (strAt bytes p).length) 0 = 0 := by
  rw [strAt, List.getD, ← List.getElem?_drop]
  generalize bytes.drop p = l
  induction l with
  | nil => rfl
  | cons c l ih =>
    rw [List.takeWhile_cons]
    split
    · exact ih
    · rename_i hc
      simpa using hc

/-- A token that has been returned can still be read. -/
theorem calls_read (hs : IsStr s) (h13 : s.getD 0 0 ≠ 13) {k : Tok} {n p : Nat}
    (hp : some p ∈ (calls strtokAt s d k n).1) : strAt (calls strtokAt s d k n).2.s p = run d s p := by
  obtain ⟨-, q, hq, -, -, hpassed⟩ := calls_scan (d := d) hs h13 k n
  rw [hq]
  refine token_read hs ?_
  rcases hpassed p hp with hlt | hend
  · exact Or.inl hlt
  · exact Or.inr hend.ge

theorem strtokAt_tokenizes : Tokenizes strtokAt := by
  intro s d hs h13
  refine ⟨starts d s, runStarts_pairwise d s true 0, mem_starts d s, fun k n => ?_⟩
  have hresults := (calls_scan (d := d) hs h13 k n).results
  refine ⟨hresults, fun p hp => ?_⟩
  have hread := calls_read hs h13 hp
  have hstart : p ∈ starts d s := by
    rw [hresults] at hp
    obtain ⟨i, -, hi⟩ := List.mem_map.mp hp
    exact List.mem_of_getElem? hi
  refine ⟨hread, run_ne_nil ((mem_starts d s p).mp hstart), ?_⟩
  rw [← hread]
  exact getD_strAt _ p

/-- Both copies of `strtok` are tokenizers. -/
theorem strtok_tokenizes : Tokenizes sysStrtok ∧ Tokenizes libcStrtok :=
  ⟨strtokAt_tokenizes, strtokAt_tokenizes⟩

/-- `" a  b"` cut at blanks: the tokens at 1 and 4, then `NULL`. -/
example : calls libcStrtok [32, 97, 32, 32, 98] [32] ⟨[], 7⟩ 3 =
    ([some 1, some 4, none, none], ⟨[0, 97, 0, 0, 98], 5⟩) := by decide

end Tokens
