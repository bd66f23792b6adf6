import DeepOS.Tarfs

/-!
# The search along `PATH`

`kexecvpe` looks a program up under the given name and, when that fails, in the
directories of the `PATH` variable. `strtok` cuts the caller's own string into
pieces: it puts terminators in the place of the separators. An environment string
is a buffer; the bytes behind its last one are zero.
-/
namespace PathSearch

open CString Strings Tarfs

/-! ## `strtok` -/

/-- The static variables `s` and `pos`. -/
structure Tok where
  s : List Byte
  pos : Nat
  deriving DecidableEq, Repr

/-- The outer loop, with `start`; the first argument bounds the number of turns. -/
def strtokLoop (comp : List Byte) : Nat → Nat → Tok → Option Nat × Tok
  | 0, _, k => (none, k)
  | fuel + 1, start, k =>
    if k.s.getD k.pos 0 ≠ 0 then
      if k.s.getD k.pos 0 ∈ comp then
        let k' : Tok := ⟨k.s.set k.pos 0, k.pos + 1⟩
        if k'.s.getD start 0 ≠ 0 then (some start, k') else strtokLoop comp fuel k'.pos k'
      else strtokLoop comp fuel start { k with pos := k.pos + 1 }
    else if k.s.getD start 0 = 0 then (none, k) else (some start, k)

def token (r : Option Nat × Tok) : Option (List Byte) × Tok := (r.1.map (strAt r.2.s), r.2)

/-- A new string that begins with a carriage return is turned down. -/
def strtok (str : Option (List Byte)) (comp : List Byte) (k : Tok) : Option (List Byte) × Tok :=
  match str with
  | some str =>
    if str.getD 0 0 = 13 then (none, ⟨str, 0⟩)
    else token (strtokLoop comp (str.length + 1) 0 ⟨str, 0⟩)
  | none => token (strtokLoop comp (k.s.length + 1) k.pos k)

/-! ## `getPath` -/

def addSlash (curPath : List Byte) : List Byte :=
  if curPath.getLast? ≠ some 47 then strcat curPath [47] else curPath

def pathVar : List Byte := [80, 65, 84, 72, 61]

/-- The tokens of the `while` loop of `getPath`, for the given number of turns. -/
def fillPath : Nat → Tok → List (List Byte) × Tok
  | 0, k => ([], k)
  | n + 1, k =>
    match strtok none [59] k with
    | (some tok, k') => let r := fillPath n k'
      (tok :: r.1, r.2)
    | (none, k') => ([], k')

/-- The loop over the environment from the counter `ct` on: the tokens, and the
environment afterwards. Without a first token `addSlash` reads through the null
pointer, which has no result. -/
def getPathLoop : List (List Byte) → Nat → Option (List (List Byte) × List (List Byte))
  | [], _ => some ([], [])
  | e :: envp, ct =>
    if startsWith e pathVar then
      match strtok (some (e.drop 5)) [59] ⟨[], 0⟩ with
      | (none, _) => none
      | (some tok, k) =>
        let more := fillPath (63 - ct) k
        (getPathLoop envp (ct + 1 + more.1.length)).map fun r =>
          (tok :: (more.1 ++ r.1), (e.take 5 ++ more.2.s) :: r.2)
    else (getPathLoop envp ct).map fun r => (r.1, e :: r.2)

/-- There is room for 63 names and a null pointer. -/
def pathTokens (envp : List (List Byte)) : Option (List (List Byte) × List (List Byte)) :=
  (getPathLoop envp 0).filter fun r => r.1.length < 64

/-- The contents of `path`, and the environment afterwards. -/
def getPath (envp : List (List Byte)) : Option (List (List Byte) × List (List Byte)) :=
  (pathTokens envp).map fun r => (r.1.map addSlash, r.2)

/-! ## The search -/

/-- Where the file begins, or `NULL`. -/
def getElfFile (a filename : List Byte) : Option (Option Nat) := (getElfFileWalk a filename).map Walk.data

/-- The loop over `path`; `tar_p` is assigned in every turn. -/
def searchPath (a filename1 : List Byte) : List (List Byte) → Option Nat → Option (Option Nat)
  | [], tar => some tar
  | p :: path, _ => (getElfFile a (strcat p filename1)).bind (searchPath a filename1 path)

/-- The entries of `current_task->envp` after so many turns of the copy loop, when the
caller's array begins at entry `d` of it: a turn puts in a block of zeros and copies
`envp[i]` there. -/
def copyLoop (d : Nat) (entries : Nat → List Byte) : Nat → Nat → List Byte
  | 0 => entries
  | i + 1 =>
    let entries := Function.update (copyLoop d entries i) i []
    Function.update entries i (entries (d + i))

/-- The strings of the caller's array after the copy loop. An array of the caller's own
stays; one that lies in `current_task->envp`, as that of `main` does, is written while
it is read, and the null pointer at the end of the copies may shorten it. -/
def copyEnv (place : Option Nat) (envp : List (List Byte)) : List (List Byte) :=
  match place with
  | none => envp
  | some d =>
    let entries := copyLoop d (fun i => envp.getD (i - d) []) envp.length
    (List.range (if envp.length < d then envp.length else envp.length - d)).map fun i => entries (d + i)

/-- The file that `kexecvpe` loads, or `NULL`, and the strings of the caller's array
afterwards; `place` is where that array begins in `current_task->envp`, if it does. -/
def findExecutable (a filename : List Byte) (place : Option Nat) (envp : List (List Byte)) :
    Option (Option Nat × List (List Byte)) :=
  (getElfFile a filename).bind fun tar =>
    match tar with
    | some start => some (some start, copyEnv place envp)
    | none => (getPath (copyEnv place envp)).bind fun r =>
      (searchPath a filename r.1 none).map fun tar => (tar, r.2)

/-! ## Tokens -/

def components (v : List Byte) : List (List Byte) := (v.splitOn 59).filter (· ≠ [])

/-- The pieces of `rest`, the first of which begins with `tok`. -/
def pieces : List Byte → List Byte → List (List Byte)
  | tok, [] => if tok = [] then [] else [tok]
  | tok, c :: rest =>
    if c = 59 then if tok = [] then pieces [] rest else tok :: pieces [] rest
    else pieces (tok ++ [c]) rest

theorem components_append {tok : List Byte} (h : (59 : Byte) ∉ tok) (rest : List Byte) :
    components (tok ++ rest) = pieces tok rest := by
  induction rest generalizing tok with
  | nil =>
    rw [List.append_nil, components, List.splitOn_eq_singleton h, pieces]
    by_cases ht : tok = []
    · simp [ht]
    · simp [ht]
  | cons c rest ih =>
    by_cases hc : c = 59
    · subst hc
      rw [components, List.splitOn_append_cons_self, List.splitOn_eq_singleton h, List.filter_append,
        pieces, if_pos rfl, ← @ih [] (by simp), List.nil_append, ← components]
      by_cases ht : tok = []
      · simp [ht]
      · simp [ht]
    · have hsnoc : (59 : Byte) ∉ tok ++ [c] := by simpa using ⟨h, Ne.symm hc⟩
      rw [pieces, if_neg hc, ← ih hsnoc, List.append_assoc, List.singleton_append]

theorem components_eq (v : List Byte) : components v = pieces [] v :=
  @components_append [] (by simp) v

def cut (v : List Byte) : List Byte := v.map fun c => if c = 59 then 0 else c

/-- A scan that has cut `front`, and still has to read `rest`. -/
structure At (k : Tok) (front rest : List Byte) : Prop where
  s : k.s = front ++ rest
  pos : k.pos = front.length

theorem strAt_token {front tok rest : List Byte} (h : IsStr tok) (hrest : rest.getD 0 0 = 0) :
    strAt (front ++ (tok ++ rest)) front.length = tok := by
  rw [strAt, List.drop_left]
  cases rest with
  | nil => simpa using fun c hc => h c hc
  | cons c rest =>
    obtain rfl : c = 0 := hrest
    exact takeWhile_str h rest

theorem getD_append (front rest : List Byte) : (front ++ rest).getD front.length 0 = rest.getD 0 0 := by
  simp [List.getD, List.getElem?_append_right]

theorem getD_pos {tok : List Byte} (h : IsStr tok) (hne : tok ≠ []) (rest : List Byte) :
    (tok ++ rest).getD 0 0 ≠ 0 := by
  cases tok with
  | nil => exact absurd rfl hne
  | cons c tok => exact h c List.mem_cons_self

/-- A call that has read `tok` since `front` and goes on to `rest`: it returns the
next piece and leaves the later ones to be read. -/
theorem strtokLoop_spec (rest : List Byte) : ∀ {front tok : List Byte} {fuel : Nat}, IsStr tok →
    IsStr rest → rest.length < fuel → ∃ front' rest',
      At (strtokLoop [59] fuel front.length ⟨front ++ (tok ++ rest), front.length + tok.length⟩).2
        front' rest' ∧ IsStr rest' ∧
      (token (strtokLoop [59] fuel front.length
        ⟨front ++ (tok ++ rest), front.length + tok.length⟩)).1 = (pieces tok rest).head? ∧
      pieces [] rest' = (pieces tok rest).tail ∧ (pieces tok rest = [] → rest' = []) ∧
      front' ++ cut rest' = front ++ (tok ++ cut rest) := by
  induction rest with
  | nil =>
    intro front tok fuel htok hrest hfuel
    obtain ⟨fuel, rfl⟩ : ∃ n, fuel = n + 1 := ⟨fuel - 1, by omega⟩
    have hend : (front ++ (tok ++ [])).getD (front.length + tok.length) 0 = 0 := by simp [List.getD]
    refine ⟨front ++ tok, [], ?_⟩
    rw [strtokLoop, if_neg (not_not.mpr hend), getD_append]
    by_cases ht : tok = []
    · subst ht
      refine ⟨⟨by simp, by simp⟩, hrest, ?_, ?_, fun _ => rfl, by simp⟩
      · simp [token, pieces]
      · simp [pieces]
    · rw [if_neg (getD_pos htok ht []), pieces, if_neg ht]
      refine ⟨⟨by simp, by simp⟩, hrest, ?_, by simp [pieces], fun _ => rfl, by simp [cut]⟩
      exact congrArg some (strAt_token htok rfl)
  | cons c rest ih =>
    intro front tok fuel htok hrest hfuel
    obtain ⟨fuel, rfl⟩ : ∃ n, fuel = n + 1 := ⟨fuel - 1, by omega⟩
    have hc0 : c ≠ 0 := hrest c List.mem_cons_self
    have hrest' : IsStr rest := fun x hx => hrest x (List.mem_cons_of_mem c hx)
    have hfuel' : rest.length < fuel := by
      rw [List.length_cons] at hfuel
      omega
    have hat : (front ++ (tok ++ c :: rest)).getD (front.length + tok.length) 0 = c := by
      rw [← List.append_assoc, ← List.length_append, getD_append]
      rfl
    have hset : (front ++ (tok ++ c :: rest)).set (front.length + tok.length) 0 =
        front ++ (tok ++ 0 :: rest) := by
      rw [← List.append_assoc, ← List.length_append, List.set_append_right _ _ le_rfl]
      simp
    rw [strtokLoop, if_pos (by rwa [hat]), hat]
    by_cases hc : c = 59
    · subst hc
      rw [if_pos (List.mem_singleton_self _), pieces, if_pos rfl]
      simp only [hset, getD_append]
      by_cases ht : tok = []
      · subst ht
        rw [if_neg (by simp), if_pos rfl]
        obtain ⟨front', rest', hat', hstr, htoken, hpieces, hnil, hcut⟩ :=
          @ih (front ++ [0]) [] fuel (by simp [IsStr]) hrest' hfuel'
        refine ⟨front', rest', ?_, hstr, ?_, hpieces, hnil, ?_⟩
        · simpa using hat'
        · simpa using htoken
        · rw [hcut]
          simp [cut]
      · rw [if_pos (getD_pos htok ht _), if_neg ht]
        refine ⟨front ++ (tok ++ [0]), rest, ⟨by simp, by simp; omega⟩, hrest', ?_, rfl, by simp, by simp [cut]⟩
        exact congrArg some (strAt_token htok rfl)
    · have hsnoc : IsStr (tok ++ [c]) := by
        intro x hx
        rcases List.mem_append.mp hx with hx | hx
        · exact htok x hx
        · rwa [List.mem_singleton.mp hx]
      rw [if_neg (by simpa using hc), pieces, if_neg hc]
      obtain ⟨front', rest', hat', hstr, htoken, hpieces, hnil, hcut⟩ :=
        @ih front (tok ++ [c]) fuel hsnoc hrest' hfuel'
      refine ⟨front', rest', ?_, hstr, ?_, hpieces, hnil, ?_⟩
      · simpa [Nat.add_assoc] using hat'
      · simpa [Nat.add_assoc] using htoken
      · have hkeep : cut (c :: rest) = c :: cut rest := by simp only [cut, List.map_cons, if_neg hc]
        rw [hcut, hkeep]
        simp

/-- A further call returns the next piece. -/
theorem strtok_next {k : Tok} {front rest : List Byte} (h : At k front rest) (hrest : IsStr rest) :
    ∃ front' rest', At (strtok none [59] k).2 front' rest' ∧ IsStr rest' ∧
      (strtok none [59] k).1 = (components rest).head? ∧
      components rest' = (components rest).tail ∧ (components rest = [] → rest' = []) ∧
      front' ++ cut rest' = front ++ cut rest := by
  obtain ⟨s, pos⟩ := k
  obtain rfl : s = front ++ rest := h.s
  obtain rfl : pos = front.length := h.pos
  simp only [components_eq]
  exact @strtokLoop_spec rest front [] _ (by simp [IsStr]) hrest (by simp)

/-- The first call returns the first piece. -/
theorem strtok_first {v : List Byte} (h : v.getD 0 0 ≠ 13) (hv : IsStr v) (k : Tok) :
    ∃ front rest, At (strtok (some v) [59] k).2 front rest ∧ IsStr rest ∧
      (strtok (some v) [59] k).1 = (components v).head? ∧ components rest = (components v).tail ∧
      (components v = [] → rest = []) ∧ front ++ cut rest = cut v := by
  rw [strtok, if_neg h]
  simp only [components_eq]
  exact @strtokLoop_spec v [] [] _ (by simp [IsStr]) hv (by omega)

/-- With turns enough, the loop takes the remaining pieces and cuts the whole string. -/
theorem fillPath_spec (n : Nat) : ∀ {k : Tok} {front rest : List Byte}, At k front rest → IsStr rest →
    (components rest).length < n → (fillPath n k).1 = components rest ∧
      (fillPath n k).2.s = front ++ cut rest := by
  induction n with
  | zero =>
    intro k front rest h hrest hn
    omega
  | succ n ih =>
    intro k front rest h hrest hn
    obtain ⟨front', rest', hat, hstr, htok, htail, hnil, hcut⟩ := strtok_next h hrest
    rw [fillPath]
    cases hs : strtok none [59] k with
    | mk tok k' =>
      rw [hs] at hat htok
      cases hc : components rest with
      | nil =>
        obtain rfl : tok = none := htok.trans (by rw [hc]; rfl)
        refine ⟨rfl, ?_⟩
        rw [← hcut, hnil hc]
        simpa [hnil hc, cut] using hat.s
      | cons t ts =>
        obtain rfl : tok = some t := htok.trans (by rw [hc]; rfl)
        rw [hc, List.tail_cons] at htail
        have hlen : (components rest').length < n := by
          rw [htail]
          rw [hc, List.length_cons] at hn
          omega
        obtain ⟨hpath, hs'⟩ := ih hat hstr hlen
        refine ⟨?_, ?_⟩
        · rw [← htail, ← hpath]
        · rw [← hcut, ← hs']

/-! ## Buffers that are cut -/

theorem zero_mem_set {s : List Byte} {i : Nat} (h : s.getD i 0 ≠ 0) : (0 : Byte) ∈ s.set i 0 := by
  by_cases hi : i < s.length
  · exact List.mem_set hi 0
  · exact absurd (by simp [List.getD, List.getElem?_eq_none (Nat.le_of_not_lt hi)]) h

/-- A terminator in the buffer stays. -/
theorem strtokLoop_zero (comp : List Byte) (fuel start : Nat) (k : Tok) (h : (0 : Byte) ∈ k.s) :
    (0 : Byte) ∈ (strtokLoop comp fuel start k).2.s := by
  induction fuel generalizing start k with
  | zero => exact h
  | succ fuel ih =>
    rw [strtokLoop]
    by_cases hc : k.s.getD k.pos 0 ≠ 0
    · rw [if_pos hc]
      by_cases hm : k.s.getD k.pos 0 ∈ comp
      · rw [if_pos hm]
        simp only
        split
        · exact zero_mem_set hc
        · exact ih _ _ (zero_mem_set hc)
      · rw [if_neg hm]
        exact ih _ _ h
    · rw [if_neg hc]
      split
      · exact h
      · exact h

/-- A separator that is reached is overwritten. -/
theorem strtokLoop_cuts (fuel start : Nat) (k : Tok) (hstr : IsStr (k.s.drop k.pos))
    (hsep : (59 : Byte) ∈ k.s.drop k.pos) (hfuel : k.s.length < k.pos + fuel) :
    (0 : Byte) ∈ (strtokLoop [59] fuel start k).2.s := by
  induction fuel generalizing k with
  | zero =>
    rw [List.drop_eq_nil_of_le (by omega)] at hsep
    cases hsep
  | succ fuel ih =>
    obtain ⟨c, rest, hdrop⟩ := List.exists_cons_of_ne_nil (List.ne_nil_of_mem hsep)
    have hat : k.s.getD k.pos 0 = c := by
      rw [List.getD, ← List.head?_drop, hdrop]
      rfl
    have hnext : k.s.drop (k.pos + 1) = rest := by
      rw [← List.drop_drop, hdrop]
      rfl
    have hc0 : c ≠ 0 := hstr c (by rw [hdrop]; exact List.mem_cons_self)
    rw [strtokLoop, if_pos (by rwa [hat])]
    by_cases hc : c = 59
    · rw [if_pos (by rw [hat, hc]; exact List.mem_singleton_self _)]
      have hzero := zero_mem_set (by rwa [hat] : k.s.getD k.pos 0 ≠ 0)
      simp only
      split
      · exact hzero
      · exact strtokLoop_zero _ _ _ _ hzero
    · rw [if_neg (by rw [hat]; simpa using hc)]
      refine ih ⟨k.s, k.pos + 1⟩ ?_ ?_ (by simp only; omega)
      · intro x hx
        rw [hnext] at hx
        exact hstr x (by rw [hdrop]; exact List.mem_cons_of_mem c hx)
      · rw [hdrop] at hsep
        rw [hnext]
        rcases List.mem_cons.mp hsep with he | hm
        · exact absurd he.symm hc
        · exact hm

theorem fillPath_zero (n : Nat) (k : Tok) (h : (0 : Byte) ∈ k.s) : (0 : Byte) ∈ (fillPath n k).2.s := by
  induction n generalizing k with
  | zero => exact h
  | succ n ih =>
    have hnext : (0 : Byte) ∈ (strtok none [59] k).2.s := strtokLoop_zero _ _ _ _ h
    rw [fillPath]
    cases hs : strtok none [59] k with
    | mk tok k' =>
      rw [hs] at hnext
      cases tok with
      | none => exact hnext
      | some tok => exact ih k' hnext

/-! ## Environments that are not cut -/

def pathValues (envp : List (List Byte)) : List (List Byte) :=
  (envp.filter fun e => startsWith e pathVar).map (List.drop 5)

theorem cut_whole {v : List Byte} (h : (59 : Byte) ∉ v) : cut v = v := by
  rw [cut]
  conv_rhs => rw [← List.map_id v]
  refine List.map_congr_left fun c hc => if_neg ?_
  rintro rfl
  exact h hc

/-- A value with one piece that `strtok` leaves as it is. -/
def Whole (v : List Byte) : Prop := v ≠ [] ∧ v.getD 0 0 ≠ 13 ∧ (59 : Byte) ∉ v

theorem Whole.strtok {v : List Byte} (h : Whole v) (hv : IsStr v) (n : Nat) :
    ∃ k, PathSearch.strtok (some v) [59] ⟨[], 0⟩ = (some v, k) ∧ (fillPath n k).1 = [] ∧
      (fillPath n k).2.s = v := by
  obtain ⟨hne, hcr, hsep⟩ := h
  have hone : components v = [v] := by
    rw [components, List.splitOn_eq_singleton hsep]
    simp [hne]
  obtain ⟨front, rest, hat, hstr, htok, htail, -, hjoin⟩ := strtok_first hcr hv ⟨[], 0⟩
  cases hs : PathSearch.strtok (some v) [59] ⟨[], 0⟩ with
  | mk tok k =>
    rw [hs] at hat htok
    obtain rfl : tok = some v := htok.trans (by rw [hone]; rfl)
    refine ⟨k, rfl, ?_⟩
    rw [hone, List.tail_cons] at htail
    rw [cut_whole hsep] at hjoin
    cases n with
    | zero =>
      have hrest : (59 : Byte) ∉ rest := by
        intro hm
        refine hv 0 ?_ rfl
        rw [← hjoin, cut]
        exact List.mem_append_right _ (List.mem_map.mpr ⟨59, hm, rfl⟩)
      rw [cut_whole hrest] at hjoin
      exact ⟨rfl, hat.s.trans hjoin⟩
    | succ n =>
      obtain ⟨hpath, hs'⟩ := fillPath_spec (n + 1) hat hstr (by rw [htail]; simp)
      exact ⟨hpath.trans htail, hs'.trans hjoin⟩

theorem pathValues_cons (e : List Byte) (envp : List (List Byte)) : pathValues (e :: envp) =
    if startsWith e pathVar then e.drop 5 :: pathValues envp else pathValues envp := by
  rw [pathValues, List.filter_cons]
  split
  · rfl
  · rfl

theorem isStr_drop {e : List Byte} (h : IsStr e) (n : Nat) : IsStr (e.drop n) :=
  fun c hc => h c (List.mem_of_mem_drop hc)

/-- Values of one piece are the tokens, and the environment stays. -/
theorem getPathLoop_whole (envp : List (List Byte)) (hstr : ∀ e ∈ envp, IsStr e)
    (h : ∀ v ∈ pathValues envp, Whole v) (ct : Nat) :
    getPathLoop envp ct = some (pathValues envp, envp) := by
  induction envp generalizing ct with
  | nil => rfl
  | cons e envp ih =>
    have hrest : ∀ e ∈ envp, IsStr e := fun x hx => hstr x (List.mem_cons_of_mem e hx)
    rw [pathValues_cons] at h ⊢
    rw [getPathLoop]
    by_cases he : startsWith e pathVar
    · rw [if_pos he] at h ⊢
      rw [if_pos he]
      have hv := isStr_drop (hstr e List.mem_cons_self) 5
      obtain ⟨k, hfirst, hmore, hs⟩ := (h _ List.mem_cons_self).strtok hv (63 - ct)
      have hih := ih hrest (fun v hv => h v (List.mem_cons_of_mem _ hv))
      simp only [hfirst, hmore, hs, hih, Option.map_some, List.nil_append, List.take_append_drop]
    · rw [if_neg he] at h ⊢
      rw [if_neg he, ih hrest h]
      rfl

/-- An environment that stays has only values of one piece. -/
theorem whole_of_getPathLoop (envp : List (List Byte)) (hstr : ∀ e ∈ envp, IsStr e) {ct : Nat}
    {toks : List (List Byte)} (h : getPathLoop envp ct = some (toks, envp)) :
    ∀ v ∈ pathValues envp, Whole v := by
  induction envp generalizing ct toks with
  | nil => simp [pathValues]
  | cons e envp ih =>
    have hrest : ∀ e ∈ envp, IsStr e := fun x hx => hstr x (List.mem_cons_of_mem e hx)
    rw [pathValues_cons]
    rw [getPathLoop] at h
    by_cases he : startsWith e pathVar
    · rw [if_pos he] at h ⊢
      cases hfirst : strtok (some (e.drop 5)) [59] ⟨[], 0⟩ with
      | mk tok k =>
        rw [hfirst] at h
        cases tok with
        | none => cases h
        | some tok =>
          simp only [Option.map_eq_some_iff, Prod.mk.injEq, List.cons.injEq] at h
          obtain ⟨⟨toks', envp'⟩, hloop, -, hbuf, rfl⟩ := h
          have hv := isStr_drop (hstr e List.mem_cons_self) 5
          have hcr : (e.drop 5).getD 0 0 ≠ 13 := by
            intro hcr
            rw [strtok, if_pos hcr] at hfirst
            cases hfirst
          have hne : e.drop 5 ≠ [] := by
            intro h0
            rw [h0] at hfirst
            cases hfirst
          have hsep : (59 : Byte) ∉ e.drop 5 := by
            intro hm
            have hcut : (0 : Byte) ∈ k.s := by
              rw [strtok, if_neg hcr] at hfirst
              have hk := congrArg Prod.snd hfirst
              rw [← show _ = k from hk]
              exact strtokLoop_cuts _ _ _ hv hm (by simp)
            refine hstr e List.mem_cons_self 0 ?_ rfl
            rw [← hbuf]
            exact List.mem_append_right _ (fillPath_zero _ _ hcut)
          intro v hv
          rcases List.mem_cons.mp hv with rfl | hv
          · exact ⟨hne, hcr, hsep⟩
          · exact ih hrest hloop v hv
    · rw [if_neg he] at h ⊢
      simp only [Option.map_eq_some_iff, Prod.mk.injEq, List.cons.injEq, true_and] at h
      obtain ⟨⟨toks', envp'⟩, hloop, -, rfl⟩ := h
      exact ih hrest hloop

/-- The tokens are taken without a change exactly when all values are whole and fit. -/
theorem pathTokens_same (envp : List (List Byte)) (hstr : ∀ e ∈ envp, IsStr e) (toks : List (List Byte)) :
    pathTokens envp = some (toks, envp) ↔
      toks = pathValues envp ∧ (pathValues envp).length < 64 ∧ ∀ v ∈ pathValues envp, Whole v := by
  rw [pathTokens]
  constructor
  · intro h
    rw [Option.filter_eq_some_iff] at h
    obtain ⟨hloop, hlen⟩ := h
    have hwhole := whole_of_getPathLoop envp hstr hloop
    rw [getPathLoop_whole envp hstr hwhole] at hloop
    obtain rfl := (Prod.mk.inj (Option.some.inj hloop)).1
    exact ⟨rfl, by simpa using hlen, hwhole⟩
  · rintro ⟨rfl, hlen, hwhole⟩
    rw [getPathLoop_whole envp hstr hwhole 0, Option.filter_some, if_pos (by simpa using hlen)]

/-! ## The path list -/

theorem getPathLoop_other (envp : List (List Byte)) (h : ∀ e ∈ envp, startsWith e pathVar = false)
    (ct : Nat) : getPathLoop envp ct = some ([], envp) := by
  induction envp generalizing ct with
  | nil => rfl
  | cons e envp ih =>
    have he := h e List.mem_cons_self
    rw [getPathLoop, he, ih (fun x hx => h x (List.mem_cons_of_mem e hx))]
    rfl

theorem getPathLoop_skip (pre : List (List Byte)) (h : ∀ e ∈ pre, startsWith e pathVar = false)
    (envp : List (List Byte)) (ct : Nat) : getPathLoop (pre ++ envp) ct =
      (getPathLoop envp ct).map fun r => (r.1, pre ++ r.2) := by
  induction pre with
  | nil => simp
  | cons e pre ih =>
    have he := h e List.mem_cons_self
    rw [List.cons_append, getPathLoop, he, ih (fun x hx => h x (List.mem_cons_of_mem e hx)),
      Option.map_map]
    rfl

theorem startsWith_pathVar (v : List Byte) : startsWith (pathVar ++ v) pathVar = true :=
  (startsWith_iff _ _).mpr (List.prefix_append _ _)

/-- One `PATH` variable, with a piece but no more than fit. -/
theorem getPath_single {pre post : List (List Byte)} {v : List Byte}
    (hpre : ∀ e ∈ pre, startsWith e pathVar = false) (hpost : ∀ e ∈ post, startsWith e pathVar = false)
    (hv : IsStr v) (hcr : v.getD 0 0 ≠ 13) (hne : components v ≠ [])
    (hmax : (components v).length ≤ 63) :
    getPath (pre ++ (pathVar ++ v) :: post) =
      some ((components v).map addSlash, pre ++ (pathVar ++ cut v) :: post) := by
  obtain ⟨front, rest, hat, hstr, htok, htail, -, hcut⟩ := strtok_first hcr hv ⟨[], 0⟩
  obtain ⟨t, ts, hc⟩ := List.exists_cons_of_ne_nil hne
  have hlen : (components rest).length < 63 := by
    rw [htail, hc, List.tail_cons]
    rw [hc, List.length_cons] at hmax
    omega
  obtain ⟨hmore, hs⟩ := fillPath_spec 63 hat hstr hlen
  have hloop : getPathLoop ((pathVar ++ v) :: post) 0 =
      some (components v, (pathVar ++ cut v) :: post) := by
    rw [getPathLoop, startsWith_pathVar]
    have hdrop : (pathVar ++ v).drop 5 = v := rfl
    have htake : (pathVar ++ v).take 5 = pathVar := rfl
    rw [hdrop, htake]
    cases hfirst : strtok (some v) [59] ⟨[], 0⟩ with
    | mk tok k =>
      rw [hfirst] at hmore hs htok
      obtain rfl : tok = some t := htok.trans (by rw [hc]; rfl)
      simp only [if_true, getPathLoop_other post hpost, Option.map_some, List.append_nil, Nat.sub_zero]
      rw [hmore, hs, hcut, htail, hc]
      rfl
  rw [getPath, pathTokens, getPathLoop_skip pre hpre, hloop]
  simp [Option.filter, Nat.lt_succ_of_le hmax]

/-- A value that begins with a carriage return leads to a null pointer. -/
theorem getPath_return {pre post : List (List Byte)} {v : List Byte}
    (hpre : ∀ e ∈ pre, startsWith e pathVar = false) (hcr : v.getD 0 0 = 13) :
    getPath (pre ++ (pathVar ++ v) :: post) = none := by
  have hloop : getPathLoop ((pathVar ++ v) :: post) 0 = none := by
    rw [getPathLoop, startsWith_pathVar]
    have hdrop : (pathVar ++ v).drop 5 = v := rfl
    rw [hdrop, strtok, if_pos hcr]
    rfl
  rw [getPath, pathTokens, getPathLoop_skip pre hpre, hloop]
  rfl

/-! ## The search in a well-formed archive -/

/-- The name under which the archive is searched in the directory `d`: the path
without its first character. -/
def target (filename d : List Byte) : List Byte := (strcat (addSlash d) filename).tail

theorem addSlash_ne_nil (d : List Byte) : addSlash d ≠ [] := by
  rw [addSlash]
  split_ifs with h
  · simp [strcat]
  · rintro rfl
    simp at h

theorem getElfFile_target (A : Archive) {filename : List Byte} (hne : filename ≠ []) (d : List Byte) :
    getElfFile A.bytes (strcat (addSlash d) filename) = some (A.locate (target filename d)) := by
  obtain ⟨c, rest, hd⟩ := List.exists_cons_of_ne_nil (addSlash_ne_nil d)
  have htail : rest ++ filename ≠ [] := by simp [hne]
  rw [target, hd, strcat, List.cons_append, getElfFile, A.getElfFileWalk_bytes c htail]
  rfl

/-- The last directory decides. -/
theorem searchPath_dirs (A : Archive) {filename : List Byte} (hne : filename ≠ [])
    (ds : List (List Byte)) (tar : Option Nat) :
    searchPath A.bytes filename (ds.map addSlash) tar =
      some (((ds.getLast?).map fun d => A.locate (target filename d)).getD tar) := by
  induction ds generalizing tar with
  | nil => rfl
  | cons d ds ih =>
    rw [List.map_cons, searchPath, getElfFile_target A hne, Option.bind_some, ih, List.getLast?_cons]
    cases ds.getLast? with
    | none => rfl
    | some e => rfl

/-- An empty name is found: it is that of the first zero block. -/
theorem headerWalk_nameless {a : List Byte} (z : Nat) (es : List Entry) : ∀ {p fuel : Nat},
    a.drop p = es.flatMap Entry.bytes ++ List.replicate (512 * (z + 1)) 0 → a.length < 2 ^ 28 →
    es.length < fuel →
    (headerWalk a [] fuel p).map Walk.data = some (some (p + (es.flatMap Entry.bytes).length + 512)) := by
  induction es with
  | nil =>
    intro p fuel h hsmall hfuel
    obtain ⟨fuel, rfl⟩ : ∃ n, fuel = n + 1 := ⟨fuel - 1, by omega⟩
    have hlen := congrArg List.length h
    rw [List.flatMap_nil, List.nil_append, List.length_drop, List.length_replicate] at hlen
    rw [headerWalk, if_pos (by omega), headerName_zero (by simpa using h),
      if_pos ((strcmp_eq_zero _ _).mpr rfl)]
    rfl
  | cons e es ih =>
    intro p fuel h hsmall hfuel
    obtain ⟨fuel, rfl⟩ : ∃ n, fuel = n + 1 := ⟨fuel - 1, by omega⟩
    rw [List.flatMap_cons, List.append_assoc] at h
    have hlen := congrArg List.length h
    have hbytes := bytes_length e
    rw [List.length_drop, List.length_append] at hlen
    have hname : ¬ strcmp e.name [] = 0 := by
      rw [strcmp_eq_zero]
      exact List.ne_nil_of_length_pos e.name_pos
    rw [headerWalk, if_pos (by omega), headerName_entry h, if_neg hname,
      nextHeader_entry h (by omega), Option.map_map]
    have hrest := ih (drop_next h) hsmall (by rw [List.length_cons] at hfuel; omega : es.length < fuel)
    rw [List.flatMap_cons, List.length_append, ← Nat.add_assoc, ← hrest]
    rfl

/-- So a name that is not found directly has at least two characters. -/
theorem tail_ne_nil_of_direct {A : Archive} {filename : List Byte}
    (h : getElfFile A.bytes filename = some none) : filename.tail ≠ [] := by
  intro htail
  obtain ⟨z, hz⟩ : ∃ z, A.zeroBlocks = z + 1 + 1 := ⟨A.zeroBlocks - 2, by have := A.two_le; omega⟩
  have hlen := A.length_bytes
  have hsmall := A.small
  have hcount := length_le_flatMap A.entries
  have hbytes : A.bytes.drop 0 = A.entries.flatMap Entry.bytes ++ List.replicate (512 * (z + 1 + 1)) 0 := by
    rw [List.drop_zero, Archive.bytes, hz]
  have hwalk := headerWalk_nameless (z + 1) A.entries hbytes (by omega)
    (by omega : A.entries.length < A.bytes.length + 1)
  rw [getElfFile, getElfFileWalk, Option.map_map, Option.map_eq_some_iff] at h
  obtain ⟨w, hw, hdata⟩ := h
  rw [htail] at hw
  rw [hw, Option.map_some, Option.some.injEq] at hwalk
  simp only [Function.comp, hwalk, Option.filter] at hdata
  split at hdata
  · cases hdata
  · rename_i hlt
    refine hlt ?_
    simp only [decide_eq_true_eq]
    omega

theorem ne_nil_of_direct {A : Archive} {filename : List Byte}
    (h : getElfFile A.bytes filename = some none) : filename ≠ [] := by
  rintro rfl
  exact tail_ne_nil_of_direct h rfl

/-! ## The caller's array -/

theorem copyLoop_zero (entries : Nat → List Byte) (n i : Nat) :
    copyLoop 0 entries n i = if i < n then [] else entries i := by
  induction n with
  | zero => rfl
  | succ n ih =>
    rw [copyLoop]
    by_cases hi : i = n
    · subst hi
      simp
    · have hlt : i < n + 1 ↔ i < n := by omega
      simp only [Function.update_of_ne hi, ih, hlt]

/-- Entries in front of the one that is read have been written. -/
theorem copyLoop_pos {d : Nat} (hd : 0 < d) (entries : Nat → List Byte) (n i : Nat) :
    copyLoop d entries n i = if i < n then entries (d + i) else entries i := by
  induction n generalizing i with
  | zero => rfl
  | succ n ih =>
    rw [copyLoop]
    by_cases hi : i = n
    · subst hi
      have hread : ¬ d + i < i := by omega
      simp only [Function.update_self, Function.update_of_ne (show d + i ≠ i by omega), ih, if_neg hread,
        Nat.lt_succ_self, if_true]
    · have hlt : i < n + 1 ↔ i < n := by omega
      simp only [Function.update_of_ne hi, ih, hlt]

/-- The array of `main` is left with empty strings. -/
theorem copyEnv_self (envp : List (List Byte)) : copyEnv (some 0) envp = envp.map fun _ => [] := by
  refine List.ext_getElem (by simp [copyEnv]) fun i _ hi => ?_
  rw [List.length_map] at hi
  simp [copyEnv, copyLoop_zero, hi]

theorem copyEnv_shift {d : Nat} (hd : 0 < d) (envp : List (List Byte)) :
    copyEnv (some d) envp = if envp.length < d then envp else envp.drop d := by
  by_cases hshort : envp.length < d
  · refine List.ext_getElem (by simp [copyEnv, hshort]) fun i _ hi => ?_
    simp only [if_pos hshort] at hi ⊢
    have hread : ¬ d + i < envp.length := by omega
    simp [copyEnv, copyLoop_pos hd, hread, hi]
  · refine List.ext_getElem (by simp [copyEnv, hshort]) fun i _ hi => ?_
    simp only [if_neg hshort, List.length_drop] at hi ⊢
    have hread : d + i < envp.length := by omega
    simp [copyEnv, copyLoop_pos hd, hread]

/-- The entry at `n` is still found in the caller's array after the loop. -/
def Keeps (place : Option Nat) (n total : Nat) : Prop := ∀ d, place = some d → 0 < d ∧ (d ≤ n ∨ total < d)

theorem keeps_own (n total : Nat) : Keeps none n total := by
  intro d hd
  cases hd

theorem copyEnv_keeps {place : Option Nat} {pre post : List (List Byte)} {e : List Byte}
    (h : Keeps place pre.length (pre ++ e :: post).length) :
    ∃ pre', pre' ⊆ pre ∧ copyEnv place (pre ++ e :: post) = pre' ++ e :: post := by
  cases place with
  | none => exact ⟨pre, List.Subset.refl _, rfl⟩
  | some d =>
    obtain ⟨hd, hle⟩ := h d rfl
    rw [copyEnv_shift hd]
    split
    · exact ⟨pre, List.Subset.refl _, rfl⟩
    · refine ⟨pre.drop d, List.drop_subset d pre, ?_⟩
      rw [List.drop_append_of_le_length (by omega)]

/-- Otherwise no string of the array is the one that stood there. -/
theorem copyEnv_loses {place : Option Nat} {pre post : List (List Byte)} {e : List Byte}
    (h : ¬ Keeps place pre.length (pre ++ e :: post).length) {x : List Byte}
    (hx : x ∈ copyEnv place (pre ++ e :: post)) : x = [] ∨ x ∈ post := by
  simp only [Keeps] at h
  push Not at h
  obtain ⟨d, rfl, hlost⟩ := h
  rcases Nat.eq_zero_or_pos d with rfl | hd
  · rw [copyEnv_self] at hx
    obtain ⟨-, -, rfl⟩ := List.mem_map.mp hx
    exact Or.inl rfl
  · obtain ⟨hgt, hle⟩ := hlost hd
    rw [copyEnv_shift hd, if_neg (not_lt.mpr hle), List.drop_append, List.drop_eq_nil_of_le (by omega),
      List.nil_append] at hx
    obtain ⟨n, hn⟩ : ∃ n, d - pre.length = n + 1 := ⟨d - pre.length - 1, by omega⟩
    rw [hn, List.drop_succ_cons] at hx
    exact Or.inr (List.mem_of_mem_drop hx)

/-! ## Which file is loaded -/

/-- `kexecvpe` goes on to load the file that begins at `start`. -/
def Loads (a filename : List Byte) (place : Option Nat) (envp : List (List Byte)) (start : Nat) : Prop :=
  ∃ envp', findExecutable a filename place envp = some (some start, envp')

/-- What a search along `v` promises: a file is loaded exactly when there is one in
some directory, and then the one in the first such directory. -/
structure FirstHit (A : Archive) (filename : List Byte) (place : Option Nat) (envp : List (List Byte))
    (v : List Byte) : Prop where
  exists_iff : (∃ start, Loads A.bytes filename place envp start) ↔
    ∃ d ∈ components v, ∃ e ∈ A.entries, e.name = target filename d
  first : ∀ start, Loads A.bytes filename place envp start →
    (components v).findSome? (fun d => A.locate (target filename d)) = some start

/-- Some directory holds the file exactly when the first hit exists. -/
theorem exists_target_iff (A : Archive) (filename : List Byte) (ds : List (List Byte)) :
    (∃ d ∈ ds, ∃ e ∈ A.entries, e.name = target filename d) ↔
      ∃ start, ds.findSome? (fun d => A.locate (target filename d)) = some start := by
  have hhit : ∀ d, (∃ e ∈ A.entries, e.name = target filename d) ↔
      A.locate (target filename d) ≠ none := by
    intro d
    rw [ne_eq, A.locate_eq_none]
    push Not
    rfl
  simp only [hhit]
  rw [← Option.ne_none_iff_exists', ne_eq, List.findSome?_eq_none_iff]
  push Not
  rfl

section

variable {A : Archive} {filename : List Byte} {place : Option Nat} {pre post : List (List Byte)} {v : List Byte}
  (hpost : ∀ e ∈ post, startsWith e pathVar = false)
  (hdirect : getElfFile A.bytes filename = some none)

include hpost hdirect

/-- Without `PATH` in the array nothing is loaded. -/
theorem loads_lost (hkeeps : ¬ Keeps place pre.length (pre ++ (pathVar ++ v) :: post).length) (start : Nat) :
    ¬ Loads A.bytes filename place (pre ++ (pathVar ++ v) :: post) start := by
  have hnone : ∀ e ∈ copyEnv place (pre ++ (pathVar ++ v) :: post), startsWith e pathVar = false := by
    intro e he
    rcases copyEnv_loses hkeeps he with rfl | he
    · decide
    · exact hpost e he
  rintro ⟨envp', h⟩
  rw [findExecutable, hdirect, Option.bind_some, getPath, pathTokens, getPathLoop_other _ hnone] at h
  cases h

variable (hpre : ∀ e ∈ pre, startsWith e pathVar = false) (hv : IsStr v) (hne : components v ≠ [])
  (hmax : (components v).length ≤ 63) (hkeeps : Keeps place pre.length (pre ++ (pathVar ++ v) :: post).length)

include hpre hkeeps

omit hpost in
theorem loads_return (hcr : v.getD 0 0 = 13) (start : Nat) :
    ¬ Loads A.bytes filename place (pre ++ (pathVar ++ v) :: post) start := by
  obtain ⟨pre', hsub, hcopy⟩ := copyEnv_keeps hkeeps
  rintro ⟨envp', h⟩
  rw [findExecutable, hdirect, Option.bind_some, hcopy, getPath_return (fun e he => hpre e (hsub he)) hcr] at h
  cases h

include hv hmax

theorem loads_iff (hcr : v.getD 0 0 ≠ 13) (start : Nat) :
    Loads A.bytes filename place (pre ++ (pathVar ++ v) :: post) start ↔
      A.locate (target filename ((components v).getLast hne)) = some start := by
  obtain ⟨pre', hsub, hcopy⟩ := copyEnv_keeps hkeeps
  have hfind : findExecutable A.bytes filename place (pre ++ (pathVar ++ v) :: post) =
      some (A.locate (target filename ((components v).getLast hne)), pre' ++ (pathVar ++ cut v) :: post) := by
    rw [findExecutable, hdirect, Option.bind_some, hcopy]
    simp only [getPath_single (fun e he => hpre e (hsub he)) hpost hv hcr hne hmax, Option.bind_some]
    rw [searchPath_dirs A (ne_nil_of_direct hdirect), List.getLast?_eq_some_getLast hne]
    rfl
  rw [Loads, hfind]
  constructor
  · rintro ⟨envp', h⟩
    exact (Prod.mk.inj (Option.some.inj h)).1
  · intro h
    exact ⟨_, by rw [h]⟩

end

/-- The search keeps its promise exactly when no directory holds the file, or `PATH` is
still in the caller's array after the copy loop, with a value that `strtok` does not turn
down, and the last directory and the first one that holds the file have the same file. -/
theorem path_search_iff (A : Archive) (filename : List Byte) (place : Option Nat) (pre post : List (List Byte))
    (v : List Byte) (hpre : ∀ e ∈ pre, startsWith e pathVar = false)
    (hpost : ∀ e ∈ post, startsWith e pathVar = false) (hv : IsStr v) (hne : components v ≠ [])
    (hmax : (components v).length ≤ 63) (hdirect : getElfFile A.bytes filename = some none) :
    FirstHit A filename place (pre ++ (pathVar ++ v) :: post) v ↔
      (∀ d ∈ components v, ∀ e ∈ A.entries, e.name ≠ target filename d) ∨
      (Keeps place pre.length (pre ++ (pathVar ++ v) :: post).length ∧ v.getD 0 0 ≠ 13 ∧
        A.locate (target filename ((components v).getLast hne)) =
          (components v).findSome? fun d => A.locate (target filename d)) := by
  have hsome := exists_target_iff A filename (components v)
  have hnone : (∀ d ∈ components v, ∀ e ∈ A.entries, e.name ≠ target filename d) ↔
      ¬ ∃ d ∈ components v, ∃ e ∈ A.entries, e.name = target filename d := by
    push Not
    rfl
  rw [hnone]
  by_cases hgood : Keeps place pre.length (pre ++ (pathVar ++ v) :: post).length ∧ v.getD 0 0 ≠ 13
  · obtain ⟨hkeeps, hcr⟩ := hgood
    have hload := loads_iff hpost hdirect hpre hv hne hmax hkeeps hcr
    constructor
    · intro h
      cases hlast : A.locate (target filename ((components v).getLast hne)) with
      | none =>
        refine Or.inl fun hd => ?_
        obtain ⟨start, hs⟩ := h.exists_iff.mpr hd
        rw [hload, hlast] at hs
        cases hs
      | some start => exact Or.inr ⟨hkeeps, hcr, (h.first start ((hload start).mpr hlast)).symm⟩
    · rintro (hno | ⟨-, -, heq⟩)
      · have hlast : A.locate (target filename ((components v).getLast hne)) = none := by
          rw [A.locate_eq_none]
          intro e he hname
          exact hno ⟨_, List.getLast_mem hne, e, he, hname⟩
        have hload' : ∀ start, ¬ Loads A.bytes filename place (pre ++ (pathVar ++ v) :: post) start := by
          intro start hs
          rw [hload, hlast] at hs
          cases hs
        exact ⟨⟨fun ⟨start, hs⟩ => absurd hs (hload' start), fun hd => absurd hd hno⟩,
          fun start hs => absurd hs (hload' start)⟩
      · refine ⟨?_, ?_⟩
        · rw [hsome]
          simp only [hload, heq]
        · intro start hs
          rw [← heq]
          exact (hload start).mp hs
  · -- nothing is loaded
    have hload : ∀ start, ¬ Loads A.bytes filename place (pre ++ (pathVar ++ v) :: post) start := by
      by_cases hkeeps : Keeps place pre.length (pre ++ (pathVar ++ v) :: post).length
      · have hcr : v.getD 0 0 = 13 := by
          by_contra hcr
          exact hgood ⟨hkeeps, hcr⟩
        exact loads_return hdirect hpre hkeeps hcr
      · exact loads_lost hpost hdirect hkeeps
    constructor
    · intro h
      exact Or.inl fun hd => by
        obtain ⟨start, hs⟩ := h.exists_iff.mpr hd
        exact hload start hs
    · rintro (hno | ⟨hkeeps, hcr, -⟩)
      · exact ⟨⟨fun ⟨start, hs⟩ => absurd hs (hload start), fun hd => absurd hd hno⟩,
          fun start hs => absurd hs (hload start)⟩
      · exact absurd ⟨hkeeps, hcr⟩ hgood

def oneProgram : Archive where
  entries := [plainEntry [98, 47, 120, 121] [] ⟨by decide, by decide, by decide⟩]
  zeroBlocks := 2
  two_le := two_blocks
  small := by decide +kernel

/-- With `PATH=/b` in an array of the caller's own the program `xy` is found. -/
theorem path_search_iff_found : FirstHit oneProgram [120, 121] none [pathVar ++ [47, 98]] [47, 98] :=
  (path_search_iff oneProgram [120, 121] none [] [] [47, 98] (by simp) (by simp) (by decide) (by decide)
    (by decide) (by decide +kernel)).mpr (Or.inr ⟨keeps_own 0 1, by decide, by decide⟩)

/-- With `PATH=/b;/c` it is not loaded. -/
theorem path_search_forgets : getElfFile oneProgram.bytes [120, 121] = some none ∧
    ¬ FirstHit oneProgram [120, 121] none [pathVar ++ [47, 98, 59, 47, 99]] [47, 98, 59, 47, 99] := by
  refine ⟨by decide +kernel, fun h => ?_⟩
  obtain ⟨start, envp', hs⟩ := h.exists_iff.mpr ⟨[47, 98], by decide, _, List.mem_singleton_self _, rfl⟩
  have hfind : (findExecutable oneProgram.bytes [120, 121] none [pathVar ++ [47, 98, 59, 47, 99]]).map Prod.fst =
      some none := by decide +kernel
  rw [hs] at hfind
  cases hfind

end PathSearch
