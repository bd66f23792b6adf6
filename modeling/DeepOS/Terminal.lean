import DeepOS.Console
import DeepOS.Formatters

/-!
# The console as a window on paper

What is printed stands on a sheet of paper without end, and rows 0 to 22 of the screen are
a window on it. `scroll` moves the 22 lower rows up cell by cell and blanks the last one;
on the paper it moves the window down by one row, and no cell changes.
-/
namespace Terminal

open Console

/-- A sheet, the first of the 23 rows in the window, and the place of the cursor. -/
structure Paper where
  cells : Nat → Nat → BitVec 16
  top : Nat
  row : Nat
  col : Nat

/-! ## Printing on paper -/

def Paper.write (p : Paper) (w : BitVec 16) : Paper :=
  { p with cells := fun r c => if r = p.row ∧ c = p.col then w else p.cells r c }

/-- From the first column to the end of the row above, or of the same row at the top of the
window. -/
def Paper.stepBack (p : Paper) : Paper :=
  if 0 < p.col then { p with col := p.col - 1 }
  else { p with row := if p.top < p.row then p.row - 1 else p.row, col := 79 }

def Paper.newline (p : Paper) : Paper := { p with row := p.row + 1, col := 0 }

def Paper.tab (p : Paper) : Paper :=
  { p with row := if p.col + 8 > 79 then p.row + 1 else p.row, col := (p.col + 8) % 80 }

def Paper.printable (p : Paper) (w : BitVec 16) : Paper := { p.write w with col := p.col + 1 }

def Paper.type (p : Paper) (c : BitVec 8) (attr : BitVec 16) : Paper :=
  if c = 0x08 then p.stepBack.write 0x20
  else if c = 0x0A then p.newline
  else if c = 0x09 then p.tab
  else if Printable c then p.printable (c.setWidth 16 ||| attr)
  else p

/-- A cursor below the window pulls it down, and goes to the first column. -/
def Paper.pull (p : Paper) : Paper :=
  if p.top + 22 < p.row then { p with top := p.top + 1, col := 0 } else p

def Paper.step (p : Paper) (call : Call) : Paper :=
  (p.type call.c (if call.bold then 0x0800 else 0)).pull

/-- The sheet under a screen is blank below it. -/
def paperOf (s : Screen) : Paper where
  cells r c := if r < 23 then s.cells (r * 80 + c) else 0x0F20
  top := 0
  row := s.yCord.toNat
  col := s.xCord.toNat

/-- The screen shows the window, with one row less before `scroll`. -/
structure Near (s : Screen) (p : Paper) : Prop where
  cells : ∀ r : Nat, r < 23 → ∀ c : Nat, c < 80 → s.cells ((r : Int) * 80 + c) = p.cells (p.top + r) c
  fresh : ∀ r, p.top + 22 < r → ∀ c, p.cells r c = 0x0F20
  xCord : s.xCord = p.col
  yCord : s.yCord + p.top = p.row
  col : p.col < 80
  above : p.top ≤ p.row
  below : p.row ≤ p.top + 23

structure Shows (s : Screen) (p : Paper) : Prop extends Near s p where
  inside : p.row ≤ p.top + 22

/-! ## Scrolling -/

theorem moveUp_cells (s : Screen) (n : Nat) (i : Int) : ((List.range n).foldl moveUp s).cells i =
    if 0 ≤ i ∧ i < n then s.cells (i + 80) else s.cells i := by
  induction n generalizing i with
  | zero =>
    rw [if_neg (by omega)]
    rfl
  | succ n ih =>
    rw [List.range_succ, List.foldl_append, List.foldl_cons, List.foldl_nil, moveUp, Screen.store]
    dsimp only
    by_cases hi : i = n
    · subst hi
      rw [Function.update_self, ih, if_neg (by omega), if_pos (by omega)]
    · rw [Function.update_of_ne hi, ih]
      by_cases hlt : 0 ≤ i ∧ i < n
      · rw [if_pos hlt, if_pos (by omega)]
      · rw [if_neg hlt, if_neg (by omega)]

theorem blankCell_cells (s : Screen) (n : Nat) (i : Int) : ((List.range n).foldl blankCell s).cells i =
    if 22 * 80 ≤ i ∧ i < 22 * 80 + n then 0x0F20 else s.cells i := by
  induction n generalizing i with
  | zero =>
    rw [if_neg (by omega)]
    rfl
  | succ n ih =>
    rw [List.range_succ, List.foldl_append, List.foldl_cons, List.foldl_nil, blankCell, Screen.store]
    dsimp only
    by_cases hi : i = 22 * 80 + n
    · subst hi
      rw [Function.update_self, if_pos (by omega)]
    · rw [Function.update_of_ne hi, ih]
      by_cases hlt : 22 * 80 ≤ i ∧ i < 22 * 80 + n
      · rw [if_pos hlt, if_pos (by omega)]
      · rw [if_neg hlt, if_neg (by omega)]

/-- Every row shows what the row below it has shown, and the last one is blank. -/
theorem moveRows_cells (s : Screen) {r c : Nat} (hr : r < 23) (hc : c < 80) :
    (moveRows s).cells ((r : Int) * 80 + c) = if r < 22 then s.cells ((r + 1 : Nat) * 80 + c) else 0x0F20 := by
  rw [moveRows, blankCell_cells, moveUp_cells]
  by_cases hlast : r < 22
  · rw [if_neg (by omega), if_pos (by omega), if_pos hlast]
    congr 1
    omega
  · rw [if_pos (by omega), if_neg hlast]

theorem moveRows_below (s : Screen) {i : Int} (hi : 23 * 80 ≤ i) : (moveRows s).cells i = s.cells i := by
  rw [moveRows, blankCell_cells, moveUp_cells, if_neg (by omega), if_neg (by omega)]

variable {s s' : Screen} {p : Paper}

theorem scroll_shows (h : Near s p) : Shows (scroll s) p.pull := by
  have hy := h.yCord
  by_cases hlow : p.top + 22 < p.row
  · have hscroll : scroll s = { moveRows s with xCord := 0, yCord := 22 } := if_pos (by omega)
    have hpull : p.pull = { p with top := p.top + 1, col := 0 } := if_pos hlow
    rw [hscroll, hpull]
    have hbelow := h.below
    refine ⟨⟨?_, ?_, rfl, ?_, Nat.zero_lt_succ _, ?_, ?_⟩, ?_⟩
    · intro r hr c hc
      dsimp only
      rw [moveRows_cells s hr hc]
      by_cases hlast : r < 22
      · rw [if_pos hlast, h.cells (r + 1) (by omega) c hc, Nat.add_right_comm, Nat.add_assoc]
      · rw [if_neg hlast, h.fresh _ (by omega)]
    · exact fun r hr c => h.fresh r (by dsimp only at hr; omega) c
    all_goals dsimp only; omega
  · have hscroll : scroll s = s := if_neg (by omega)
    have hpull : p.pull = p := if_neg hlow
    rw [hscroll, hpull]
    exact ⟨h, by omega⟩

/-! ## One character -/

/-- A cell of the window is written. -/
theorem Near.write (h : Near s p) (hin : p.row ≤ p.top + 22) (w : BitVec 16) : Near (s.store s.loc w) (p.write w) := by
  have hx := h.xCord
  have hy := h.yCord
  have hcol := h.col
  have habove := h.above
  refine ⟨?_, ?_, hx, hy, hcol, habove, h.below⟩
  · intro r hr c hc
    simp only [Screen.store, Paper.write, Screen.loc]
    by_cases hat : p.top + r = p.row ∧ c = p.col
    · rw [if_pos hat, Function.update_apply, if_pos (by omega)]
    · rw [if_neg hat, Function.update_apply, if_neg (by omega)]
      exact h.cells r hr c hc
  · intro r hr c
    dsimp only [Paper.write] at hr ⊢
    rw [if_neg (by omega)]
    exact h.fresh r hr c

theorem Near.stepBack (h : Shows s p) : Near (stepBack s) p.stepBack ∧ p.stepBack.row ≤ p.top + 22 := by
  obtain ⟨⟨hcells, hfresh, hx, hy, hcol, habove, hbelow⟩, hinside⟩ := h
  rw [Console.stepBack, Paper.stepBack]
  by_cases hleft : 0 < p.col
  · rw [if_pos (by omega), if_pos hleft]
    exact ⟨⟨hcells, hfresh, by dsimp only; omega, hy, by dsimp only; omega, habove, hbelow⟩, hinside⟩
  · rw [if_neg (by omega), if_neg hleft]
    by_cases hup : p.top < p.row
    · have hpos : s.yCord > 0 := by omega
      refine ⟨⟨hcells, hfresh, rfl, ?_, by dsimp only; omega, ?_, ?_⟩, ?_⟩
      all_goals simp only [if_pos hup, if_pos hpos]; omega
    · have hzero : ¬ s.yCord > 0 := by omega
      refine ⟨⟨hcells, hfresh, rfl, ?_, by dsimp only; omega, ?_, ?_⟩, ?_⟩
      all_goals simp only [if_neg hup, if_neg hzero]; omega

theorem Near.newline (h : Shows s p) : Near (newline s) p.newline := by
  have hy := h.yCord
  have habove := h.above
  have hinside := h.inside
  refine ⟨h.cells, h.fresh, rfl, ?_, Nat.zero_lt_succ _, ?_, ?_⟩
  all_goals simp only [Console.newline, Paper.newline]; omega

theorem Near.tab (h : Shows s p) : Near (tab s) p.tab := by
  have hx := h.xCord
  have hy := h.yCord
  have hcol := h.col
  have habove := h.above
  have hinside := h.inside
  have hcast : (s.xCord + 8).tmod 80 = ((p.col + 8) % 80 : Nat) := by
    rw [hx]
    exact (Int.ofNat_tmod (p.col + 8) 80).symm
  refine ⟨h.cells, h.fresh, hcast, ?_, Nat.mod_lt _ (by decide), ?_, ?_⟩
  all_goals
    simp only [Console.tab, Paper.tab]
    split_ifs <;> omega

theorem Near.printable (h : Shows s p) {c : BitVec 8} {attr : BitVec 16} (hfit : s.xCord < 79) :
    Near (printable s c attr) (p.printable (c.setWidth 16 ||| attr)) := by
  have hx := h.xCord
  obtain ⟨hcells, hfresh, hx', hy, hcol, habove, hbelow⟩ := h.toNear.write h.inside (c.setWidth 16 ||| attr)
  refine ⟨hcells, hfresh, ?_, hy, ?_, habove, hbelow⟩
  all_goals simp only [Console.printable, Paper.printable, Paper.write]; omega

/-- A call that fits does on the screen what it does on the paper. -/
theorem step_shows {call : Call} (h : Shows s p) (hfit : Fits s call) (hs : Console.step s call = some s') :
    Shows s' (p.step call) := by
  rw [step_eq, Option.some.injEq] at hs
  subst hs
  have hcursor : ∀ {u : Screen} {q : Paper}, Shows u q → Shows (if call.inKernelMode then updateCursor u else u) q := by
    intro u q hu
    split
    · exact ⟨⟨hu.cells, hu.fresh, hu.xCord, hu.yCord, hu.col, hu.above, hu.below⟩, hu.inside⟩
    · exact hu
  refine hcursor (scroll_shows ?_)
  rw [Paper.type]
  by_cases hback : call.c = 0x08
  · rw [if_pos hback, if_pos hback]
    obtain ⟨hnear, hin⟩ := Near.stepBack h
    have htop : p.stepBack.top = p.top := by
      rw [Paper.stepBack]
      split <;> rfl
    exact hnear.write (by omega) 0x20
  rw [if_neg hback, if_neg hback]
  by_cases hnew : call.c = 0x0A
  · rw [if_pos hnew, if_pos hnew]
    exact Near.newline h
  rw [if_neg hnew, if_neg hnew]
  by_cases htab : call.c = 0x09
  · rw [if_pos htab, if_pos htab]
    exact Near.tab h
  rw [if_neg htab, if_neg htab]
  by_cases hp : Printable call.c
  · rw [if_pos hp, if_pos hp]
    exact Near.printable h (hfit hp)
  · rw [if_neg hp, if_neg hp]
    exact h.toNear

structure OnScreen (s : Screen) : Prop where
  left : 0 ≤ s.xCord
  right : s.xCord < 80
  top : 0 ≤ s.yCord
  bottom : s.yCord ≤ 22

theorem shows_paperOf (h : OnScreen s) : Shows s (paperOf s) := by
  obtain ⟨hl, hr, ht, hb⟩ := h
  refine ⟨⟨?_, ?_, ?_, ?_, ?_, Nat.zero_le _, ?_⟩, ?_⟩
  · intro r hr c _
    simp only [paperOf, Nat.zero_add, if_pos hr]
  · intro r hr c
    exact if_neg (by dsimp only [paperOf] at hr; omega)
  all_goals dsimp only [paperOf]; omega

theorem Shows.onScreen (h : Shows s p) : OnScreen s := by
  have hx := h.xCord
  have hy := h.yCord
  have hcol := h.col
  have habove := h.above
  have hinside := h.inside
  exact ⟨by omega, by omega, by omega, by omega⟩

theorem onScreen_start (cells : Int → BitVec 16) : OnScreen (Screen.start cells) :=
  ⟨le_rfl, (by decide : (0 : Int) < 80), le_rfl, (by decide : (0 : Int) ≤ 22)⟩

/-! ## Runs -/

def Paper.run (p : Paper) (calls : List Call) : Paper := calls.foldl Paper.step p

theorem Paper.run_append (p : Paper) (calls rest : List Call) : p.run (calls ++ rest) = (p.run calls).run rest :=
  List.foldl_append

theorem run_shows {calls : List Call} (h : Shows s p) (hfit : Transition.Along Console.step Fits s calls)
    (hs : Transition.run Console.step s calls = some s') : Shows s' (p.run calls) := by
  induction calls generalizing s p with
  | nil =>
    obtain rfl := Option.some.inj hs
    exact h
  | cons call calls ih =>
    obtain ⟨u, hu, hrest⟩ := (Transition.run_cons_eq_some _).mp hs
    exact ih (step_shows h hfit.1 hu) (hfit.2 u hu) hrest

theorem consoleRun_isSome (s : Screen) (calls : List Call) : ∃ s', Transition.run Console.step s calls = some s' := by
  induction calls generalizing s with
  | nil => exact ⟨s, rfl⟩
  | cons call calls ih =>
    obtain ⟨s', hs⟩ := ih _
    exact ⟨s', (Transition.run_cons_eq_some _).mpr ⟨_, step_eq s call, hs⟩⟩

theorem pull_top (q : Paper) : q.top ≤ q.pull.top ∧ q.pull.cells = q.cells ∧ (q.top ≤ q.row → q.pull.top ≤ q.pull.row) := by
  rw [Paper.pull]
  split
  · exact ⟨Nat.le_succ _, rfl, fun _ => by dsimp only; omega⟩
  · exact ⟨le_rfl, rfl, id⟩

/-- What stands above the window stays as it is. -/
theorem step_above (habove : p.top ≤ p.row) (call : Call) : p.top ≤ (p.step call).top ∧
    (p.step call).top ≤ (p.step call).row ∧ ∀ r < p.top, ∀ c, (p.step call).cells r c = p.cells r c := by
  have hback : p.stepBack.top = p.top ∧ p.top ≤ p.stepBack.row ∧ p.stepBack.cells = p.cells := by
    rw [Paper.stepBack]
    split
    · exact ⟨rfl, habove, rfl⟩
    · refine ⟨rfl, ?_, rfl⟩
      dsimp only
      split <;> omega
  have htype : ∀ attr, (p.type call.c attr).top = p.top ∧ p.top ≤ (p.type call.c attr).row ∧
      ∀ r < p.top, ∀ c, (p.type call.c attr).cells r c = p.cells r c := by
    intro attr
    rw [Paper.type]
    split_ifs
    · obtain ⟨htop, hrow, hcells⟩ := hback
      refine ⟨htop, hrow, fun r hr c => ?_⟩
      rw [Paper.write, hcells]
      exact if_neg (by omega)
    · exact ⟨rfl, by dsimp only [Paper.newline]; omega, fun _ _ _ => rfl⟩
    · refine ⟨rfl, ?_, fun _ _ _ => rfl⟩
      dsimp only [Paper.tab]
      split <;> omega
    · exact ⟨rfl, habove, fun r hr c => if_neg (by omega)⟩
    · exact ⟨rfl, habove, fun _ _ _ => rfl⟩
  obtain ⟨htop, hrow, hcells⟩ := htype (if call.bold then 0x0800 else 0)
  obtain ⟨hpull, hsame, hle⟩ := pull_top (p.type call.c (if call.bold then 0x0800 else 0))
  refine ⟨by rw [Paper.step]; omega, hle (by omega), fun r hr c => ?_⟩
  rw [Paper.step, hsame]
  exact hcells r hr c

theorem run_above (calls : List Call) (habove : p.top ≤ p.row) : p.top ≤ (p.run calls).top ∧
    ∀ r < p.top, ∀ c, (p.run calls).cells r c = p.cells r c := by
  induction calls generalizing p with
  | nil => exact ⟨le_rfl, fun _ _ _ => rfl⟩
  | cons call calls ih =>
    obtain ⟨htop, hrow, hcells⟩ := step_above habove call
    obtain ⟨htop', hcells'⟩ := ih hrow
    exact ⟨htop.trans htop', fun r hr c => (hcells' r (by omega) c).trans (hcells r hr c)⟩

/-- For every sequence of calls that fit, the screen shows the window of the sheet on which the
same is printed, and what has left the window at the top is not changed any more. -/
theorem console_shows_paper {calls : List Call} (h : OnScreen s) (hfit : Transition.Along Console.step Fits s calls)
    (hs : Transition.run Console.step s calls = some s') : Shows s' ((paperOf s).run calls) ∧
      ∀ done rest, calls = done ++ rest → ∀ r < ((paperOf s).run done).top, ∀ c,
        ((paperOf s).run calls).cells r c = ((paperOf s).run done).cells r c := by
  have hpaper := shows_paperOf h
  refine ⟨run_shows hpaper hfit hs, ?_⟩
  rintro done rest rfl
  have hdone : ∃ u, Transition.run Console.step s done = some u := by
    rw [Transition.run_append, Option.bind_eq_some_iff] at hs
    obtain ⟨u, hu, -⟩ := hs
    exact ⟨u, hu⟩
  obtain ⟨u, hu⟩ := hdone
  have hshows := run_shows hpaper ((Transition.along_append _).mp hfit).1 hu
  rw [Paper.run_append]
  exact (run_above rest hshows.above).2

/-- Two letters, a backspace and a new line. -/
theorem console_shows_paper_letters : ∃ s', Transition.run Console.step (Screen.start fun _ => 0)
    [letter, letter, ⟨true, false, 8⟩, ⟨true, false, 10⟩] = some s' ∧
      Shows s' ((paperOf (Screen.start fun _ => 0)).run [letter, letter, ⟨true, false, 8⟩, ⟨true, false, 10⟩]) := by
  have hfit : Transition.Along Console.step Fits (Screen.start fun _ => 0)
      [letter, letter, ⟨true, false, 8⟩, ⟨true, false, 10⟩] := by
    refine ⟨fun _ => by decide, fun s₁ h₁ => ⟨fun _ => ?_, fun s₂ _ => ⟨fun hp => absurd hp (by decide), fun s₃ _ =>
      ⟨fun hp => absurd hp (by decide), fun _ _ => trivial⟩⟩⟩⟩
    obtain rfl := Option.some.inj h₁
    decide
  exact ⟨_, rfl, (console_shows_paper (onScreen_start _) hfit rfl).1⟩

/-! ## Lines -/

/-- Every call fits, as the place of the cursor on the paper tells. -/
def Paper.Fits : Paper → List Call → Prop
  | _, [] => True
  | p, call :: calls => (Printable call.c → p.col < 79) ∧ Paper.Fits (p.step call) calls

theorem fits_of_shows {call : Call} (h : Shows s p) (hfit : Printable call.c → p.col < 79) : Console.Fits s call := by
  intro hp
  have hcol := hfit hp
  have hx := h.xCord
  omega

theorem along_of_paper {calls : List Call} (h : Shows s p) (hfit : p.Fits calls) :
    Transition.Along Console.step Console.Fits s calls := by
  induction calls generalizing s p with
  | nil => trivial
  | cons call calls ih =>
    have hcall := fits_of_shows h hfit.1
    exact ⟨hcall, fun u hu => ih (step_shows h hcall hu) hfit.2⟩

def callsOf (bold : Bool) (text : List (BitVec 8)) : List Call := text.map (Call.mk true bold)

def attrOf (bold : Bool) : BitVec 16 := if bold then 0x0800 else 0

def textOf (lines : List (List (BitVec 8))) : List (BitVec 8) := lines.flatMap fun line => line ++ [10]

/-- A line with room behind it, of characters that move the cursor by one. -/
def IsLine (line : List (BitVec 8)) : Prop := line.length < 80 ∧ ∀ c ∈ line, Printable c

/-- The cell of a line from column `col` on, over what the sheet has there. -/
def lineCell (bold : Bool) (l : List (BitVec 8)) (col c : Nat) (below : BitVec 16) : BitVec 16 :=
  if c < col then below else ((l[c - col]?).map fun ch => ch.setWidth 16 ||| attrOf bold).getD below

/-- The sheet with lines printed from row `row` on. -/
def overprint (bold : Bool) (lines : List (List (BitVec 8))) (row : Nat) (below : Nat → Nat → BitVec 16)
    (r c : Nat) : BitVec 16 :=
  if r < row then below r c else ((lines[r - row]?).map fun line => lineCell bold line 0 c (below r c)).getD (below r c)

theorem step_printable (bold : Bool) {c : BitVec 8} (hp : Printable c) (hin : p.row ≤ p.top + 22) :
    p.step ⟨true, bold, c⟩ = p.printable (c.setWidth 16 ||| attrOf bold) := by
  obtain ⟨hback, hnew, htab⟩ := printable_other hp
  rw [Paper.step, Paper.type, if_neg hback, if_neg hnew, if_neg htab, if_pos hp]
  exact if_neg (by dsimp only [Paper.printable, Paper.write]; omega)

theorem lineCell_cons (bold : Bool) (ch : BitVec 8) (l : List (BitVec 8)) (col c : Nat) (below : BitVec 16) :
    lineCell bold l (col + 1) c (if c = col then ch.setWidth 16 ||| attrOf bold else below) =
      lineCell bold (ch :: l) col c below := by
  rcases lt_trichotomy c col with hlt | rfl | hgt
  · rw [lineCell, lineCell, if_pos (by omega), if_pos hlt, if_neg hlt.ne]
  · rw [lineCell, lineCell, if_pos (Nat.lt_succ_self c), if_neg (lt_irrefl c), if_pos rfl, Nat.sub_self]
    rfl
  · rw [lineCell, lineCell, if_neg (show ¬ c < col + 1 by omega), if_neg (show ¬ c < col by omega), if_neg hgt.ne',
      show c - col = c - (col + 1) + 1 by omega, List.getElem?_cons_succ]

theorem run_line (bold : Bool) (line : List (BitVec 8)) : ∀ {p : Paper}, (∀ c ∈ line, Printable c) →
    p.row ≤ p.top + 22 → p.col + line.length < 80 →
      p.Fits (callsOf bold line) ∧ p.run (callsOf bold line) =
        { p with
          cells := fun r c => if r = p.row then lineCell bold line p.col c (p.cells r c) else p.cells r c
          col := p.col + line.length } := by
  induction line with
  | nil =>
    intro p _ _ _
    refine ⟨trivial, ?_⟩
    simp [callsOf, Paper.run, lineCell]
  | cons ch line ih =>
    intro p hp hin hlen
    rw [List.length_cons] at hlen
    have hstep := step_printable bold (hp ch List.mem_cons_self) hin
    obtain ⟨hfit, hrun⟩ := ih (p := p.printable (ch.setWidth 16 ||| attrOf bold))
      (fun c hc => hp c (List.mem_cons_of_mem ch hc)) hin (by dsimp only [Paper.printable, Paper.write]; omega)
    refine ⟨⟨fun _ => by omega, by rw [hstep]; exact hfit⟩, ?_⟩
    show (p.step ⟨true, bold, ch⟩).run (callsOf bold line) = _
    rw [hstep, hrun]
    have hcells : ∀ r c, (if r = p.row then lineCell bold line (p.col + 1) c
        (if r = p.row ∧ c = p.col then ch.setWidth 16 ||| attrOf bold else p.cells r c)
        else if r = p.row ∧ c = p.col then ch.setWidth 16 ||| attrOf bold else p.cells r c) =
        if r = p.row then lineCell bold (ch :: line) p.col c (p.cells r c) else p.cells r c := by
      intro r c
      by_cases hr : r = p.row
      · simp only [hr, true_and, if_true]
        exact lineCell_cons bold ch line p.col c _
      · simp only [hr, false_and, if_false]
    have hcol : p.col + 1 + line.length = p.col + (ch :: line).length := by
      rw [List.length_cons]
      omega
    rw [← hcol]
    exact congrArg (fun f => Paper.mk f p.top p.row (p.col + 1 + line.length)) (funext fun r => funext (hcells r))

theorem fits_append (calls rest : List Call) (p : Paper) :
    p.Fits (calls ++ rest) ↔ p.Fits calls ∧ (p.run calls).Fits rest := by
  induction calls generalizing p with
  | nil => simp [Paper.Fits, Paper.run]
  | cons call calls ih =>
    rw [List.cons_append, Paper.Fits, Paper.Fits, ih, and_assoc]
    rfl

theorem overprint_cons (bold : Bool) (l : List (BitVec 8)) (lines : List (List (BitVec 8))) (row : Nat)
    (below : Nat → Nat → BitVec 16) :
    overprint bold lines (row + 1) (fun r c => if r = row then lineCell bold l 0 c (below r c) else below r c) =
      overprint bold (l :: lines) row below := by
  funext r c
  rcases lt_trichotomy r row with hlt | rfl | hgt
  · rw [overprint, overprint, if_pos (by omega), if_pos hlt, if_neg hlt.ne]
  · rw [overprint, overprint, if_pos (Nat.lt_succ_self r), if_neg (lt_irrefl r), if_pos rfl, Nat.sub_self]
    rfl
  · rw [overprint, overprint, if_neg (show ¬ r < row + 1 by omega), if_neg (show ¬ r < row by omega), if_neg hgt.ne',
      show r - row = r - (row + 1) + 1 by omega, List.getElem?_cons_succ]

theorem step_newline (bold : Bool) (p : Paper) : p.step ⟨true, bold, 10⟩ =
    ⟨p.cells, if p.top + 22 < p.row + 1 then p.top + 1 else p.top, p.row + 1, 0⟩ := by
  have htype : ∀ attr, p.type 10 attr = p.newline := fun attr => rfl
  rw [Paper.step, htype, Paper.pull, Paper.newline]
  dsimp only
  split
  · rfl
  · rfl

/-- The lines stand one below the other, and the window has followed the cursor. -/
theorem run_lines (bold : Bool) (lines : List (List (BitVec 8))) : ∀ {p : Paper}, (∀ l ∈ lines, IsLine l) →
    p.row ≤ p.top + 22 → p.col = 0 →
      p.Fits (callsOf bold (textOf lines)) ∧ p.run (callsOf bold (textOf lines)) =
        ⟨overprint bold lines p.row p.cells, max p.top (p.row + lines.length - 22), p.row + lines.length, 0⟩ := by
  induction lines with
  | nil =>
    rintro ⟨cells, top, row, col⟩ _ hin hcol
    dsimp only at hin hcol ⊢
    have htop : max top (row + 0 - 22) = top := by omega
    have hcells : overprint bold [] row cells = cells := by
      funext r c
      rw [overprint]
      split
      · rfl
      · rfl
    refine ⟨trivial, ?_⟩
    rw [List.length_nil, htop, hcells, hcol]
    rfl
  | cons l lines ih =>
    intro p hlines hin hcol
    obtain ⟨hlen, hp⟩ := hlines l List.mem_cons_self
    obtain ⟨hfit, hrun⟩ := run_line bold l hp hin (by omega)
    have htext : callsOf bold (textOf (l :: lines)) =
        callsOf bold l ++ (⟨true, bold, 10⟩ :: callsOf bold (textOf lines)) := by
      simp [callsOf, textOf]
    rw [htext, fits_append, Paper.run_append, hrun]
    have hnext := step_newline bold
      { p with
        cells := fun r c => if r = p.row then lineCell bold l p.col c (p.cells r c) else p.cells r c
        col := p.col + l.length }
    dsimp only at hnext
    obtain ⟨hfit', hrun'⟩ := ih (p := ⟨fun r c => if r = p.row then lineCell bold l p.col c (p.cells r c) else p.cells r c,
      if p.top + 22 < p.row + 1 then p.top + 1 else p.top, p.row + 1, 0⟩)
      (fun m hm => hlines m (List.mem_cons_of_mem l hm)) (by dsimp only; split_ifs <;> omega) rfl
    refine ⟨⟨hfit, fun hnl => absurd hnl (by decide : ¬ Printable 10), by rw [hnext]; exact hfit'⟩, ?_⟩
    rw [Paper.run, List.foldl_cons, hnext]
    refine hrun'.trans ?_
    dsimp only
    rw [hcol, overprint_cons, List.length_cons]
    congr 1
    · split_ifs <;> omega
    · omega

/-! ## What `printf` puts on the screen -/

/-- The screen shows the lines from the cursor's row on, and below them the cursor at the start
of a row; all of it has moved up by as many rows as did not fit. -/
structure ShowsLines (bold : Bool) (lines : List (List (BitVec 8))) (s s' : Screen) : Prop where
  cells : ∀ r : Nat, r < 23 → ∀ c : Nat, c < 80 → s'.cells ((r : Int) * 80 + c) =
    overprint bold lines s.yCord.toNat (paperOf s).cells (s.yCord.toNat + lines.length - 22 + r) c
  xCord : s'.xCord = 0
  yCord : s'.yCord = min (s.yCord + lines.length) 22

theorem lines_shown (bold : Bool) {lines : List (List (BitVec 8))} (h : OnScreen s) (hx : s.xCord = 0)
    (hlines : ∀ l ∈ lines, IsLine l) : ∃ s', Transition.run Console.step s (callsOf bold (textOf lines)) = some s' ∧
      OnScreen s' ∧ ShowsLines bold lines s s' := by
  have hpaper := shows_paperOf h
  obtain ⟨hfit, hrun⟩ := run_lines bold lines hlines hpaper.inside
    (show (paperOf s).col = 0 by rw [paperOf, hx]; rfl)
  have halong := along_of_paper hpaper hfit
  obtain ⟨s', hs⟩ := consoleRun_isSome s (callsOf bold (textOf lines))
  have hshows := run_shows hpaper halong hs
  have htop := h.top
  have hbottom := h.bottom
  have hrow : (paperOf s).row = s.yCord.toNat := rfl
  rw [hrun] at hshows
  refine ⟨s', hs, hshows.onScreen, ⟨fun r hr c hc => ?_, hshows.xCord, ?_⟩⟩
  · rw [hshows.cells r hr c hc]
    dsimp only [paperOf]
    congr 1
  · have hy := hshows.yCord
    dsimp only [paperOf] at hy
    omega

open CString (Byte strAt)
open PhyMem (Word)
open Printf (puts libcString)
open Formatters (SameMeaning Bounded)

def kernelPrintf (s : Screen) (mem : Word → List Byte) (args : Nat → Word) (str : List Byte) : Option Screen :=
  (puts mem args str).bind fun out => Transition.run Console.step s (callsOf false out.chars)

/-- The system call with number 0: the string up to its terminator. -/
def print (s : Screen) (strPtr : List Byte) : Option Screen :=
  Transition.run Console.step s (callsOf false (strAt strPtr 0))

/-- `printf` of the C library makes a string and hands it to the kernel. -/
def libcPrintf (s : Screen) (mem : Word → List Byte) (args : Nat → Word) (str : List Byte) : Option Screen :=
  (libcString mem args str).bind fun out => print s out.chars

/-- A format that stands for lines, of which the library stores at most 1000 bytes: the kernel and
a program leave the same screen, and it shows the lines. -/
theorem printf_shown {mem : Word → List Byte} {args : Nat → Word} {str : List Byte} {lines : List (List Byte)}
    (h : OnScreen s) (hx : s.xCord = 0) (hlines : ∀ l ∈ lines, IsLine l)
    (hmeans : SameMeaning mem args str (textOf lines)) (hfits : Bounded mem args str) :
    ∃ s', kernelPrintf s mem args str = some s' ∧ libcPrintf s mem args str = some s' ∧ ShowsLines false lines s s' := by
  obtain ⟨s', hs, -, hshown⟩ := lines_shown false h hx hlines
  obtain ⟨⟨kout, hkout, hkchars, -⟩, ⟨lout, hlout, hlchars, -⟩⟩ := hmeans
  have hstored : libcString mem args str = some lout := by
    obtain ⟨-, out, hout, hle⟩ := hfits
    obtain rfl : lout = out := Option.some.inj (hlout.symm.trans hout)
    exact Option.filter_eq_some_iff.mpr ⟨hlout, decide_eq_true hle⟩
  refine ⟨s', ?_, ?_, hshown⟩
  · rw [kernelPrintf, hkout, Option.bind_some, hkchars, hs]
  · rw [libcPrintf, hstored, Option.bind_some, print, hlchars, hs]

/-- `printf("%d\n", 42)` on the screen that the kernel starts with. -/
theorem printf_shown_number : ∃ s', kernelPrintf (Screen.start fun _ => 0) (fun _ => []) (fun _ => 42) [37, 100, 10] = some s' ∧
    libcPrintf (Screen.start fun _ => 0) (fun _ => []) (fun _ => 42) [37, 100, 10] = some s' ∧
      s'.cells 0 = 52 ∧ s'.cells 1 = 50 := by
  have hmeans : SameMeaning (fun _ => []) (fun _ => 42) [37, 100, 10] (textOf [[52, 50]]) :=
    ⟨⟨⟨[52, 50, 10], 3⟩, rfl, rfl, rfl⟩, ⟨⟨[52, 50, 10, 0], 3⟩, rfl, rfl, rfl⟩⟩
  have hlines : ∀ l ∈ [[(52 : Byte), 50]], IsLine l := by
    intro l hl
    rw [List.mem_singleton.mp hl]
    exact ⟨by decide, by decide⟩
  have hfits : Bounded (fun _ => []) (fun _ => 42) [37, 100, 10] := ⟨⟨_, rfl⟩, ⟨[52, 50, 10, 0], 3⟩, rfl, by decide⟩
  obtain ⟨s', hkernel, hlibc, hshown⟩ := printf_shown (onScreen_start _) rfl hlines hmeans hfits
  have hfirst := hshown.cells 0 (by decide) 0 (by decide)
  have hsecond := hshown.cells 0 (by decide) 1 (by decide)
  exact ⟨s', hkernel, hlibc, hfirst, hsecond⟩

end Terminal
