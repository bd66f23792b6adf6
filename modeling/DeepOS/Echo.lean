import DeepOS.Keyboard
import DeepOS.Terminal

/-!
# The echo

`keyboard_handler` puts a key into the line buffer and prints it in bold. Only the buffer knows
where the line begins, and only the screen knows which characters cannot be printed and where a
row ends. The line on the screen is the line in the buffer as long as no key is at odds with
the other side.
-/
namespace Echo

open CString Console Keyboard
open Terminal (OnScreen)

structure Machine where
  input : Input
  screen : Screen

def echo (s : Input) (scancode : BitVec 8) : List Call :=
  match keyOf s.shiftPressed scancode with
  | .shift _ => []
  | .enter => [⟨true, true, 0x0A⟩]
  | .char c => [⟨true, true, c⟩]
  | .other => []

def step (m : Machine) (scancode : BitVec 8) : Option Machine :=
  (keyboardHandler m.input scancode).bind fun s =>
    (Transition.run Console.step m.screen (echo m.input scancode)).map fun u => ⟨s, u⟩

/-- On the screen the line stands where the cursor was at the request, with the cursor behind it;
what stood before is as it was, and behind the line nothing is left of what was deleted. -/
structure LineShown (u : Screen) (m : Machine) : Prop where
  typing : m.input.enterPressed = false
  row : m.screen.yCord = u.yCord
  col : m.screen.xCord = u.xCord + m.input.curBuffIndex
  right : m.screen.xCord < 80
  before : ∀ i < u.loc, m.screen.cells i = u.cells i
  line : ∀ i < m.input.curBuffIndex, m.screen.cells (u.loc + i) = (m.input.buff i).setWidth 16 ||| 0x0800
  behind : ∀ i, u.loc + m.input.curBuffIndex ≤ i → m.screen.cells i = u.cells i ∨ m.screen.cells i = 0x20

/-- A character has room in the row, and a backspace something to delete. -/
def InPlace (m : Machine) (scancode : BitVec 8) : Prop :=
  match keyOf m.input.shiftPressed scancode with
  | .shift _ => True
  | .enter => False
  | .char c => if c = 0x08 then 0 < m.input.curBuffIndex else Printable c ∧ m.screen.xCord < 79
  | .other => True

variable {u : Screen} {m m' : Machine}

/-! ## The screen -/

theorem scroll_eq {s : Screen} (h : s.yCord ≤ 22) : scroll s = s := if_neg (by omega)

/-- A printable character. -/
theorem bold_printable {s : Screen} {c : Byte} (hp : Printable c) (hy : s.yCord ≤ 22) :
    putcWithAttr true s c 0x0800 = updateCursor (printable s c 0x0800) := by
  obtain ⟨h₁, h₂, h₃⟩ := printable_other hp
  have hscroll : scroll (printable s c 0x0800) = printable s c 0x0800 := scroll_eq hy
  rw [putcWithAttr, if_neg h₁, if_neg h₂, if_neg h₃, if_pos hp, hscroll, if_pos rfl]

theorem stepBack_row {s : Screen} (hy : s.yCord ≤ 22) : (stepBack s).yCord ≤ 22 := by
  rw [stepBack]
  split
  · exact hy
  · dsimp only
    split <;> omega

theorem bold_backspace {s : Screen} (hy : s.yCord ≤ 22) :
    putcWithAttr true s 0x08 0x0800 = updateCursor (backspace s) := by
  have hscroll : scroll (backspace s) = backspace s := scroll_eq (stepBack_row hy)
  exact congrArg updateCursor hscroll

/-- Within the row a backspace blanks the cell before the cursor. -/
theorem backspace_left {s : Screen} (hx : s.xCord > 0) : (backspace s).xCord = s.xCord - 1 ∧
    (backspace s).yCord = s.yCord ∧ ∀ i, (backspace s).cells i = if i = s.loc - 1 then 0x20 else s.cells i := by
  have hback : stepBack s = { s with xCord := s.xCord - 1 } := if_pos hx
  have hat : (stepBack s).loc = s.loc - 1 := by
    rw [hback, Screen.loc, Screen.loc]
    dsimp only
    omega
  rw [backspace, Screen.store, hat, hback]
  exact ⟨rfl, rfl, fun i => Function.update_apply ..⟩

/-- Any other character does not take the cursor one column further. -/
theorem bold_other {s : Screen} {c : Byte} (hp : ¬ Printable c) (hc : c ≠ 0x08) (hx : 0 ≤ s.xCord) (hright : s.xCord < 80) :
    (putcWithAttr true s c 0x0800).xCord ≠ s.xCord + 1 := by
  have hscroll : ∀ v : Screen, (scroll v).xCord = v.xCord ∨ (scroll v).xCord = 0 := by
    intro v
    rw [scroll]
    split
    · exact Or.inr rfl
    · exact Or.inl rfl
  have hmove : ∀ v : Screen, v.xCord ≠ s.xCord + 1 → (updateCursor (scroll v)).xCord ≠ s.xCord + 1 := by
    intro v hv heq
    rcases hscroll v with h | h
    · exact hv (h.symm.trans heq)
    · have hzero : (0 : Int) = s.xCord + 1 := h.symm.trans heq
      omega
  rw [putcWithAttr, if_neg hc, if_neg hp, if_pos rfl]
  apply hmove
  split
  · rw [newline]
    dsimp only
    omega
  · split
    · rw [tab]
      dsimp only
      rw [Int.tmod_eq_emod_of_nonneg (by omega)]
      omega
    · omega

/-! ## One key -/

theorem step_silent {scancode : BitVec 8} (h : keyOf m.input.shiftPressed scancode = .other ∨
      ∃ down, keyOf m.input.shiftPressed scancode = .shift down) (hs : step m scancode = some m') :
    m'.screen = m.screen ∧ m'.input.enterPressed = m.input.enterPressed ∧
      m'.input.curBuffIndex = m.input.curBuffIndex ∧ m'.input.buff = m.input.buff := by
  rcases h with hkey | ⟨down, hkey⟩
  · rw [step, keyboardHandler, echo, hkey] at hs
    obtain rfl := Option.some.inj hs
    exact ⟨rfl, rfl, rfl, rfl⟩
  · rw [step, keyboardHandler, echo, hkey] at hs
    obtain rfl := Option.some.inj hs
    exact ⟨rfl, rfl, rfl, rfl⟩

/-- A character goes to the buffer and to the screen. -/
theorem step_char {scancode : BitVec 8} {c : Byte} (hkey : keyOf m.input.shiftPressed scancode = .char c)
    (htyping : m.input.enterPressed = false) (hs : step m scancode = some m') :
    putKey m.input c = some m'.input ∧ m'.screen = putcWithAttr true m.screen c 0x0800 := by
  rw [step, keyboardHandler, echo, hkey] at hs
  dsimp only at hs
  rw [if_neg (by rw [htyping]; decide), Option.bind_eq_some_iff] at hs
  obtain ⟨s, hput, hs⟩ := hs
  obtain rfl := Option.some.inj hs
  exact ⟨hput, rfl⟩

theorem LineShown.bounds (h : LineShown u m) (hu : OnScreen u) : 0 ≤ m.screen.xCord ∧ m.screen.yCord ≤ 22 ∧
    m.input.curBuffIndex < BUFF_SIZE ∧ m.screen.loc = u.loc + m.input.curBuffIndex := by
  have hleft := hu.left
  have hbottom := hu.bottom
  have hrow := h.row
  have hcol := h.col
  have hright := h.right
  have hroom : m.input.curBuffIndex < 256 := by omega
  refine ⟨by omega, by omega, hroom, ?_⟩
  rw [Screen.loc, Screen.loc, hrow, hcol]
  omega

/-- A character behind the line. -/
theorem LineShown.add (h : LineShown u m) (hu : OnScreen u) {scancode : BitVec 8} {c : Byte}
    (hkey : keyOf m.input.shiftPressed scancode = .char c) (hc : c ≠ 0x08) (hs : step m scancode = some m') :
    LineShown u m' ↔ Printable c ∧ m.screen.xCord < 79 := by
  obtain ⟨hx, hy, hroom, hloc⟩ := h.bounds hu
  have hcol := h.col
  obtain ⟨hput, hscreen⟩ := step_char hkey h.typing hs
  rw [putKey, if_neg hc, if_pos hroom, Option.some.injEq] at hput
  have hindex : m'.input.curBuffIndex = m.input.curBuffIndex + 1 := by rw [← hput]
  constructor
  · intro h'
    have hcol' := h'.col
    have hright' := h'.right
    rw [hindex] at hcol'
    have hnext : m'.screen.xCord = m.screen.xCord + 1 := by omega
    refine ⟨?_, by omega⟩
    by_contra hp
    exact bold_other hp hc hx h.right (hscreen ▸ hnext)
  · rintro ⟨hp, hlt⟩
    rw [bold_printable hp hy] at hscreen
    have hcells : ∀ i, m'.screen.cells i = if i = u.loc + m.input.curBuffIndex then c.setWidth 16 ||| 0x0800
        else m.screen.cells i := by
      intro i
      rw [hscreen, ← hloc]
      exact Function.update_apply ..
    have hx' : m'.screen.xCord = m.screen.xCord + 1 := by
      rw [hscreen]
      rfl
    refine ⟨?_, ?_, ?_, by omega, ?_, ?_, ?_⟩
    · rw [← hput]
      exact h.typing
    · rw [hscreen]
      exact h.row
    · omega
    · intro i hi
      rw [hcells, if_neg (by omega), h.before i hi]
    · intro i hi
      rw [hcells, ← hput]
      dsimp only
      by_cases hlast : i = m.input.curBuffIndex
      · rw [if_pos (by omega), hlast, Function.update_self]
      · rw [if_neg (by omega), Function.update_of_ne hlast, h.line i (by omega)]
    · intro i hi
      rw [hcells, if_neg (by omega)]
      exact h.behind i (by omega)

/-- A backspace. -/
theorem LineShown.delete (h : LineShown u m) (hu : OnScreen u) {scancode : BitVec 8}
    (hkey : keyOf m.input.shiftPressed scancode = .char 0x08) (hs : step m scancode = some m') :
    LineShown u m' ↔ 0 < m.input.curBuffIndex := by
  obtain ⟨hx, hy, -, hloc⟩ := h.bounds hu
  have hleft := hu.left
  have hcol := h.col
  have hright := h.right
  obtain ⟨hput, hscreen⟩ := step_char hkey h.typing hs
  rw [putKey, if_pos rfl, Option.some.injEq] at hput
  rw [bold_backspace hy] at hscreen
  constructor
  · intro h'
    by_contra hzero
    have hcol' := h'.col
    have hindex : m'.input.curBuffIndex = 0 := by
      rw [← hput]
      dsimp only
      rw [if_neg hzero]
      omega
    have hback : m'.screen.xCord = if m.screen.xCord > 0 then m.screen.xCord - 1 else 79 := by
      rw [hscreen, updateCursor, backspace, Screen.store, stepBack]
      dsimp only
      split <;> rfl
    split at hback
    · omega
    · omega
  · intro hpos
    obtain ⟨hxback, hyback, hblank⟩ := backspace_left (s := m.screen) (by omega)
    have hcells : ∀ i, m'.screen.cells i = if i = u.loc + (m.input.curBuffIndex - 1 : Nat) then 0x20
        else m.screen.cells i := by
      intro i
      rw [show u.loc + (m.input.curBuffIndex - 1 : Nat) = m.screen.loc - 1 by omega, ← hblank i, hscreen]
      rfl
    have hx' : m'.screen.xCord = m.screen.xCord - 1 := by
      rw [hscreen]
      exact hxback
    have hindex : m'.input.curBuffIndex = m.input.curBuffIndex - 1 := by
      rw [← hput]
      exact if_pos hpos
    refine ⟨?_, ?_, by omega, by omega, ?_, ?_, ?_⟩
    · rw [← hput]
      exact h.typing
    · rw [hscreen]
      exact hyback.trans h.row
    · intro i hi
      rw [hcells, if_neg (by omega), h.before i hi]
    · intro i hi
      rw [hindex] at hi
      rw [hcells, if_neg (by omega), ← hput]
      dsimp only
      rw [if_pos hpos, Function.update_of_ne (by omega), h.line i (by omega)]
    · intro i hi
      rw [hcells]
      by_cases hlast : i = u.loc + (m.input.curBuffIndex - 1 : Nat)
      · rw [if_pos hlast]
        exact Or.inr rfl
      · rw [if_neg hlast]
        exact h.behind i (by omega)

/-- Enter ends the line. -/
theorem step_enter {scancode : BitVec 8} (hkey : keyOf m.input.shiftPressed scancode = .enter)
    (hs : step m scancode = some m') : m'.input.enterPressed = true := by
  rw [step, keyboardHandler, echo, hkey] at hs
  obtain rfl := Option.some.inj hs
  rfl

/-- While the line is shown there is room in the buffer. -/
theorem LineShown.step_some (h : LineShown u m) (hu : OnScreen u) (scancode : BitVec 8) : ∃ m', step m scancode = some m' := by
  obtain ⟨-, -, hroom, -⟩ := h.bounds hu
  have hinput : ∃ s, keyboardHandler m.input scancode = some s := by
    rw [keyboardHandler]
    split
    · exact ⟨_, rfl⟩
    · exact ⟨_, rfl⟩
    · rw [if_neg (by rw [h.typing]; decide), putKey]
      split
      · exact ⟨_, rfl⟩
      · exact ⟨_, rfl⟩
    · exact ⟨_, rfl⟩
  obtain ⟨s, hs⟩ := hinput
  obtain ⟨v, hv⟩ := Terminal.consoleRun_isSome m.screen (echo m.input scancode)
  refine ⟨⟨s, v⟩, ?_⟩
  rw [step, hs, Option.bind_some, hv, Option.map_some]

theorem step_shown (h : LineShown u m) (hu : OnScreen u) (scancode : BitVec 8) :
    InPlace m scancode ↔ ∀ m', step m scancode = some m' → LineShown u m' := by
  obtain ⟨m', hs⟩ := h.step_some hu scancode
  have hone : (∀ m', step m scancode = some m' → LineShown u m') ↔ LineShown u m' := by
    constructor
    · exact fun hall => hall m' hs
    · intro h' v hv
      obtain rfl := Option.some.inj (hs.symm.trans hv)
      exact h'
  have hsilent : m'.screen = m.screen → m'.input.enterPressed = m.input.enterPressed →
      m'.input.curBuffIndex = m.input.curBuffIndex → m'.input.buff = m.input.buff → LineShown u m' := by
    intro hscreen henter hindex hbuff
    refine ⟨henter.trans h.typing, ?_, ?_, ?_, ?_, ?_, ?_⟩
    all_goals simp only [hscreen, hindex, hbuff]
    · exact h.row
    · exact h.col
    · exact h.right
    · exact h.before
    · exact h.line
    · exact h.behind
  rw [hone, InPlace]
  cases hkey : keyOf m.input.shiftPressed scancode with
  | shift down =>
    obtain ⟨hscreen, henter, hindex, hbuff⟩ := step_silent (Or.inr ⟨down, hkey⟩) hs
    exact iff_of_true trivial (hsilent hscreen henter hindex hbuff)
  | enter =>
    refine iff_of_false id fun h' => ?_
    have htyping := h'.typing
    rw [step_enter hkey hs] at htyping
    cases htyping
  | char c =>
    dsimp only
    by_cases hc : c = 0x08
    · subst hc
      rw [if_pos rfl]
      exact (h.delete hu hkey hs).symm
    · rw [if_neg hc]
      exact (h.add hu hkey hc hs).symm
  | other =>
    obtain ⟨hscreen, henter, hindex, hbuff⟩ := step_silent (Or.inl hkey) hs
    exact iff_of_true trivial (hsilent hscreen henter hindex hbuff)

/-! ## Lines -/

/-- After a request, the line of the buffer is what the screen shows behind the cursor's place,
after every key, exactly when every character can be printed and has room in the row, and no
backspace comes on an empty line. On an empty line it deletes from what was there before. -/
theorem line_shown_iff {s : Input} {keys : List (BitVec 8)} (hu : OnScreen u) (htyping : s.enterPressed = false)
    (hempty : s.curBuffIndex = 0) :
    (∀ done m, done <+: keys → Transition.run step ⟨s, u⟩ done = some m → LineShown u m) ↔
      Transition.Along step InPlace ⟨s, u⟩ keys := by
  have hstart : LineShown u ⟨s, u⟩ := by
    refine ⟨htyping, rfl, ?_, hu.right, fun _ _ => rfl, fun i hi => ?_, fun _ _ => Or.inl rfl⟩
    · dsimp only
      omega
    · dsimp only at hi
      omega
  exact (Transition.along_iff step (fun m key h => step_shown h hu key) hstart).symm

/-- Behind a prompt of two characters the letter `a` is shown; a backspace there deletes from the
prompt. -/
theorem line_shown_iff_prompt : ∃ u m m', u.xCord = 2 ∧
    Transition.run step ⟨Input.start 0, u⟩ [30] = some m ∧ LineShown u m ∧ m.screen.cells 2 = 0x0861 ∧
    Transition.run step ⟨Input.start 0, u⟩ [14] = some m' ∧ ¬ LineShown u m' ∧ m'.screen.cells 1 = 0x20 := by
  have hu : OnScreen ⟨fun _ => 0x0F24, 2, 0, 0, []⟩ := ⟨by decide, by decide, by decide, by decide⟩
  have htyped : Transition.Along step InPlace ⟨Input.start 0, ⟨fun _ => 0x0F24, 2, 0, 0, []⟩⟩ [30] :=
    ⟨show Printable 97 ∧ (2 : Int) < 79 from ⟨by decide, by decide⟩, fun _ _ => trivial⟩
  refine ⟨⟨fun _ => 0x0F24, 2, 0, 0, []⟩, _, _, rfl, rfl, ?_, rfl, rfl, ?_, rfl⟩
  · exact (line_shown_iff hu rfl rfl).mpr htyped [30] _ List.prefix_rfl rfl
  · intro h
    exact absurd h.col (by decide)

end Echo
