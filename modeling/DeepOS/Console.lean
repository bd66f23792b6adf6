import DeepOS.Transition

/-!
# The console

`putc_with_attr` writes a character to the video memory and moves the cursor; text
is meant for the rows 0 to 22, the two rows below hold the status bar. Only the
printable branch has no rule for the end of a row.
-/
namespace Console

/-- The cells are counted from `vga_virt_addr` on and go beyond the screen;
`written` lists the cells that have been stored to. -/
structure Screen where
  cells : Int → BitVec 16
  xCord : Int
  yCord : Int
  /-- The cursor of the video controller. -/
  position : BitVec 16
  written : List Int

def Screen.start (cells : Int → BitVec 16) : Screen := ⟨cells, 0, 0, 0, []⟩

def Screen.store (s : Screen) (i : Int) (w : BitVec 16) : Screen :=
  { s with cells := Function.update s.cells i w, written := i :: s.written }

def Screen.loc (s : Screen) : Int := s.yCord * 80 + s.xCord

/-! ## One character -/

def stepBack (s : Screen) : Screen :=
  if s.xCord > 0 then { s with xCord := s.xCord - 1 }
  else { s with yCord := if s.yCord > 0 then s.yCord - 1 else s.yCord, xCord := 79 }

def backspace (s : Screen) : Screen := (stepBack s).store (stepBack s).loc 0x20

def newline (s : Screen) : Screen := { s with xCord := 0, yCord := s.yCord + 1 }

def tab (s : Screen) : Screen :=
  { s with
    yCord := if s.xCord + 8 > 79 then s.yCord + 1 else s.yCord
    xCord := (s.xCord + 8).tmod 80 }

/-- `char` is signed. -/
def Printable (c : BitVec 8) : Prop := 0x20 ≤ c.toInt

instance (c : BitVec 8) : Decidable (Printable c) := inferInstanceAs (Decidable (_ ≤ _))

def printable (s : Screen) (c : BitVec 8) (attr : BitVec 16) : Screen :=
  { s.store s.loc (c.setWidth 16 ||| attr) with xCord := s.xCord + 1 }

def moveUp (s : Screen) (i : Nat) : Screen := s.store i (s.cells (i + 80))

def blankCell (s : Screen) (i : Nat) : Screen := s.store (22 * 80 + i) 0x0F20

def moveRows (s : Screen) : Screen :=
  (List.range 80).foldl blankCell ((List.range (22 * 80)).foldl moveUp s)

def scroll (s : Screen) : Screen :=
  if s.yCord > 22 then { moveRows s with xCord := 0, yCord := 22 } else s

def updateCursor (s : Screen) : Screen := { s with position := BitVec.ofInt 16 s.loc }

def putcWithAttr (inKernelMode : Bool) (s : Screen) (c : BitVec 8) (attr : BitVec 16) : Screen :=
  let s := scroll (if c = 0x08 then backspace s
    else if c = 0x0A then newline s
    else if c = 0x09 then tab s
    else if Printable c then printable s c attr
    else s)
  if inKernelMode then updateCursor s else s

def putc (inKernelMode : Bool) (s : Screen) (c : BitVec 8) : Screen := putcWithAttr inKernelMode s c 0

def putcBold (inKernelMode : Bool) (s : Screen) (c : BitVec 8) : Screen :=
  putcWithAttr inKernelMode s c 0x0800

structure Call where
  inKernelMode : Bool
  bold : Bool
  c : BitVec 8

def step (s : Screen) (call : Call) : Option Screen :=
  some (if call.bold then putcBold call.inKernelMode s call.c else putc call.inKernelMode s call.c)

/-! ## The area -/

/-- The cursor is on the screen and all text so far went to the rows 0 to 22. -/
structure InArea (s : Screen) : Prop where
  left : 0 ≤ s.xCord
  right : s.xCord < 80
  top : 0 ≤ s.yCord
  bottom : s.yCord ≤ 22
  written : ∀ i ∈ s.written, 0 ≤ i ∧ i < 23 * 80

def Fits (s : Screen) (call : Call) : Prop := Printable call.c → s.xCord < 79

/-- Where the cursor may be before `scroll`. -/
structure BeforeScroll (s : Screen) : Prop where
  left : 0 ≤ s.xCord
  right : s.xCord < 80
  top : 0 ≤ s.yCord
  written : ∀ i ∈ s.written, 0 ≤ i ∧ i < 23 * 80

variable {s : Screen}

theorem written_foldl {f : Screen → Nat → Screen} {n : Nat}
    (hf : ∀ s, ∀ i < n, ∃ j, (f s i).written = j :: s.written ∧ 0 ≤ j ∧ j < 23 * 80) {is : List Nat}
    (his : ∀ i ∈ is, i < n) (hs : ∀ i ∈ s.written, 0 ≤ i ∧ i < 23 * 80) :
    ∀ i ∈ (is.foldl f s).written, 0 ≤ i ∧ i < 23 * 80 := by
  induction is generalizing s with
  | nil => exact hs
  | cons i is ih =>
    refine ih (fun j hj => his j (List.mem_cons_of_mem i hj)) ?_
    obtain ⟨j, hw, hj⟩ := hf s i (his i List.mem_cons_self)
    rw [hw]
    intro l hl
    rcases List.mem_cons.mp hl with rfl | hl
    · exact hj
    · exact hs l hl

theorem written_moveRows (h : ∀ i ∈ s.written, 0 ≤ i ∧ i < 23 * 80) :
    ∀ i ∈ (moveRows s).written, 0 ≤ i ∧ i < 23 * 80 := by
  have hup : ∀ i ∈ ((List.range (22 * 80)).foldl moveUp s).written, 0 ≤ i ∧ i < 23 * 80 := by
    refine written_foldl (n := 22 * 80) ?_ (fun i hi => List.mem_range.mp hi) h
    intro s i hi
    exact ⟨i, rfl, by omega, by omega⟩
  refine written_foldl (f := blankCell) (n := 80) ?_ (fun i hi => List.mem_range.mp hi) hup
  intro s i hi
  exact ⟨22 * 80 + i, rfl, by omega, by omega⟩

theorem scroll_inArea (h : BeforeScroll s) : InArea (scroll s) := by
  rw [scroll]
  split
  · have hw := written_moveRows h.written
    generalize moveRows s = u at hw ⊢
    exact ⟨le_rfl, (by decide : (0 : Int) < 80), (by decide : (0 : Int) ≤ 22), le_rfl, hw⟩
  · exact ⟨h.left, h.right, h.top, by omega, h.written⟩

theorem backspace_spec (h : InArea s) : BeforeScroll (backspace s) := by
  have hback : 0 ≤ (stepBack s).xCord ∧ (stepBack s).xCord < 80 ∧ 0 ≤ (stepBack s).yCord ∧
      (stepBack s).yCord ≤ 22 ∧ (stepBack s).written = s.written := by
    obtain ⟨hl, hr, ht, hb, -⟩ := h
    rw [stepBack]
    split
    · exact ⟨by simp only; omega, by simp only; omega, ht, hb, rfl⟩
    · refine ⟨by simp, by simp, ?_, ?_, rfl⟩
      · simp only
        split <;> omega
      · simp only
        split <;> omega
  obtain ⟨hl, hr, ht, hb, hw⟩ := hback
  refine ⟨hl, hr, ht, ?_⟩
  intro i hi
  rw [backspace, Screen.store, hw] at hi
  rcases List.mem_cons.mp hi with rfl | hi
  · rw [Screen.loc]
    omega
  · exact h.written i hi

theorem tab_spec (h : InArea s) : BeforeScroll (tab s) := by
  have hnonneg : 0 ≤ s.xCord + 8 := by have := h.left; omega
  refine ⟨?_, ?_, ?_, h.written⟩
  · exact Int.tmod_nonneg 80 hnonneg
  · exact Int.tmod_lt_of_pos _ (by decide)
  · simp only [tab]
    have := h.top
    split <;> omega

theorem printable_spec {c : BitVec 8} {attr : BitVec 16} (h : InArea s) (hx : s.xCord < 79) :
    BeforeScroll (printable s c attr) := by
  obtain ⟨hl, hr, ht, hb, hw⟩ := h
  refine ⟨?_, ?_, ht, ?_⟩
  · simp only [printable]
    omega
  · simp only [printable]
    omega
  · intro i hi
    simp only [printable, Screen.store] at hi
    rcases List.mem_cons.mp hi with rfl | hi
    · rw [Screen.loc]
      omega
    · exact hw i hi

theorem step_eq (s : Screen) (call : Call) : step s call =
    some (putcWithAttr call.inKernelMode s call.c (if call.bold then 0x0800 else 0)) := by
  rw [step]
  split <;> rfl

theorem printable_other {c : BitVec 8} (hc : Printable c) : c ≠ 0x08 ∧ c ≠ 0x0A ∧ c ≠ 0x09 := by
  refine ⟨?_, ?_, ?_⟩ <;> rintro rfl <;> exact absurd hc (by decide)

/-- In the area, a call stays there exactly when its character fits. -/
theorem step_inArea (h : InArea s) (call : Call) :
    Fits s call ↔ ∀ s', step s call = some s' → InArea s' := by
  have hcursor : ∀ {k : Bool} {s' : Screen},
      InArea (if k then updateCursor s' else s') ↔ InArea s' := by
    intro k s'
    cases k with
    | false => exact Iff.rfl
    | true => exact ⟨fun h => ⟨h.left, h.right, h.top, h.bottom, h.written⟩,
        fun h => ⟨h.left, h.right, h.top, h.bottom, h.written⟩⟩
  rw [step_eq]
  simp only [Option.some.injEq, forall_eq', putcWithAttr, hcursor]
  by_cases hp : Printable call.c
  · obtain ⟨h₁, h₂, h₃⟩ := printable_other hp
    rw [if_neg h₁, if_neg h₂, if_neg h₃, if_pos hp]
    constructor
    · intro hfit
      exact scroll_inArea (printable_spec h (hfit hp))
    · intro hin _
      have hb := h.bottom
      have hright := hin.right
      rw [scroll, if_neg (show ¬ (printable s call.c _).yCord > 22 from by
        simp only [printable, Screen.store]; omega)] at hright
      simp only [printable] at hright
      omega
  · refine ⟨fun _ => scroll_inArea ?_, fun _ hc => absurd hc hp⟩
    rw [if_neg hp]
    split
    · exact backspace_spec h
    · split
      · exact ⟨le_rfl, by simp [newline], by have := h.top; simp only [newline]; omega, h.written⟩
      · split
        · exact tab_spec h
        · exact ⟨h.left, h.right, h.top, h.written⟩

/-- For every sequence of calls, the console stays in its area after each of them
exactly when each printable character is put before the last column. -/
theorem console_in_area_iff (cells : Int → BitVec 16) (calls : List Call) :
    (∀ done s, done <+: calls → Transition.run step (Screen.start cells) done = some s → InArea s) ↔
      Transition.Along step Fits (Screen.start cells) calls := by
  refine (Transition.along_iff step (fun s call h => step_inArea h call) ?_).symm
  exact ⟨le_rfl, (by decide : (0 : Int) < 80), le_rfl, (by decide : (0 : Int) ≤ 22), by simp [Screen.start]⟩

/-! ## A line that is too long -/

def letter : Call := ⟨true, false, 97⟩

/-- A line of letters goes on behind the last column. -/
theorem line_spec (cells : Int → BitVec 16) (n : Nat) : ∃ s,
    Transition.run step (Screen.start cells) (List.replicate n letter) = some s ∧
      s.xCord = n ∧ s.yCord = 0 ∧ ∀ i < n, (i : Int) ∈ s.written := by
  induction n with
  | zero => exact ⟨_, rfl, rfl, rfl, by simp⟩
  | succ n ih =>
    obtain ⟨s, hrun, hx, hy, hw⟩ := ih
    have hstep : step s letter = some (updateCursor (printable s 97 0)) := by
      have hp : (printable s 97 0).yCord = 0 := hy
      have hscroll : scroll (printable s 97 0) = printable s 97 0 := by
        rw [scroll, if_neg (by rw [hp]; decide)]
      rw [step_eq]
      exact congrArg (fun u => some (updateCursor u)) hscroll
    refine ⟨updateCursor (printable s 97 0), ?_, ?_, hy, ?_⟩
    · rw [List.replicate_succ', Transition.run_append, hrun, Option.bind_some, Transition.run, hstep]
      rfl
    · simp only [updateCursor, printable, hx]
      omega
    · intro i hi
      simp only [updateCursor, printable, Screen.store, Screen.loc, hx, hy, List.mem_cons]
      rcases Nat.lt_succ_iff_lt_or_eq.mp hi with hi | rfl
      · exact Or.inr (hw i hi)
      · left
        omega

/-- Eighty letters leave the cursor outside the screen, and a line of 1841 letters
reaches the status bar. -/
theorem long_line_leaves_area : ∃ cells : Int → BitVec 16,
    (∃ s, Transition.run step (Screen.start cells) (List.replicate 80 letter) = some s ∧
      s.xCord = 80 ∧ ¬ InArea s) ∧
    ∃ s, Transition.run step (Screen.start cells) (List.replicate 1841 letter) = some s ∧
      23 * 80 ∈ s.written := by
  refine ⟨fun _ => 0, ?_, ?_⟩
  · obtain ⟨s, hrun, hx, -, -⟩ := line_spec (fun _ => 0) 80
    exact ⟨s, hrun, hx, fun h => absurd h.right (by rw [hx]; decide)⟩
  · obtain ⟨s, hrun, -, -, hw⟩ := line_spec (fun _ => 0) 1841
    exact ⟨s, hrun, hw 1840 (by decide)⟩

end Console
