import DeepOS.Keyboard

/-!
# The bounds of the line buffer

`keyboard_handler` counts `curBuffIndex` up without looking at the end of `buff`; only
a request of `scanf` sets it back. Each store to `buff` is recorded by its index. Once
a store lies outside, what else it overwrites is not followed.
-/
namespace LineBuffer

open TaskTable CString
open PhyMem (Word)
open Keyboard (Input keyOf translate timerHandler sscanfSystemCall BUFF_SIZE)

/-- The input state with the indices of all stores to `buff`. -/
structure Line where
  input : Input
  stores : List Nat

def Line.start (current : Slot) : Line := ⟨Input.start current, []⟩

def Line.store (s : Line) (i : Nat) (c : Byte) : Line :=
  ⟨{ s.input with buff := Function.update s.input.buff i c }, i :: s.stores⟩

def Line.setIndex (s : Line) (i : Nat) : Line := ⟨{ s.input with curBuffIndex := i }, s.stores⟩

@[simp] theorem store_stores (s : Line) (i : Nat) (c : Byte) : (s.store i c).stores = i :: s.stores := rfl
@[simp] theorem store_index (s : Line) (i : Nat) (c : Byte) :
    (s.store i c).input.curBuffIndex = s.input.curBuffIndex := rfl
@[simp] theorem setIndex_stores (s : Line) (i : Nat) : (s.setIndex i).stores = s.stores := rfl
@[simp] theorem setIndex_index (s : Line) (i : Nat) : (s.setIndex i).input.curBuffIndex = i := rfl

def putKey (s : Line) (c : Byte) : Line :=
  if c = 0x08 then
    let i := if s.input.curBuffIndex > 0 then s.input.curBuffIndex - 1 else s.input.curBuffIndex
    (s.setIndex i).store i 0
  else (s.store s.input.curBuffIndex c).setIndex (s.input.curBuffIndex + 1)

def keyboardHandler (s : Line) (scancode : BitVec 8) : Line :=
  match keyOf s.input.shiftPressed scancode with
  | .shift down => { s with input := { s.input with shiftPressed := down } }
  | .enter => { s with input := { s.input with enterPressed := true } }
  | .char c => if s.input.enterPressed then s else putKey s c
  | .other => s

inductive Op where
  | key (scancode : BitVec 8)
  /-- The next task is the choice of the scheduler. -/
  | tick (next : Slot)
  | scanf (rcx : Word)

/-- Any task may call `scanf` at any time. -/
def step (s : Line) : Op → Option Line
  | .key scancode => some (keyboardHandler s scancode)
  | .tick next => some { s with input := timerHandler s.input next }
  | .scanf rcx => some { s with input := sscanfSystemCall s.input rcx }

/-- As long as the buffer has room, the handler does what it does with bounds. -/
theorem keyboardHandler_bounded {s : Line} (h : s.input.curBuffIndex < BUFF_SIZE) (scancode : BitVec 8) :
    Keyboard.keyboardHandler s.input scancode = some (keyboardHandler s scancode).input := by
  rw [Keyboard.keyboardHandler, keyboardHandler]
  cases keyOf s.input.shiftPressed scancode with
  | shift down => rfl
  | enter => rfl
  | char c =>
    dsimp only
    by_cases he : s.input.enterPressed = true
    · rw [if_pos he, if_pos he]
    · rw [if_neg he, if_neg he, Keyboard.putKey, putKey]
      by_cases hc : c = 0x08
      · rw [if_pos hc, if_pos hc]
        rfl
      · rw [if_neg hc, if_neg hc, if_pos h]
        rfl
  | other => rfl

/-! ## The invariant -/

structure InBounds (s : Line) : Prop where
  index : s.input.curBuffIndex ≤ BUFF_SIZE
  stores : ∀ i ∈ s.stores, i < BUFF_SIZE

def Fits (s : Line) : Op → Prop
  | .key scancode => ∀ c, keyOf s.input.shiftPressed scancode = .char c → c ≠ 0x08 →
      s.input.enterPressed = false → s.input.curBuffIndex < BUFF_SIZE
  | _ => True

variable {s : Line}

theorem InBounds.same {s' : Line} (h : InBounds s) (hi : s'.input.curBuffIndex = s.input.curBuffIndex)
    (hs : s'.stores = s.stores) : InBounds s' := by
  refine ⟨?_, ?_⟩
  · rw [hi]
    exact h.index
  · rw [hs]
    exact h.stores

/-- A backspace moves back, and stays in the buffer. -/
theorem backspace_inBounds (h : InBounds s) : InBounds (putKey s 0x08) := by
  have hindex := h.index
  have hroom : (if s.input.curBuffIndex > 0 then s.input.curBuffIndex - 1 else s.input.curBuffIndex) <
      BUFF_SIZE := by
    rw [BUFF_SIZE] at hindex ⊢
    split <;> omega
  rw [putKey, if_pos rfl]
  refine ⟨?_, fun i hi => ?_⟩
  · rw [store_index, setIndex_index]
    exact hroom.le
  · rw [store_stores, setIndex_stores, List.mem_cons] at hi
    rcases hi with rfl | hi
    · exact hroom
    · exact h.stores i hi

theorem putKey_inBounds {c : Byte} (h : InBounds s) (hc : c ≠ 0x08) :
    InBounds (putKey s c) ↔ s.input.curBuffIndex < BUFF_SIZE := by
  rw [putKey, if_neg hc]
  constructor
  · intro h'
    exact h'.stores s.input.curBuffIndex (List.mem_cons_self ..)
  · intro hroom
    refine ⟨hroom, fun i hi => ?_⟩
    rw [setIndex_stores, store_stores, List.mem_cons] at hi
    rcases hi with rfl | hi
    · exact hroom
    · exact h.stores i hi

theorem step_inBounds (h : InBounds s) (op : Op) :
    Fits s op ↔ ∀ s', step s op = some s' → InBounds s' := by
  cases op with
  | key scancode =>
    simp only [step, Option.some.injEq, forall_eq', Fits, keyboardHandler]
    cases keyOf s.input.shiftPressed scancode with
    | shift down => exact ⟨fun _ => h.same rfl rfl, fun _ _ hc => by cases hc⟩
    | enter => exact ⟨fun _ => h.same rfl rfl, fun _ _ hc => by cases hc⟩
    | other => exact ⟨fun _ => h, fun _ _ hc => by cases hc⟩
    | char c =>
      dsimp only
      by_cases he : s.input.enterPressed = true
      · rw [if_pos he]
        exact ⟨fun _ => h, fun _ _ _ _ hf => by rw [he] at hf; cases hf⟩
      · rw [if_neg he]
        by_cases hc : c = 0x08
        · subst hc
          exact ⟨fun _ => backspace_inBounds h, fun _ c' hkey hne => by cases hkey; exact absurd rfl hne⟩
        · rw [putKey_inBounds h hc]
          constructor
          · intro hfit
            exact hfit c rfl hc (Bool.eq_false_iff.mpr he)
          · intro hroom _ _ _ _
            exact hroom
  | tick next =>
    simp only [step, Option.some.injEq, forall_eq', Fits, true_iff]
    refine h.same ?_ rfl
    simp only [timerHandler, Keyboard.updateKeyPressEvent]
    split
    · rfl
    · rfl
  | scanf rcx =>
    simp only [step, Option.some.injEq, forall_eq', Fits, true_iff]
    exact ⟨Nat.zero_le _, h.stores⟩

theorem start_inBounds (current : Slot) : InBounds (Line.start current) :=
  ⟨Nat.zero_le _, fun _ hi => absurd hi List.not_mem_nil⟩

/-- For every sequence of keys, ticks and requests, the index and all stores stay within
the buffer exactly when each character that is added finds room. -/
theorem line_buffer_bounds_iff (current : Slot) (ops : List Op) :
    (∀ done s, done <+: ops → Transition.run step (Line.start current) done = some s → InBounds s) ↔
      Transition.Along step Fits (Line.start current) ops :=
  (Transition.along_iff step (fun _ op h => step_inBounds h op) (start_inBounds current)).symm

/-! ## A line that is too long -/

def letter : Op := .key 30

theorem letters_spec (current : Slot) (n : Nat) : ∃ s,
    Transition.run step (Line.start current) (List.replicate n letter) = some s ∧
      s.input.curBuffIndex = n ∧ s.input.shiftPressed = false ∧ s.input.enterPressed = false ∧
      ∀ i < n, i ∈ s.stores := by
  induction n with
  | zero => exact ⟨_, rfl, rfl, rfl, rfl, fun i hi => absurd hi i.not_lt_zero⟩
  | succ n ih =>
    obtain ⟨s, hrun, hindex, hshift, henter, hstores⟩ := ih
    have hstep : step s letter = some (putKey s 97) := by
      have hkey : keyOf s.input.shiftPressed 30 = .char 97 := by
        rw [hshift]
        decide
      rw [letter, step, keyboardHandler, hkey]
      exact congrArg some (if_neg (by rw [henter]; decide))
    refine ⟨putKey s 97, ?_, ?_, hshift, henter, fun i hi => ?_⟩
    · rw [List.replicate_succ', Transition.run_append, hrun, Option.bind_some, Transition.run, hstep]
      rfl
    · rw [putKey, if_neg (by decide), setIndex_index, hindex]
    · rw [putKey, if_neg (by decide), setIndex_stores, store_stores, hindex, List.mem_cons]
      rcases Nat.lt_succ_iff_lt_or_eq.mp hi with hi | rfl
      · exact Or.inr (hstores i hi)
      · exact Or.inl rfl

/-- The 257th letter without Enter is stored behind the buffer. -/
theorem long_line_leaves_buffer : ∃ s,
    Transition.run step (Line.start 0) (List.replicate 257 letter) = some s ∧
      s.input.curBuffIndex = 257 ∧ 256 ∈ s.stores ∧ ¬ InBounds s := by
  obtain ⟨s, hrun, hindex, -, -, hstores⟩ := letters_spec 0 257
  have hstore : 256 ∈ s.stores := hstores 256 (by decide)
  exact ⟨s, hrun, hindex, hstore, fun h => absurd (h.stores 256 hstore) (by decide)⟩

end LineBuffer
