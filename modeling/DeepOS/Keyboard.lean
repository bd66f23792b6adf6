import DeepOS.PhyMem
import DeepOS.TaskTable
import DeepOS.CString
import DeepOS.Transition

/-!
# Keyboard input

The keyboard handler, the timer handler and the two system calls of `scanf` share
the line buffer and its flags. Interrupts are off in each of them, so a run is an
interleaving of whole calls. What the handler prints is left out.
-/
namespace Keyboard

open PhyMem TaskTable CString Transition

def SHIFT_SCANCODE : BitVec 8 := 42

/-- The codes that are not listed give 0. -/
def kbdus : List Byte :=
  [0, 27, 49, 50, 51, 52, 53, 54, 55, 56, 57, 48, 45, 61, 8, 9, 113, 119, 101, 114, 116, 121, 117,
    105, 111, 112, 91, 93, 10, 0, 97, 115, 100, 102, 103, 104, 106, 107, 108, 59, 39, 96, 14, 92,
    122, 120, 99, 118, 98, 110, 109, 44, 46, 47, 14, 42, 0, 32, 0, 0, 0, 0, 0, 0, 0, 0, 0, 0, 0, 0,
    0, 0, 0, 0, 45, 0, 0, 0, 43]

def shiftNums : List Byte := [33, 64, 35, 36, 37, 94, 38, 42, 40, 41, 95, 43]

/-- The `switch` for keys other than the digits. -/
def shifted (pressedKey : Byte) : Byte :=
  if pressedKey = 91 then 123
  else if pressedKey = 93 then 125
  else if pressedKey = 59 then 58
  else if pressedKey = 39 then 34
  else if pressedKey = 44 then 60
  else if pressedKey = 46 then 62
  else if pressedKey = 47 then 63
  else pressedKey - 32

def translate (shiftPressed : Bool) (scancode : BitVec 8) : Byte :=
  let pressedKey := kbdus.getD scancode.toNat 0
  if shiftPressed then
    if 2 ≤ scancode ∧ scancode ≤ 13 then shiftNums.getD (scancode - 2).toNat 0 else shifted pressedKey
  else pressedKey

inductive Key where
  | shift (down : Bool)
  | enter
  | char (c : Byte)
  | other
  deriving DecidableEq, Repr

def keyOf (shiftPressed : Bool) (scancode : BitVec 8) : Key :=
  if scancode &&& 0x80 ≠ 0 then if scancode - 0x80 = SHIFT_SCANCODE then .shift false else .other
  else if scancode = SHIFT_SCANCODE then .shift true
  else if scancode = 28 then .enter
  else .char (translate shiftPressed scancode)

def isCharacter (scancode : BitVec 8) : Bool :=
  scancode &&& 0x80 = 0 && scancode ≠ SHIFT_SCANCODE && scancode ≠ 28

theorem isCharacter_of_keyOf {shiftPressed : Bool} {scancode : BitVec 8} {c : Byte}
    (h : keyOf shiftPressed scancode = .char c) : isCharacter scancode = true := by
  rw [keyOf] at h
  split at h
  · split at h <;> cases h
  · rename_i hrel
    split at h
    · cases h
    · rename_i hshift
      split at h
      · cases h
      · rename_i henter
        rw [isCharacter, Bool.and_eq_true, Bool.and_eq_true, decide_eq_true_eq, decide_eq_true_eq,
          decide_eq_true_eq]
        exact ⟨⟨not_not.mp hrel, hshift⟩, henter⟩

/-! ## The handlers -/

/-- `flags` are the `keyPressed` variables of the tasks, `scanning` says which tasks are
in a `scanf` and the address each has passed, and `delivered` what was stored by the
calls that have ended. -/
structure Input where
  shiftPressed : Bool
  enterPressed : Bool
  curBuffIndex : Nat
  buff : Nat → Byte
  keyPressedPtr : Word
  waitingForInput : Slot → Bool
  current : Slot
  flags : Slot → Word → Bool
  scanning : Slot → Option Word
  delivered : List (Slot × List Byte)

def Input.start (current : Slot) : Input where
  shiftPressed := false
  enterPressed := false
  curBuffIndex := 0
  buff := fun _ => 0
  keyPressedPtr := 0
  waitingForInput := fun _ => false
  current := current
  flags := fun _ _ => false
  scanning := fun _ => none
  delivered := []

def BUFF_SIZE : Nat := 256

/-- A character goes to the buffer; no result when the buffer is full. -/
def putKey (s : Input) (c : Byte) : Option Input :=
  if c = 0x08 then
    let i := if s.curBuffIndex > 0 then s.curBuffIndex - 1 else s.curBuffIndex
    some { s with curBuffIndex := i, buff := Function.update s.buff i 0 }
  else if s.curBuffIndex < BUFF_SIZE then
    some { s with
      buff := Function.update s.buff s.curBuffIndex c
      curBuffIndex := s.curBuffIndex + 1 }
  else none

def keyboardHandler (s : Input) (scancode : BitVec 8) : Option Input :=
  match keyOf s.shiftPressed scancode with
  | .shift down => some { s with shiftPressed := down }
  | .enter => some { s with enterPressed := true }
  | .char c => if s.enterPressed then some s else putKey s c
  | .other => some s

def setFlag (flags : Slot → Word → Bool) (t : Slot) (a : Word) (b : Bool) : Slot → Word → Bool :=
  Function.update flags t (Function.update (flags t) a b)

def updateKeyPressEvent (s : Input) : Input :=
  if s.enterPressed ∧ s.waitingForInput s.current then
    { s with
      waitingForInput := Function.update s.waitingForInput s.current false
      enterPressed := false
      flags := setFlag s.flags s.current s.keyPressedPtr true }
  else s

/-- Then the scheduler chooses the next task. -/
def timerHandler (s : Input) (next : Slot) : Input := { updateKeyPressEvent s with current := next }

def sscanfSystemCall (s : Input) (rcx : Word) : Input :=
  { s with
    keyPressedPtr := rcx
    waitingForInput := Function.update s.waitingForInput s.current true
    enterPressed := false
    curBuffIndex := 0 }

/-- The bytes that are stored for `%s`; no terminator follows them. -/
def enterToMemory (s : Input) : List Byte := (List.range s.curBuffIndex).map s.buff

/-! ## Runs -/

inductive Op where
  | key (scancode : BitVec 8)
  | tick (next : Slot)
  /-- `keyPressed = 0`, then the request. -/
  | request (keyPressed : Word)
  /-- The way out of `while( !keyPressed )`, then the copy. -/
  | copy

/-- The running task makes the calls of `scanf("%s")` in order. -/
def step (s : Input) : Op → Option Input
  | .key scancode => keyboardHandler s scancode
  | .tick next => some (timerHandler s next)
  | .request keyPressed =>
    match s.scanning s.current with
    | some _ => none
    | none => some { sscanfSystemCall s keyPressed with
        flags := setFlag s.flags s.current keyPressed false
        scanning := Function.update s.scanning s.current (some keyPressed) }
  | .copy =>
    match s.scanning s.current with
    | none => none
    | some a =>
      if s.flags s.current a then
        some { s with
          scanning := Function.update s.scanning s.current none
          delivered := s.delivered ++ [(s.current, enterToMemory s)] }
      else none

/-! ## The line that was typed -/

/-- The abstract console of a single reader: the line since the last request, whether
Enter has ended it, and the lines that were read. -/
structure Typed where
  shiftPressed : Bool
  line : List Byte
  ended : Bool
  lines : List (List Byte)
  deriving DecidableEq, Repr

def Typed.start : Typed := ⟨false, [], false, []⟩

def typeChar (line : List Byte) (c : Byte) : List Byte :=
  if c = 0x08 then line.dropLast else line ++ [c]

def typeKey (w : Typed) (scancode : BitVec 8) : Typed :=
  match keyOf w.shiftPressed scancode with
  | .shift down => { w with shiftPressed := down }
  | .enter => { w with ended := true }
  | .char c => if w.ended then w else { w with line := typeChar w.line c }
  | .other => w

def typedStep (w : Typed) : Op → Typed
  | .key scancode => typeKey w scancode
  | .tick _ => w
  | .request _ => { w with line := [], ended := false }
  | .copy => { w with lines := w.lines ++ [w.line] }

def typed (ops : List Op) : Typed := ops.foldl typedStep Typed.start

/-! ## One reader -/

/-- The reader has been woken up and has not copied the line yet. -/
def Woken (t : Slot) (s : Input) : Prop :=
  (s.scanning t).isSome ∧ s.waitingForInput t = false

def Reader (t : Slot) (s : Input) : Op → Prop
  | .request _ => s.current = t
  | .copy => s.current = t
  | _ => True

/-- No character comes between the wake-up of `t` and the next Enter or the copy. -/
def NoLateKey (t : Slot) (s : Input) : Op → Prop
  | .key scancode => Woken t s → s.enterPressed = false → isCharacter scancode = false
  | _ => True

instance decidableWoken (t : Slot) (s : Input) : Decidable (Woken t s) :=
  inferInstanceAs (Decidable (_ ∧ _))

instance decidableReader (t : Slot) (s : Input) : DecidablePred (Reader t s)
  | .request _ => inferInstanceAs (Decidable (s.current = t))
  | .copy => inferInstanceAs (Decidable (s.current = t))
  | .key _ => inferInstanceAs (Decidable True)
  | .tick _ => inferInstanceAs (Decidable True)

instance decidableNoLateKey (t : Slot) (s : Input) : DecidablePred (NoLateKey t s)
  | .key scancode =>
    inferInstanceAs (Decidable (Woken t s → s.enterPressed = false → isCharacter scancode = false))
  | .tick _ => inferInstanceAs (Decidable True)
  | .request _ => inferInstanceAs (Decidable True)
  | .copy => inferInstanceAs (Decidable True)

/-- The buffer holds the line while `t` reads. -/
structure Represents (t : Slot) (s : Input) (w : Typed) : Prop where
  shift : s.shiftPressed = w.shiftPressed
  delivered : s.delivered = w.lines.map fun l => (t, l)
  line : (s.scanning t).isSome → enterToMemory s = w.line
  ended : s.waitingForInput t = true → s.enterPressed = w.ended
  woken : Woken t s → w.ended = true
  idle : s.waitingForInput t = true → (s.scanning t).isSome
  others : ∀ u, u ≠ t → s.waitingForInput u = false
  released : ∀ a, s.scanning t = some a → s.flags t a = true → s.waitingForInput t = false

variable {t : Slot} {s s' : Input} {w : Typed}

theorem represents_start (c : Slot) : Represents t (Input.start c) Typed.start where
  shift := rfl
  delivered := rfl
  line := fun h => by cases h
  ended := fun h => by cases h
  woken := fun h => by cases h.1
  idle := fun h => by cases h
  others := fun _ _ => rfl
  released := fun _ h => by cases h

@[simp] theorem enterToMemory_length (s : Input) : (enterToMemory s).length = s.curBuffIndex := by
  rw [enterToMemory, List.length_map, List.length_range]

theorem map_update_range (f : Nat → Byte) (n : Nat) (c : Byte) :
    (List.range n).map (Function.update f n c) = (List.range n).map f := by
  refine List.map_congr_left fun i hi => Function.update_of_ne ?_ _ _
  exact (List.mem_range.mp hi).ne

/-- The buffer and the line take a character alike. -/
theorem putKey_line {c : Byte} (hs : putKey s c = some s') :
    enterToMemory s' = typeChar (enterToMemory s) c := by
  rw [putKey] at hs
  split at hs
  · rename_i hc
    obtain rfl := Option.some.inj hs
    rw [typeChar, if_pos hc, enterToMemory, enterToMemory]
    dsimp only
    cases hn : s.curBuffIndex with
    | zero => rfl
    | succ n =>
      rw [if_pos (Nat.succ_pos n), Nat.add_sub_cancel, map_update_range, List.range_succ,
        List.map_append, List.map_singleton, List.dropLast_concat]
  · rename_i hc
    split at hs
    · obtain rfl := Option.some.inj hs
      rw [typeChar, if_neg hc, enterToMemory, enterToMemory]
      dsimp only
      rw [List.range_succ, List.map_append, List.map_singleton, map_update_range, Function.update_self]
    · cases hs

structure SameButLine (s s' : Input) : Prop where
  shift : s'.shiftPressed = s.shiftPressed
  enter : s'.enterPressed = s.enterPressed
  ptr : s'.keyPressedPtr = s.keyPressedPtr
  waiting : s'.waitingForInput = s.waitingForInput
  current : s'.current = s.current
  flags : s'.flags = s.flags
  scanning : s'.scanning = s.scanning
  delivered : s'.delivered = s.delivered

theorem putKey_same {c : Byte} (hs : putKey s c = some s') : SameButLine s s' := by
  rw [putKey] at hs
  split at hs
  · obtain rfl := Option.some.inj hs
    exact ⟨rfl, rfl, rfl, rfl, rfl, rfl, rfl, rfl⟩
  · split at hs
    · obtain rfl := Option.some.inj hs
      exact ⟨rfl, rfl, rfl, rfl, rfl, rfl, rfl, rfl⟩
    · cases hs

/-- Enter or a wake-up has ended the line of a reader. -/
theorem Represents.open_line (h : Represents t s w) (hscan : (s.scanning t).isSome)
    (hend : w.ended = false) : s.waitingForInput t = true ∧ s.enterPressed = false := by
  have hwait : s.waitingForInput t = true := by
    by_contra hw
    have := h.woken ⟨hscan, Bool.eq_false_of_not_eq_true hw⟩
    rw [hend] at this
    cases this
  exact ⟨hwait, (h.ended hwait).trans hend⟩

/-- A character is taken by the buffer and by the line, or by neither. -/
theorem represents_char {scancode : BitVec 8} {c : Byte} (hkey : keyOf s.shiftPressed scancode = .char c)
    (hop : NoLateKey t s (.key scancode)) (h : Represents t s w)
    (hs : (if s.enterPressed then some s else putKey s c) = some s') :
    Represents t s' (if w.ended then w else { w with line := typeChar w.line c }) := by
  cases hent : s.enterPressed with
  | true =>
    rw [hent, if_pos rfl] at hs
    obtain rfl := Option.some.inj hs
    split
    · exact h
    · rename_i hend
      have hidle : ¬(s.scanning t).isSome := fun hscan => by
        have := (h.open_line hscan (Bool.eq_false_of_not_eq_true hend)).2
        rw [hent] at this
        cases this
      exact ⟨h.shift, h.delivered, fun hscan => absurd hscan hidle, h.ended, h.woken, h.idle,
        h.others, h.released⟩
  | false =>
    rw [hent, if_neg Bool.false_ne_true] at hs
    have hsame := putKey_same hs
    have hshift := hsame.shift.trans h.shift
    have hdel := hsame.delivered.trans h.delivered
    have hline := putKey_line hs
    have hwoken : Woken t s' ↔ Woken t s := by rw [Woken, Woken, hsame.scanning, hsame.waiting]
    split
    · rename_i hend
      -- the line has ended, so the reader waits for nothing more: it has copied the line
      have hidle : ¬(s.scanning t).isSome := fun hscan => by
        cases hwait : s.waitingForInput t with
        | true =>
          have := (h.ended hwait).symm.trans hent
          rw [hend] at this
          cases this
        | false =>
          have := hop ⟨hscan, hwait⟩ hent
          rw [isCharacter_of_keyOf hkey] at this
          cases this
      refine ⟨hshift, hdel, fun hscan => ?_, ?_, fun _ => hend, ?_, ?_, ?_⟩
      · rw [hsame.scanning] at hscan
        exact absurd hscan hidle
      · rw [hsame.waiting, hsame.enter]
        exact h.ended
      · rw [hsame.waiting, hsame.scanning]
        exact h.idle
      · rw [hsame.waiting]
        exact h.others
      · rw [hsame.waiting, hsame.scanning, hsame.flags]
        exact h.released
    · refine ⟨hshift, hdel, fun hscan => ?_, ?_, fun hw => h.woken (hwoken.mp hw), ?_, ?_, ?_⟩
      · rw [hsame.scanning] at hscan
        rw [hline, h.line hscan]
      · rw [hsame.waiting, hsame.enter]
        exact h.ended
      · rw [hsame.waiting, hsame.scanning]
        exact h.idle
      · rw [hsame.waiting]
        exact h.others
      · rw [hsame.waiting, hsame.scanning, hsame.flags]
        exact h.released

theorem represents_key {scancode : BitVec 8} (hop : NoLateKey t s (.key scancode))
    (h : Represents t s w) (hs : keyboardHandler s scancode = some s') :
    Represents t s' (typeKey w scancode) := by
  have hword : keyOf w.shiftPressed scancode = keyOf s.shiftPressed scancode := by rw [h.shift]
  rw [keyboardHandler] at hs
  rw [typeKey, hword]
  cases hkey : keyOf s.shiftPressed scancode with
  | shift down =>
    rw [hkey] at hs
    obtain rfl := Option.some.inj hs
    exact ⟨rfl, h.delivered, h.line, h.ended, h.woken, h.idle, h.others, h.released⟩
  | enter =>
    rw [hkey] at hs
    obtain rfl := Option.some.inj hs
    exact ⟨h.shift, h.delivered, h.line, fun _ => rfl, fun _ => rfl, h.idle, h.others, h.released⟩
  | char c =>
    rw [hkey] at hs
    exact represents_char hkey hop h hs
  | other =>
    rw [hkey] at hs
    obtain rfl := Option.some.inj hs
    exact h

/-- A tick wakes the reader up when Enter has ended the line. -/
theorem represents_tick (next : Slot) (h : Represents t s w) :
    Represents t (timerHandler s next) w := by
  rw [timerHandler, updateKeyPressEvent]
  split
  · rename_i hwake
    have hcur : s.current = t := by
      by_contra hne
      have := h.others _ hne
      rw [hwake.2] at this
      cases this
    have hwait : s.waitingForInput t = true := hcur ▸ hwake.2
    have hasleep : Function.update s.waitingForInput s.current false t = false := by
      rw [hcur, Function.update_self]
    refine ⟨h.shift, h.delivered, h.line, fun hw => ?_, fun _ => ?_, fun hw => ?_, fun u hu => ?_,
      fun _ _ _ => hasleep⟩
    · exact absurd (hasleep.symm.trans hw) Bool.false_ne_true
    · exact (h.ended hwait).symm.trans hwake.1
    · exact absurd (hasleep.symm.trans hw) Bool.false_ne_true
    · show Function.update s.waitingForInput s.current false u = false
      rw [hcur, Function.update_of_ne hu]
      exact h.others u hu
  · exact ⟨h.shift, h.delivered, h.line, h.ended, h.woken, h.idle, h.others, h.released⟩

/-- A request starts a new line. -/
theorem represents_request {a : Word} (hop : Reader t s (.request a)) (h : Represents t s w)
    (hs : step s (.request a) = some s') : Represents t s' (typedStep w (.request a)) := by
  have hcur : s.current = t := hop
  simp only [step] at hs
  split at hs
  · cases hs
  · obtain rfl := Option.some.inj hs
    have hwait : Function.update s.waitingForInput s.current true t = true := by
      rw [hcur, Function.update_self]
    refine ⟨h.shift, h.delivered, fun _ => rfl, fun _ => rfl, fun hw => ?_, fun _ => ?_,
      fun u hu => ?_, fun b hscan hflag => ?_⟩
    · exact absurd (hwait.symm.trans hw.2) (Bool.false_ne_true ∘ Eq.symm)
    · show (Function.update s.scanning s.current (some a) t).isSome = true
      rw [hcur, Function.update_self]
      rfl
    · show Function.update s.waitingForInput s.current true u = false
      rw [hcur, Function.update_of_ne hu]
      exact h.others u hu
    · -- the flag of the new request is still down
      change Function.update s.scanning s.current (some a) t = some b at hscan
      change setFlag s.flags s.current a false t b = true at hflag
      rw [hcur, Function.update_self, Option.some.injEq] at hscan
      rw [hcur, setFlag, Function.update_self, hscan, Function.update_self] at hflag
      cases hflag

/-- The copy takes the line. -/
theorem represents_copy (hop : Reader t s .copy) (h : Represents t s w)
    (hs : step s .copy = some s') : Represents t s' (typedStep w .copy) := by
  have hcur : s.current = t := hop
  simp only [step] at hs
  split at hs
  · cases hs
  · rename_i a hscan
    split at hs
    · rename_i hflag
      obtain rfl := Option.some.inj hs
      rw [hcur] at hscan hflag
      have hasleep := h.released a hscan hflag
      have hnone : Function.update s.scanning s.current none t = none := by
        rw [hcur, Function.update_self]
      have hdone : ¬(Function.update s.scanning s.current none t).isSome := by
        rw [hnone]
        exact Bool.false_ne_true
      refine ⟨h.shift, ?_, fun hsc => absurd hsc hdone, fun hw => ?_, fun hw => absurd hw.1 hdone,
        fun hw => ?_, h.others, fun b hsc => ?_⟩
      · show s.delivered ++ [(s.current, enterToMemory s)] = _
        rw [typedStep, List.map_append, List.map_singleton, h.delivered, hcur, h.line (by rw [hscan]; rfl)]
      · exact absurd (hasleep.symm.trans hw) Bool.false_ne_true
      · exact absurd (hasleep.symm.trans hw) Bool.false_ne_true
      · exact absurd (hnone.symm.trans hsc) nofun
    · cases hs

theorem represents_step {op : Op} (hread : Reader t s op) (hop : NoLateKey t s op)
    (h : Represents t s w) (hs : step s op = some s') : Represents t s' (typedStep w op) := by
  cases op with
  | key scancode => exact represents_key hop h hs
  | tick next => exact Option.some.inj hs ▸ represents_tick next h
  | request a => exact represents_request hread h hs
  | copy => exact represents_copy hread h hs

theorem represents_run {ops : List Op} (hread : Along step (Reader t) s ops)
    (hops : Along step (NoLateKey t) s ops) (h : Represents t s w)
    (hr : run step s ops = some s') : Represents t s' (ops.foldl typedStep w) := by
  induction ops generalizing s w with
  | nil => exact Option.some.inj hr ▸ h
  | cons op ops ih =>
    obtain ⟨u, hu, hr⟩ := (run_cons_eq_some step).mp hr
    exact ih (hread.2 u hu) (hops.2 u hu) (represents_step hread.1 hops.1 h hu) hr

def characters (ops : List Op) : Nat :=
  ops.countP fun
    | .key scancode => isCharacter scancode
    | _ => false

theorem putKey_index {c : Byte} (hs : putKey s c = some s') : s'.curBuffIndex ≤ s.curBuffIndex + 1 := by
  have := congrArg List.length (putKey_line hs)
  rw [enterToMemory_length, typeChar] at this
  split at this
  · rw [List.length_dropLast, enterToMemory_length] at this
    omega
  · rw [List.length_append, enterToMemory_length, List.length_singleton] at this
    omega

/-- Only a character makes the buffer longer. -/
theorem curBuffIndex_step {op : Op} (hs : step s op = some s') :
    s'.curBuffIndex ≤ s.curBuffIndex + characters [op] := by
  cases op with
  | key scancode =>
    simp only [step, keyboardHandler] at hs
    split at hs
    · obtain rfl := Option.some.inj hs
      exact Nat.le_add_right ..
    · obtain rfl := Option.some.inj hs
      exact Nat.le_add_right ..
    · rename_i c hkey
      have hchar : characters [.key scancode] = 1 := by
        rw [characters, List.countP_singleton, if_pos (isCharacter_of_keyOf hkey)]
      rw [hchar]
      split at hs
      · obtain rfl := Option.some.inj hs
        exact Nat.le_add_right ..
      · exact putKey_index hs
    · obtain rfl := Option.some.inj hs
      exact Nat.le_add_right ..
  | tick next =>
    obtain rfl := Option.some.inj hs
    rw [timerHandler, updateKeyPressEvent]
    split <;> exact Nat.le_add_right ..
  | request a =>
    simp only [step] at hs
    split at hs
    · cases hs
    · obtain rfl := Option.some.inj hs
      exact Nat.zero_le _
  | copy =>
    simp only [step] at hs
    split at hs
    · cases hs
    · split at hs
      · obtain rfl := Option.some.inj hs
        exact Nat.le_add_right ..
      · cases hs

theorem curBuffIndex_run {ops : List Op} (hr : run step s ops = some s') :
    s'.curBuffIndex ≤ s.curBuffIndex + characters ops := by
  induction ops generalizing s with
  | nil =>
    obtain rfl := Option.some.inj hr
    exact Nat.le_add_right ..
  | cons op ops ih =>
    obtain ⟨u, hu, hr⟩ := (run_cons_eq_some step).mp hr
    have hhead := curBuffIndex_step hu
    have htail := ih hr
    have hsplit : characters ([op] ++ ops) = characters [op] + characters ops := List.countP_append
    rw [List.singleton_append] at hsplit
    omega

/-- A key is handled as long as the buffer has room. -/
theorem keyboardHandler_isSome (h : s.curBuffIndex < BUFF_SIZE) (scancode : BitVec 8) :
    (keyboardHandler s scancode).isSome := by
  rw [keyboardHandler]
  split
  · rfl
  · rfl
  · split
    · rfl
    · rw [putKey]
      split
      · rfl
      · rfl
  · rfl

/-- What `scanf` delivers to a single reader are the lines that were typed when no
character comes too late, and 255 characters do not fill the buffer. -/
theorem delivers_typed_lines {c : Slot} {ops : List Op} (hread : Along step (Reader t) (Input.start c) ops)
    (hkeys : Along step (NoLateKey t) (Input.start c) ops)
    (hr : run step (Input.start c) ops = some s') :
    s'.delivered = (typed ops).lines.map (fun l => (t, l)) ∧
      (characters ops ≤ 255 → ∀ scancode, (keyboardHandler s' scancode).isSome) := by
  refine ⟨(represents_run hread hkeys (represents_start c) hr).delivered, fun hfit => ?_⟩
  have hindex : s'.curBuffIndex ≤ 0 + characters ops := curBuffIndex_run hr
  exact keyboardHandler_isSome (show s'.curBuffIndex < 256 by omega)

/-- `ab`, a backspace, `C` with shift, Enter; a second Enter comes after the wake-up. -/
def lineRun : List Op :=
  [.request 0x7000, .key 30, .key 48, .key 14, .key 42, .key 46, .key 170, .key 28, .tick 1, .key 28,
    .key 48, .tick 0, .copy]

theorem delivers_lineRun :
    ∃ s, run step (Input.start 0) lineRun = some s ∧ s.delivered = [(0, [97, 67])] := by
  obtain ⟨s, hs⟩ : ∃ s, run step (Input.start 0) lineRun = some s := ⟨_, rfl⟩
  exact ⟨s, hs, (delivers_typed_lines (t := 0) (by decide) (by decide) hs).1.trans (by decide)⟩

/-- The `b` comes between the wake-up and the copy. -/
theorem late_key_delivered :
    ∃ s, run step (Input.start 0) [.request 0x7000, .key 30, .key 28, .tick 0, .key 48, .copy] = some s ∧
      Along step (Reader 0) (Input.start 0)
        [.request 0x7000, .key 30, .key 28, .tick 0, .key 48, .copy] ∧
      s.delivered = [(0, [97, 98])] ∧
      (typed [.request 0x7000, .key 30, .key 28, .tick 0, .key 48, .copy]).lines = [[97]] :=
  ⟨_, rfl, by decide, rfl, by decide⟩

end Keyboard
