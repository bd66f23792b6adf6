import DeepOS.Accounting
import DeepOS.NumberReaders
import DeepOS.Terminal

/-!
# The status bar

The timer and the switches print into the two rows below the text: the time since the boot,
the running task and the number of tasks. The kernel's messages and those of the programs
come in between, and nobody clears a row as a whole.
-/
namespace StatusBar

open CString Numerals Printf Console TaskTable Scheduler Accounting TaskInvariant Terminal
open PhyMem (Word)

/-! ## Printing -/

/-- A text with fewer than two characters is filled up with zeros, on the right if it has none. -/
def lpad : List Byte → List Byte
  | [] => [48, 48]
  | [c] => [48, c]
  | str => str

/-- `attrib` is `0x0F`. -/
def setcBold (s : Screen) (dest : Int) (src : Byte) : Screen := s.store dest (src.signExtend 16 ||| 0x0F00)

def putText (s : Screen) : Int → List Byte → Screen
  | _, [] => s
  | j, c :: text => putText (setcBold s j c) (j + 1) text

def timeText (millis : BitVec 32) : Option (List Byte) := do
  let totSeconds := millis.toInt.tdiv 18
  let hour ← sysItoa (BitVec.ofInt 64 (totSeconds.tdiv 3600))
  let min ← sysItoa (BitVec.ofInt 64 ((totSeconds.tdiv 60).tmod 60))
  let sec ← sysItoa (BitVec.ofInt 64 (totSeconds.tmod 60))
  some (lpad hour ++ chars ":" ++ lpad min ++ chars ":" ++ lpad sec)

def printTime (s : Screen) (millis : BitVec 32) : Option Screen :=
  (timeText millis).map fun text => putText s (25 * 80 - (22 + 8)) (chars "Uptime: " ++ text)

def taskText (id num : Pid) : Option (List Byte) := do
  let pid ← sysItoa (id.setWidth 64)
  let numTask ← sysItoa (num.setWidth 64)
  some (chars "Cur Proc: " ++ pid ++ chars "     Num Proc: " ++ numTask)

def printCurrentTask (s : Screen) (id num : Pid) : Option Screen := (taskText id num).map (putText s (24 * 80))

def clearCell (line : Nat) (s : Screen) (i : Nat) : Screen := s.store ((line : Int) * 80 + i) 0x20

def clearLine (s : Screen) (line : Nat) : Screen := (List.range 25).foldl (clearCell line) s

def printStatusBar (s : Screen) (timeInMillis : BitVec 32) (id num : Pid) : Option Screen :=
  (printTime (clearLine (clearLine s 23) 24) timeInMillis).bind fun s => printCurrentTask s id num

/-! ## The kernel and its screen -/

/-- `printed` lists what `print_current_task` has printed, the last one first. -/
structure Machine where
  sched : Sched
  screen : Screen
  printed : List (Pid × Pid)

def shown (s : Sched) : Pid × Pid := (s.currentTask.id, BitVec.ofNat 32 (numtasks s.readyQueue))

def showTask (m : Machine) : Option Machine :=
  (printCurrentTask m.screen (shown m.sched).1 (shown m.sched).2).map fun u =>
    { m with screen := u, printed := shown m.sched :: m.printed }

/-- The timer shows the bar before it looks at the tasks. -/
def showBar (m : Machine) : Option Machine :=
  (printStatusBar m.screen (m.sched.timerTick + 1) (shown m.sched).1 (shown m.sched).2).map fun u =>
    { m with screen := u, printed := shown m.sched :: m.printed }

def runOp (m : Machine) (op : Op) : Option Machine := (Scheduler.step m.sched op).map fun s => { m with sched := s }

/-- Whether `print_current_task` comes at the end: in `switch_task`, and in a `kexecvpe` that
finds its file. -/
def shows : Op → Bool
  | .fork => false
  | .exec _ found => found
  | _ => true

/-- A character is printed, or an operation of the scheduler comes with its output. -/
inductive Event where
  | putc (call : Call)
  | op (op : Op)

def step (m : Machine) : Event → Option Machine
  | .putc call => (Console.step m.screen call).map fun u => { m with screen := u }
  | .op .tick => (showBar m).bind fun m => (runOp m .tick).bind showTask
  | .op op => (runOp m op).bind fun m => if shows op then showTask m else some m

def start (screen : Screen) : Option Machine := showTask ⟨Scheduler.initializeTasking, screen, []⟩

def callsIn (events : List Event) : List Call := events.filterMap fun
  | .putc call => some call
  | .op _ => none

def opsIn (events : List Event) : List Event := events.filter fun
  | .putc _ => false
  | .op _ => true

def opsOf (events : List Event) : List Op := events.filterMap fun
  | .putc _ => none
  | .op op => some op

/-! ## Texts on the screen -/

variable {s u : Screen} {m m' : Machine} {events : List Event}

def cellOf (c : Byte) : BitVec 16 := c.signExtend 16 ||| 0x0F00

theorem putText_spec (text : List Byte) : ∀ (s : Screen) (j : Int),
    (putText s j text).xCord = s.xCord ∧ (putText s j text).yCord = s.yCord ∧
      ∀ i, (putText s j text).cells i =
        if j ≤ i then ((text[(i - j).toNat]?).map cellOf).getD (s.cells i) else s.cells i := by
  induction text with
  | nil =>
    intro s j
    refine ⟨rfl, rfl, fun i => ?_⟩
    rw [List.getElem?_nil]
    split
    · rfl
    · rfl
  | cons c text ih =>
    intro s j
    obtain ⟨hx, hy, hcells⟩ := ih (setcBold s j c) (j + 1)
    refine ⟨hx, hy, fun i => ?_⟩
    rw [putText, hcells, setcBold, Screen.store]
    dsimp only
    rcases lt_trichotomy i j with hlt | rfl | hgt
    · rw [if_neg (by omega), if_neg (by omega), Function.update_of_ne hlt.ne]
    · rw [if_neg (by omega), if_pos le_rfl, Function.update_self, Int.sub_self]
      rfl
    · rw [if_pos (by omega), if_pos hgt.le, Function.update_of_ne hgt.ne',
        show (i - j).toNat = (i - (j + 1)).toNat + 1 by omega, List.getElem?_cons_succ]

theorem clearLine_spec (s : Screen) (line : Nat) : (clearLine s line).xCord = s.xCord ∧
    (clearLine s line).yCord = s.yCord ∧ ∀ i, (clearLine s line).cells i =
      if (line : Int) * 80 ≤ i ∧ i < (line : Int) * 80 + 25 then 0x20 else s.cells i := by
  have hloop : ∀ n : Nat, ((List.range n).foldl (clearCell line) s).xCord = s.xCord ∧
      ((List.range n).foldl (clearCell line) s).yCord = s.yCord ∧
      ∀ i, ((List.range n).foldl (clearCell line) s).cells i =
        if (line : Int) * 80 ≤ i ∧ i < (line : Int) * 80 + n then 0x20 else s.cells i := by
    intro n
    induction n with
    | zero =>
      refine ⟨rfl, rfl, fun i => ?_⟩
      rw [if_neg (by omega)]
      rfl
    | succ n ih =>
      obtain ⟨hx, hy, hcells⟩ := ih
      rw [List.range_succ, List.foldl_append, List.foldl_cons, List.foldl_nil]
      refine ⟨hx, hy, fun i => ?_⟩
      rw [clearCell, Screen.store]
      dsimp only
      by_cases hi : i = (line : Int) * 80 + n
      · rw [hi, Function.update_self, if_pos (by omega)]
      · rw [Function.update_of_ne hi, hcells]
        by_cases hlt : (line : Int) * 80 ≤ i ∧ i < (line : Int) * 80 + n
        · rw [if_pos hlt, if_pos (by omega)]
        · rw [if_neg hlt, if_neg (by omega)]
  exact hloop 25

/-! ## Above and below row 23 -/

structure SameText (s u : Screen) : Prop where
  cells : ∀ i < 23 * 80, u.cells i = s.cells i
  xCord : u.xCord = s.xCord
  yCord : u.yCord = s.yCord

def SameBar (s u : Screen) : Prop := ∀ i, 23 * 80 ≤ i → i < 25 * 80 → u.cells i = s.cells i

theorem SameText.trans {v : Screen} (h : SameText s u) (h' : SameText u v) : SameText s v :=
  ⟨fun i hi => (h'.cells i hi).trans (h.cells i hi), h'.xCord.trans h.xCord, h'.yCord.trans h.yCord⟩

theorem SameText.shows {p : Paper} (h : SameText s u) (hs : Shows s p) : Shows u p := by
  refine ⟨⟨fun r hr c hc => ?_, hs.fresh, h.xCord.trans hs.xCord, ?_, hs.col, hs.above, hs.below⟩, hs.inside⟩
  · rw [h.cells _ (by omega), hs.cells r hr c hc]
  · rw [h.yCord, hs.yCord]

theorem sameText_putText {j : Int} (hj : 23 * 80 ≤ j) (text : List Byte) : SameText s (putText s j text) := by
  obtain ⟨hx, hy, hcells⟩ := putText_spec text s j
  refine ⟨fun i hi => ?_, hx, hy⟩
  rw [hcells, if_neg (by omega)]

theorem sameText_clearLine {line : Nat} (hline : 23 ≤ line) : SameText s (clearLine s line) := by
  obtain ⟨hx, hy, hcells⟩ := clearLine_spec s line
  refine ⟨fun i hi => ?_, hx, hy⟩
  rw [hcells, if_neg (by omega)]

theorem sameBar_putText (h : SameBar s u) (j : Int) (text : List Byte) : SameBar (putText s j text) (putText u j text) := by
  intro i hi hi'
  rw [(putText_spec text u j).2.2, (putText_spec text s j).2.2, h i hi hi']

theorem sameBar_clearLine (h : SameBar s u) (line : Nat) : SameBar (clearLine s line) (clearLine u line) := by
  intro i hi hi'
  rw [(clearLine_spec u line).2.2, (clearLine_spec s line).2.2, h i hi hi']

/-- What goes into the bar does not depend on the screen, and does not touch the text. -/
theorem printCurrentTask_same {id num : Pid} {s' : Screen} (hs : printCurrentTask s id num = some s') :
    SameText s s' ∧ ∀ u, SameBar s u → ∃ u', printCurrentTask u id num = some u' ∧ SameBar s' u' := by
  rw [printCurrentTask, Option.map_eq_some_iff] at hs
  obtain ⟨text, htext, rfl⟩ := hs
  refine ⟨sameText_putText (by decide) text, fun u hu => ⟨putText u (24 * 80) text, ?_, sameBar_putText hu _ _⟩⟩
  rw [printCurrentTask, htext, Option.map_some]

theorem printStatusBar_same {millis : BitVec 32} {id num : Pid} {s' : Screen}
    (hs : printStatusBar s millis id num = some s') :
    SameText s s' ∧ ∀ u, SameBar s u → ∃ u', printStatusBar u millis id num = some u' ∧ SameBar s' u' := by
  rw [printStatusBar, Option.bind_eq_some_iff] at hs
  obtain ⟨s₁, htime, htask⟩ := hs
  rw [printTime, Option.map_eq_some_iff] at htime
  obtain ⟨text, htext, rfl⟩ := htime
  obtain ⟨htask, hbar⟩ := printCurrentTask_same htask
  refine ⟨?_, fun u hu => ?_⟩
  · have h₂₃ : SameText s (clearLine s 23) := sameText_clearLine le_rfl
    have h₂₄ : SameText (clearLine s 23) (clearLine (clearLine s 23) 24) := sameText_clearLine (by decide)
    exact ((h₂₃.trans h₂₄).trans (sameText_putText (by decide) _)).trans htask
  · obtain ⟨u', hu', hsame⟩ := hbar _ (sameBar_putText (sameBar_clearLine (sameBar_clearLine hu 23) 24) _ _)
    refine ⟨u', ?_, hsame⟩
    rw [printStatusBar, printTime, htext, Option.map_some, Option.bind_some]
    exact hu'

/-- A character that fits stays out of the bar. -/
theorem putc_bar {p : Paper} {call : Call} (h : Shows s p) (hfit : Fits s call) (hs : Console.step s call = some u) :
    SameBar s u := by
  have hx := h.xCord
  have hy := h.yCord
  have hcol := h.col
  have habove := h.above
  have hinside := h.inside
  rw [step_eq, Option.some.injEq] at hs
  subst hs
  have hscroll : ∀ v : Screen, (∀ i, 23 * 80 ≤ i → v.cells i = s.cells i) → SameBar s
      (if call.inKernelMode then updateCursor (scroll v) else scroll v) := by
    intro v hv i hi _
    have hcells : (if call.inKernelMode then updateCursor (scroll v) else scroll v).cells i = (scroll v).cells i := by
      split
      · rfl
      · rfl
    have hmoved := moveRows_below v hi
    rw [hcells, scroll, ← hv i hi]
    split
    · generalize moveRows v = w at hmoved ⊢
      exact hmoved
    · rfl
  apply hscroll
  intro i hi
  generalize (if call.bold then (0x0800 : BitVec 16) else 0) = attr
  split_ifs with hback hnew htab hp
  · -- the cell that is blanked lies in the text
    obtain ⟨hnear, hin⟩ := Near.stepBack h
    have hx' := hnear.xCord
    have hy' := hnear.yCord
    have hcol' := hnear.col
    have htop : p.stepBack.top = p.top := by
      rw [Paper.stepBack]
      split
      · rfl
      · rfl
    have hsame : (stepBack s).cells = s.cells := by
      rw [stepBack]
      split
      · rfl
      · rfl
    rw [backspace, Screen.store]
    dsimp only
    rw [Function.update_of_ne, hsame]
    rw [Screen.loc]
    omega
  · rfl
  · rfl
  · have hroom := hfit hp
    rw [printable, Screen.store]
    dsimp only
    rw [Function.update_of_ne]
    rw [Screen.loc]
    omega
  · rfl

/-! ## Printing always comes to an end -/

theorem taskText_some (id num : Pid) : ∃ text, taskText id num = some text := by
  simp only [taskText, sysItoa_eq, bind, Option.bind_some]
  exact ⟨_, rfl⟩

theorem timeText_some (millis : BitVec 32) : ∃ text, timeText millis = some text := by
  simp only [timeText, sysItoa_eq, bind, Option.bind_some]
  exact ⟨_, rfl⟩

theorem showTask_some (m : Machine) : ∃ v, showTask m = some ⟨m.sched, v, shown m.sched :: m.printed⟩ := by
  obtain ⟨text, htext⟩ := taskText_some (shown m.sched).1 (shown m.sched).2
  rw [showTask, printCurrentTask, htext]
  exact ⟨_, rfl⟩

theorem showBar_some (m : Machine) : ∃ v, showBar m = some ⟨m.sched, v, shown m.sched :: m.printed⟩ := by
  obtain ⟨time, htime⟩ := timeText_some (m.sched.timerTick + 1)
  obtain ⟨text, htext⟩ := taskText_some (shown m.sched).1 (shown m.sched).2
  rw [showBar, printStatusBar, printTime, htime, Option.map_some, Option.bind_some, printCurrentTask, htext]
  exact ⟨_, rfl⟩

theorem runOp_eq_some {op : Op} : runOp m op = some m' ↔ ∃ t, Scheduler.step m.sched op = some t ∧ m' = { m with sched := t } := by
  rw [runOp, Option.map_eq_some_iff]
  exact exists_congr fun t => and_congr_right fun _ => eq_comm

theorem step_op {op : Op} (hop : op ≠ .tick) :
    step m (.op op) = (runOp m op).bind fun m => if shows op then showTask m else some m := by
  cases op with
  | tick => exact absurd rfl hop
  | _ => rfl

/-- Where the tasks go on, so does the machine. -/
theorem step_some {op : Op} {t : Sched} (hs : Scheduler.step m.sched op = some t) :
    ∃ m', step m (.op op) = some m' ∧ m'.sched = t := by
  by_cases htick : op = .tick
  · subst htick
    obtain ⟨v, hv⟩ := showBar_some m
    obtain ⟨w, hw⟩ := showTask_some ⟨t, v, shown m.sched :: m.printed⟩
    have hrun := runOp_eq_some (m := ⟨m.sched, v, shown m.sched :: m.printed⟩).mpr ⟨t, hs, rfl⟩
    refine ⟨⟨t, w, shown t :: shown m.sched :: m.printed⟩, ?_, rfl⟩
    rw [step, hv, Option.bind_some, hrun, Option.bind_some, hw]
  · rw [step_op htick, runOp_eq_some.mpr ⟨t, hs, rfl⟩, Option.bind_some]
    split
    · obtain ⟨w, hw⟩ := showTask_some { m with sched := t }
      exact ⟨_, hw, rfl⟩
    · exact ⟨_, rfl, rfl⟩

theorem run_some {t : Sched} (events : List Event) (hr : Transition.run Scheduler.step m.sched (opsOf events) = some t) :
    ∃ m', Transition.run step m events = some m' ∧ m'.sched = t := by
  induction events generalizing m with
  | nil => exact ⟨m, rfl, Option.some.inj hr⟩
  | cons e events ih =>
    cases e with
    | putc call =>
      obtain ⟨v, hv⟩ : ∃ v, Console.step m.screen call = some v := ⟨_, rfl⟩
      obtain ⟨m', hm', ht⟩ := ih (m := { m with screen := v }) hr
      refine ⟨m', (Transition.run_cons_eq_some _).mpr ⟨_, ?_, hm'⟩, ht⟩
      rw [step, hv, Option.map_some]
    | op op =>
      obtain ⟨t₁, h₁, hrest⟩ := (Transition.run_cons_eq_some _).mp hr
      obtain ⟨m₁, hm₁, rfl⟩ := step_some h₁
      obtain ⟨m', hm', ht⟩ := ih hrest
      exact ⟨m', (Transition.run_cons_eq_some _).mpr ⟨m₁, hm₁, hm'⟩, ht⟩

/-! ## Operations and characters -/

structure Twin (m m' : Machine) : Prop where
  sched : m'.sched = m.sched
  printed : m'.printed = m.printed
  bar : SameBar m.screen m'.screen

/-- An action that leaves the text alone, and does the same whatever the text is. -/
def BarOnly (f : Machine → Option Machine) : Prop := ∀ m m', f m = some m' →
  SameText m.screen m'.screen ∧ ∀ u, Twin m u → ∃ u', f u = some u' ∧ Twin m' u'

theorem barOnly_some : BarOnly some := by
  rintro m m' h
  obtain rfl := Option.some.inj h
  exact ⟨⟨fun _ _ => rfl, rfl, rfl⟩, fun u hu => ⟨u, rfl, hu⟩⟩

theorem BarOnly.bind {f g : Machine → Option Machine} (hf : BarOnly f) (hg : BarOnly g) :
    BarOnly fun m => (f m).bind g := by
  intro m m' h
  obtain ⟨m₁, h₁, h₂⟩ := Option.bind_eq_some_iff.mp h
  obtain ⟨htext, htwin⟩ := hf m m₁ h₁
  obtain ⟨htext', htwin'⟩ := hg m₁ m' h₂
  refine ⟨htext.trans htext', fun u hu => ?_⟩
  obtain ⟨u₁, hu₁, hsame⟩ := htwin u hu
  obtain ⟨u', hu', hsame'⟩ := htwin' u₁ hsame
  exact ⟨u', Option.bind_eq_some_iff.mpr ⟨u₁, hu₁, hu'⟩, hsame'⟩

/-- Something about the tasks is printed into the bar. -/
theorem print_barOnly {f : Sched → Screen → Option Screen} (hf : ∀ t s s', f t s = some s' →
      SameText s s' ∧ ∀ u, SameBar s u → ∃ u', f t u = some u' ∧ SameBar s' u') :
    BarOnly fun m => (f m.sched m.screen).map fun u => { m with screen := u, printed := shown m.sched :: m.printed } := by
  intro m m' h
  obtain ⟨v, hv, rfl⟩ := Option.map_eq_some_iff.mp h
  obtain ⟨htext, hbar⟩ := hf _ _ _ hv
  refine ⟨htext, fun u hu => ?_⟩
  obtain ⟨w, hw, hsame⟩ := hbar u.screen hu.bar
  refine ⟨_, Option.map_eq_some_iff.mpr ⟨w, ?_, rfl⟩, ⟨hu.sched, ?_, hsame⟩⟩
  · rw [hu.sched]
    exact hw
  · rw [hu.sched, hu.printed]

theorem showTask_barOnly : BarOnly showTask :=
  print_barOnly (f := fun t s => printCurrentTask s (shown t).1 (shown t).2) fun _ _ _ h => printCurrentTask_same h

theorem showBar_barOnly : BarOnly showBar :=
  print_barOnly (f := fun t s => printStatusBar s (t.timerTick + 1) (shown t).1 (shown t).2)
    fun _ _ _ h => printStatusBar_same h

theorem runOp_barOnly (op : Op) : BarOnly fun m => runOp m op := by
  intro m m' h
  obtain ⟨s', hs', rfl⟩ := Option.map_eq_some_iff.mp h
  refine ⟨⟨fun _ _ => rfl, rfl, rfl⟩, fun u hu => ⟨_, Option.map_eq_some_iff.mpr ⟨s', ?_, rfl⟩, ⟨rfl, hu.printed, hu.bar⟩⟩⟩
  rw [hu.sched]
  exact hs'

theorem step_barOnly (op : Op) : BarOnly fun m => step m (.op op) := by
  by_cases htick : op = .tick
  · subst htick
    exact showBar_barOnly.bind ((runOp_barOnly .tick).bind showTask_barOnly)
  · simp only [step_op htick]
    refine (runOp_barOnly op).bind ?_
    split
    · exact showTask_barOnly
    · exact barOnly_some

theorem callsIn_op (op : Op) (events : List Event) : callsIn (.op op :: events) = callsIn events := rfl

theorem callsIn_putc (call : Call) (events : List Event) : callsIn (.putc call :: events) = call :: callsIn events := rfl

theorem step_putc (m : Machine) (call : Call) :
    step m (.putc call) = (Console.step m.screen call).map fun u => { m with screen := u } := rfl

theorem run_shows {p : Paper} (h : Shows m.screen p) (hfit : p.Fits (callsIn events))
    (hr : Transition.run step m events = some m') : Shows m'.screen (p.run (callsIn events)) := by
  induction events generalizing m p with
  | nil =>
    obtain rfl := Option.some.inj hr
    exact h
  | cons e events ih =>
    obtain ⟨m₁, h₁, hrest⟩ := (Transition.run_cons_eq_some _).mp hr
    cases e with
    | op op =>
      rw [callsIn_op] at hfit ⊢
      exact ih ((step_barOnly op m m₁ h₁).1.shows h) hfit hrest
    | putc call =>
      rw [callsIn_putc] at hfit ⊢
      rw [step_putc, Option.map_eq_some_iff] at h₁
      obtain ⟨v, hv, rfl⟩ := h₁
      have hfits := fits_of_shows h hfit.1
      exact ih (step_shows h hfits hv) hfit.2 hrest

theorem run_twin {p : Paper} {u : Machine} (h : Shows m.screen p) (hfit : p.Fits (callsIn events)) (hu : Twin m u)
    (hr : Transition.run step m events = some m') : ∃ u', Transition.run step u (opsIn events) = some u' ∧ Twin m' u' := by
  induction events generalizing m p u with
  | nil =>
    obtain rfl := Option.some.inj hr
    exact ⟨u, rfl, hu⟩
  | cons e events ih =>
    obtain ⟨m₁, h₁, hrest⟩ := (Transition.run_cons_eq_some _).mp hr
    cases e with
    | op op =>
      rw [callsIn_op] at hfit
      obtain ⟨htext, htwin⟩ := step_barOnly op m m₁ h₁
      obtain ⟨u₁, hu₁, hsame⟩ := htwin u hu
      obtain ⟨u', hu', hsame'⟩ := ih (htext.shows h) hfit hsame hrest
      exact ⟨u', (Transition.run_cons_eq_some _).mpr ⟨u₁, hu₁, hu'⟩, hsame'⟩
    | putc call =>
      rw [callsIn_putc] at hfit
      rw [step_putc, Option.map_eq_some_iff] at h₁
      obtain ⟨v, hv, rfl⟩ := h₁
      have hfits := fits_of_shows h hfit.1
      have hbar := putc_bar h hfits hv
      have htwin : Twin { m with screen := v } u := by
        refine ⟨hu.sched, hu.printed, fun i hi hi' => ?_⟩
        rw [hu.bar i hi hi']
        exact (hbar i hi hi').symm
      exact ih (step_shows h hfits hv) hfit.2 htwin hrest

/-- Two screens that show the same window. -/
theorem shows_same {p : Paper} (hs : Shows s p) (hu : Shows u p) :
    (∀ i, 0 ≤ i → i < 23 * 80 → u.cells i = s.cells i) ∧ u.xCord = s.xCord ∧ u.yCord = s.yCord := by
  refine ⟨fun i hi hi' => ?_, hu.xCord.trans hs.xCord.symm, ?_⟩
  · obtain ⟨r, c, hr, hc, rfl⟩ : ∃ r c : Nat, r < 23 ∧ c < 80 ∧ i = (r : Int) * 80 + c :=
      ⟨(i / 80).toNat, (i % 80).toNat, by omega, by omega, by omega⟩
    rw [hs.cells r hr c hc, hu.cells r hr c hc]
  · have hy := hs.yCord
    have hy' := hu.yCord
    omega

/-- However the kernel's work and the output mix, the text and the cursor are what the output
alone leaves, and the bar and the tasks are what the work alone leaves. -/
theorem rows_separate (h : OnScreen m.screen) (hfit : (paperOf m.screen).Fits (callsIn events))
    (hr : Transition.run step m events = some m') :
    (∃ u, Transition.run Console.step m.screen (callsIn events) = some u ∧
      (∀ i, 0 ≤ i → i < 23 * 80 → m'.screen.cells i = u.cells i) ∧ m'.screen.xCord = u.xCord ∧ m'.screen.yCord = u.yCord) ∧
    ∃ u, Transition.run step m (opsIn events) = some u ∧ m'.sched = u.sched ∧
      ∀ i, 23 * 80 ≤ i → i < 25 * 80 → m'.screen.cells i = u.screen.cells i := by
  have hpaper := shows_paperOf h
  constructor
  · obtain ⟨u, hu⟩ := consoleRun_isSome m.screen (callsIn events)
    exact ⟨u, hu, shows_same (Terminal.run_shows hpaper (along_of_paper hpaper hfit) hu) (run_shows hpaper hfit hr)⟩
  · obtain ⟨u, hu, htwin⟩ := run_twin hpaper hfit ⟨rfl, rfl, fun _ _ _ => rfl⟩ hr
    exact ⟨u, hu, htwin.sched.symm, fun i hi hi' => (htwin.bar i hi hi').symm⟩

/-- A letter between a fork and a tick. -/
theorem rows_separate_letter : ∃ m', Transition.run step ⟨initializeTasking, Screen.start fun _ => 0x0F20, []⟩
      [.op .fork, .putc letter, .op .tick] = some m' ∧
    m'.screen.cells 0 = 97 ∧ m'.screen.cells 1 = 0x0F20 ∧ m'.screen.xCord = 1 := by
  have hsome : (Transition.run Scheduler.step initializeTasking [.fork, .tick]).isSome := by
    decide +kernel
  obtain ⟨t, ht⟩ := Option.isSome_iff_exists.mp hsome
  obtain ⟨m', hm', -⟩ := run_some (m := ⟨initializeTasking, Screen.start fun _ => 0x0F20, []⟩)
    [.op .fork, .putc letter, .op .tick] ht
  have hfit : (paperOf (Screen.start fun _ => 0x0F20)).Fits [letter] := ⟨fun _ => by decide, trivial⟩
  obtain ⟨⟨u, hu, hcells, hx, -⟩, -⟩ := rows_separate (onScreen_start _) hfit hm'
  have hletter : u = updateCursor (printable (Screen.start fun _ => 0x0F20) 97 0) := (Option.some.inj hu).symm
  refine ⟨m', hm', ?_, ?_, ?_⟩
  · rw [hcells 0 le_rfl (by decide), hletter]
    rfl
  · rw [hcells 1 (by decide) (by decide), hletter]
    rfl
  · rw [hx, hletter]
    rfl

end StatusBar
