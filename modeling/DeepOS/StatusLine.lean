import DeepOS.StatusBar

/-!
# What the status bar says

A text is printed over the last one, and `clear_line` blanks 25 cells, which is less than any
text has. So a row shows the last text, and behind it the ends of the longer ones before it.
The clock is never printed over a longer text; the tasks are.
-/
namespace StatusLine

open CString Numerals Printf TaskTable Accounting TaskInvariant Terminal StatusBar
open Console (Screen Call)
open Scheduler (Sched Op Allowed switchTask resume kexecvpe timerHandler updateWaitingAndSleepingTasks initializeTasking)

/-! ## Texts over texts -/

section

variable {α : Type}

/-- A row on which texts have been printed from its first cell on, the last one first in the
list. -/
def layers (row : List α) (texts : List (List α)) : List α :=
  texts.foldr (fun text row => text ++ row.drop text.length) row

/-- On a blank row the cells from the `k`-th on are blank when no text has reached them. -/
theorem layers_drop {blank : α} {n k : Nat} {texts : List (List α)} (hlast : ∀ t ∈ texts, ∃ c ∈ t.getLast?, c ≠ blank) :
    (layers (List.replicate n blank) texts).drop k = List.replicate (n - k) blank ↔ ∀ t ∈ texts, t.length ≤ k := by
  induction texts with
  | nil => simp [layers]
  | cons t texts ih =>
    have ih' := ih fun u hu => hlast u (List.mem_cons_of_mem t hu)
    have hrow : layers (List.replicate n blank) (t :: texts) =
        t ++ (layers (List.replicate n blank) texts).drop t.length := rfl
    rw [hrow, List.forall_mem_cons, List.drop_append]
    by_cases hlen : t.length ≤ k
    · rw [List.drop_eq_nil_of_le hlen, List.nil_append, List.drop_drop, Nat.add_sub_cancel' hlen, ih']
      exact (and_iff_right hlen).symm
    · -- the last character of `t` lies beyond `k`
      refine iff_of_false (fun heq => ?_) fun h => hlen h.1
      obtain ⟨c, hc, hne⟩ := hlast t List.mem_cons_self
      have hmem : c ∈ t.drop k := by
        have htail := List.getLast?_drop (l := t) (i := k)
        rw [if_neg hlen] at htail
        exact List.mem_of_getLast? (htail.trans hc)
      have hblank : c ∈ List.replicate (n - k) blank := heq ▸ List.mem_append_left _ hmem
      exact hne (List.eq_of_mem_replicate hblank)

end

/-! ## Reading a row -/

variable {s u : Screen} {at₀ : Int} {n : Nat}

/-- A string as it can be read on the screen. -/
def reading (s : Screen) (at₀ : Int) (n : Nat) : List Byte :=
  (List.range n).map fun j : Nat => (s.cells (at₀ + j)).setWidth 8

theorem setWidth_cellOf (c : Byte) : (cellOf c).setWidth 8 = c := by
  revert c
  decide

theorem reading_length : (reading s at₀ n).length = n := by
  rw [reading, List.length_map, List.length_range]

theorem reading_congr (h : ∀ i, at₀ ≤ i → i < at₀ + n → u.cells i = s.cells i) : reading u at₀ n = reading s at₀ n := by
  apply List.map_congr_left
  intro j hj
  rw [List.mem_range] at hj
  rw [h _ (by omega) (by omega)]

/-- The end of a row. -/
theorem reading_drop_congr {k : Nat} (h : ∀ i, at₀ + k ≤ i → i < at₀ + n → u.cells i = s.cells i) :
    (reading u at₀ n).drop k = (reading s at₀ n).drop k := by
  apply List.ext_getElem
  · rw [List.length_drop, List.length_drop, reading_length, reading_length]
  intro j hj hj'
  rw [List.length_drop, reading_length] at hj
  simp only [reading, List.getElem_drop, List.getElem_map, List.getElem_range]
  rw [h _ (by omega) (by omega)]

theorem reading_putText {text : List Byte} (hlen : text.length ≤ n) :
    reading (putText s at₀ text) at₀ n = text ++ (reading s at₀ n).drop text.length := by
  have hcells := (putText_spec text s at₀).2.2
  apply List.ext_getElem
  · simp only [reading_length, List.length_append, List.length_drop]
    omega
  intro j hj hj'
  rw [reading_length] at hj
  simp only [reading, List.getElem_map, List.getElem_range]
  rw [hcells, if_pos (by omega), show (at₀ + (j : Int) - at₀).toNat = j by omega]
  by_cases hin : j < text.length
  · rw [List.getElem?_eq_getElem hin, List.getElem_append_left hin, Option.map_some, Option.getD_some, setWidth_cellOf]
  · rw [List.getElem?_eq_none (by omega), List.getElem_append_right (by omega), Option.map_none, Option.getD_none]
    simp only [List.getElem_drop, List.getElem_map, List.getElem_range]
    rw [show text.length + (j - text.length) = j by omega]

/-- A text leaves the cells before it and behind it alone. -/
theorem putText_other {j i : Int} {text : List Byte} (hi : i < j ∨ j + text.length ≤ i) :
    (putText s j text).cells i = s.cells i := by
  rw [(putText_spec text s j).2.2]
  split
  · rw [List.getElem?_eq_none (by omega), Option.map_none, Option.getD_none]
  · rfl

theorem clearLine_other {k : Nat} {i : Int} (hi : i < (k : Int) * 80 ∨ (k : Int) * 80 + 25 ≤ i) :
    (clearLine s k).cells i = s.cells i := by
  rw [(clearLine_spec s k).2.2, if_neg (by omega)]

/-! ## The two texts -/

theorem sysItoa_nat {k : Nat} (hk : k < 2 ^ 31) : sysItoa (BitVec.ofNat 64 k) = some (decimal k) := by
  rw [NumberReaders.sysItoa_libcItoa hk, libcItoa_eq, BitVec.toNat_ofNat, Nat.mod_eq_of_lt (by omega)]

def barText (shown : Pid × Pid) : List Byte :=
  chars "Cur Proc: " ++ decimal shown.1.toNat ++ chars "     Num Proc: " ++ decimal shown.2.toNat

theorem taskText_eq {id num : Pid} (hid : id.toNat < 2 ^ 31) (hnum : num.toNat < 2 ^ 31) :
    taskText id num = some (barText (id, num)) := by
  have hword : ∀ x : Pid, x.setWidth 64 = BitVec.ofNat 64 x.toNat := by
    intro x
    apply BitVec.eq_of_toNat_eq
    rw [BitVec.toNat_setWidth, BitVec.toNat_ofNat]
  simp only [taskText, bind, hword, sysItoa_nat hid, sysItoa_nat hnum, Option.bind_some, barText]

/-- Longer than what `clear_line` blanks, and not as long as to reach the clock. -/
theorem barText_length {p : Pid × Pid} (hid : p.1.toNat < 2 ^ 31) (hnum : p.2.toNat < 2 ^ 31) :
    25 ≤ (barText p).length ∧ (barText p).length ≤ 50 := by
  have hcur : (chars "Cur Proc: ").length = 10 := rfl
  have hcount : (chars "     Num Proc: ").length = 15 := rfl
  have hid' : (decimal p.1.toNat).length ≤ 10 := numeral_length_le (by decide) _ (by decide) (by omega)
  have hnum' : (decimal p.2.toNat).length ≤ 10 := numeral_length_le (by decide) _ (by decide) (by omega)
  simp only [barText, List.length_append, hcur, hcount]
  omega

/-- A text ends with a digit. -/
theorem barText_last (p : Pid × Pid) : ∃ c ∈ (barText p).getLast?, c ≠ 32 := by
  have hne : decimal p.2.toNat ≠ [] := List.ne_nil_of_length_pos (numeral_pos (by decide) _ _)
  refine ⟨(decimal p.2.toNat).getLast hne, ?_, ?_⟩
  · rw [barText, List.getLast?_append, List.getLast?_eq_some_getLast hne]
    rfl
  · intro hblank
    have hdigit := NumberReaders.decimal_chars (List.getLast_mem hne)
    rw [hblank] at hdigit
    exact absurd hdigit.2.1 (by decide)

def clockText (t : Nat) : List Byte :=
  lpad (decimal (t / 3600)) ++ chars ":" ++ lpad (decimal (t / 60 % 60)) ++ chars ":" ++ lpad (decimal (t % 60))

theorem timeText_eq {k : Nat} (hk : k < 2 ^ 31) : timeText (BitVec.ofNat 32 k) = some (clockText (k / 18)) := by
  have hint : (BitVec.ofNat 32 k).toInt.tdiv 18 = ((k / 18 : Nat) : Int) := by
    rw [NumberReaders.toInt_ofNat hk]
    rfl
  have hhour : ((k / 18 : Nat) : Int).tdiv 3600 = ((k / 18 / 3600 : Nat) : Int) := rfl
  have hmin : (((k / 18 : Nat) : Int).tdiv 60).tmod 60 = ((k / 18 / 60 % 60 : Nat) : Int) := rfl
  have hsec : ((k / 18 : Nat) : Int).tmod 60 = ((k / 18 % 60 : Nat) : Int) := rfl
  have hitoa : ∀ x : Nat, x < 2 ^ 31 → sysItoa (BitVec.ofInt 64 (x : Int)) = some (decimal x) := by
    intro x hx
    rw [BitVec.ofInt_natCast, sysItoa_nat hx]
  simp only [timeText, bind, hint, hhour, hmin, hsec]
  rw [hitoa _ (by omega), hitoa _ (by omega), hitoa _ (by omega)]
  rfl

theorem lpad_length (text : List Byte) : (lpad text).length = max 2 text.length := by
  rcases text with _ | ⟨a, _ | ⟨b, rest⟩⟩
  · rfl
  · rfl
  · rw [lpad]
    · simp
    · simp
    · simp

/-- Minutes and seconds have two digits. -/
theorem clockText_length (t : Nat) : (clockText t).length = max 2 (decimal (t / 3600)).length + 6 := by
  have hcolon : (chars ":").length = 1 := rfl
  have htwo : ∀ k, k < 60 → (decimal k).length ≤ 2 := fun k hk =>
    numeral_length_le (by decide) _ (by decide) (hk.trans (by decide))
  have hmin := htwo (t / 60 % 60) (by omega)
  have hsec := htwo (t % 60) (by omega)
  simp only [clockText, List.length_append, lpad_length, hcolon]
  omega

theorem decimal_mono {k l : Nat} (h : k ≤ l) : (decimal k).length ≤ (decimal l).length := by
  by_cases hk : k = 0
  · subst hk
    exact numeral_pos (by decide) _ l
  · have hl : l ≠ 0 := by omega
    rw [decimal, numeral, numeral, List.length_reverse, List.length_reverse, List.length_map, List.length_map, places,
      places, if_neg hk, if_neg hl]
    exact Nat.le_length_digits_le 10 k l h

/-- No clock is shorter than the ones before it. -/
theorem clockText_mono {t t' : Nat} (h : t ≤ t') : (clockText t).length ≤ (clockText t').length := by
  have hhours := decimal_mono (Nat.div_le_div_right (c := 3600) h)
  rw [clockText_length, clockText_length]
  omega

/-- The cells from the 50th of row 24 on, after `ticks` ticks. -/
def uptime (row : List Byte) : Nat → List Byte
  | 0 => row
  | ticks + 1 => (chars "Uptime: " ++ clockText ((ticks + 1) / 18)) ++
      row.drop (chars "Uptime: " ++ clockText ((ticks + 1) / 18)).length

theorem uptime_length {k : Nat} (hk : k < 2 ^ 31) : (chars "Uptime: " ++ clockText (k / 18)).length ≤ 30 := by
  have hup : (chars "Uptime: ").length = 8 := rfl
  have hhours : (decimal (k / 18 / 3600)).length ≤ 10 := numeral_length_le (by decide) _ (by decide) (by omega)
  rw [List.length_append, hup, clockText_length]
  omega

/-- A clock covers the one before it. -/
theorem uptime_succ (row : List Byte) (k : Nat) : (chars "Uptime: " ++ clockText ((k + 1) / 18)) ++
    (uptime row k).drop (chars "Uptime: " ++ clockText ((k + 1) / 18)).length = uptime row (k + 1) := by
  cases k with
  | zero => rfl
  | succ k =>
    have hmono : (clockText ((k + 1) / 18)).length ≤ (clockText ((k + 1 + 1) / 18)).length :=
      clockText_mono (Nat.div_le_div_right (k + 1).le_succ)
    have hlen : (chars "Uptime: " ++ clockText ((k + 1) / 18)).length ≤
        (chars "Uptime: " ++ clockText ((k + 1 + 1) / 18)).length := by
      rw [List.length_append, List.length_append]
      omega
    rw [uptime, uptime]
    congr 1
    rw [List.drop_append, List.drop_eq_nil_of_le hlen, List.nil_append, List.drop_drop, Nat.add_sub_cancel' hlen]

/-! ## One printing -/

variable {m m' : Machine} {row clock : List Byte}

def taskRow (s : Screen) : List Byte := reading s (24 * 80) 50

def clockRow (s : Screen) : List Byte := reading s (25 * 80 - (22 + 8)) 30

theorem printCurrentTask_rows {id num : Pid} (hid : id.toNat < 2 ^ 31) (hnum : num.toNat < 2 ^ 31)
    (hs : printCurrentTask s id num = some u) :
    taskRow u = barText (id, num) ++ (taskRow s).drop (barText (id, num)).length ∧ clockRow u = clockRow s := by
  have hlen := (barText_length (p := (id, num)) hid hnum).2
  rw [printCurrentTask, taskText_eq hid hnum, Option.map_some, Option.some.injEq] at hs
  subst hs
  exact ⟨reading_putText hlen, reading_congr fun i hi _ => putText_other (Or.inr (by omega))⟩

theorem printStatusBar_rows {ticks : Nat} {id num : Pid} (ht : ticks < 2 ^ 31) (hid : id.toNat < 2 ^ 31)
    (hnum : num.toNat < 2 ^ 31) (hs : printStatusBar s (BitVec.ofNat 32 ticks) id num = some u) :
    taskRow u = barText (id, num) ++ (taskRow s).drop (barText (id, num)).length ∧
      clockRow u = (chars "Uptime: " ++ clockText (ticks / 18)) ++
        (clockRow s).drop (chars "Uptime: " ++ clockText (ticks / 18)).length := by
  rw [printStatusBar, printTime, timeText_eq ht, Option.map_some, Option.bind_some] at hs
  obtain ⟨htask, hclock⟩ := printCurrentTask_rows hid hnum hs
  have hlen := (barText_length (p := (id, num)) hid hnum).1
  have hcleared : ∀ i : Int, 24 * 80 + 25 ≤ i → (clearLine (clearLine s 23) 24).cells i = s.cells i := by
    intro i hi
    rw [clearLine_other (Or.inr (by omega)), clearLine_other (Or.inr (by omega))]
  refine ⟨?_, ?_⟩
  · -- what is blanked is covered by the text
    rw [htask, List.append_right_inj]
    apply reading_drop_congr
    intro i hi hi'
    rw [putText_other (Or.inl (by omega)), hcleared i (by omega)]
  · rw [hclock, clockRow, reading_putText (uptime_length ht), List.append_right_inj]
    apply reading_drop_congr
    intro i hi _
    exact hcleared i (by omega)

/-- The pid of a task and the number of tasks are small. -/
theorem shown_lt {t : Sched} (h : SchedInv t) : (shown t).1.toNat < 2 ^ 31 ∧ (shown t).2.toNat = numtasks t.readyQueue ∧
    (shown t).2.toNat < 2 ^ 31 := by
  have hcurrent : (t.readyQueue t.current).status ≠ .free := by
    rw [h.current]
    decide
  have hid : (shown t).1.toNat = t.current.val + 1 := by
    rw [shown, Sched.currentTask, h.table.id_eq hcurrent, pidOf_toNat]
  have hcount : numtasks t.readyQueue ≤ 100 := by
    rw [numtasks]
    exact List.countP_le_length.trans_eq (List.length_finRange)
  have hnum : (shown t).2.toNat = numtasks t.readyQueue := by
    rw [shown, BitVec.toNat_ofNat, Nat.mod_eq_of_lt (by omega)]
  have hslot := t.current.isLt
  omega

theorem showTask_rows (h : SchedInv m.sched) (hs : showTask m = some m') :
    m'.sched = m.sched ∧ m'.printed = shown m.sched :: m.printed ∧
    taskRow m'.screen = barText (shown m.sched) ++ (taskRow m.screen).drop (barText (shown m.sched)).length ∧
    clockRow m'.screen = clockRow m.screen := by
  obtain ⟨v, hv, rfl⟩ := Option.map_eq_some_iff.mp hs
  obtain ⟨hid, -, hnum⟩ := shown_lt h
  exact ⟨rfl, rfl, printCurrentTask_rows hid hnum hv⟩

/-! ## Runs -/

/-- The forks that the bar does not show yet. -/
def unshown (n : Nat) (op : Op) : Nat := if shows op then 0 else n + [op].count .fork

/-- What is on row 24 after the operations, over the row of the start. -/
structure Displays (row clock : List Byte) (ops : List Op) (m : Machine) : Prop where
  inv : SchedInv m.sched
  task : taskRow m.screen = layers row (m.printed.map barText)
  last : ∃ num earlier, m.printed = (m.sched.currentTask.id, num) :: earlier ∧
    num.toNat + ops.foldl unshown 0 = numtasks m.sched.readyQueue
  tick : m.sched.timerTick = BitVec.ofNat 32 (ops.count .tick)
  clock : clockRow m.screen = uptime clock (ops.count .tick)

theorem step_timerTick {t t' : Sched} {op : Op} (hs : Scheduler.step t op = some t') :
    t'.timerTick = t.timerTick + BitVec.ofNat 32 ([op].count .tick) := by
  have hresume : ∀ (v : Sched) (n : Slot), (resume v n).timerTick = v.timerTick := by
    intro v n
    rw [resume]
    split
    · rfl
    · rfl
  have hswitch : ∀ {v : Sched}, switchTask v = some t' → t'.timerTick = v.timerTick := by
    intro v hv
    obtain ⟨c, -, rfl⟩ := Option.map_eq_some_iff.mp hv
    exact hresume v c
  have hzero : t.timerTick + BitVec.ofNat 32 0 = t.timerTick := BitVec.add_zero _
  cases op with
  | fork =>
    obtain ⟨n, -, rfl⟩ := Option.map_eq_some_iff.mp hs
    exact hzero.symm
  | exit status => exact (hswitch hs).trans hzero.symm
  | sleep time => exact (hswitch hs).trans hzero.symm
  | waitpid pid => exact (hswitch hs).trans hzero.symm
  | exec filename found =>
    obtain rfl := Option.some.inj hs
    rw [kexecvpe]
    split
    · exact hzero.symm
    · exact hzero.symm
  | tick =>
    simp only [Scheduler.step, timerHandler] at hs
    generalize updateWaitingAndSleepingTasks t.readyQueue = q at hs
    exact hswitch hs

/-- An operation that does not print leaves the running task and counts as it counts. -/
theorem step_silent {t t' : Sched} {op : Op} (h : SchedInv t) (hop : shows op = false) (hs : Scheduler.step t op = some t') :
    t'.currentTask.id = t.currentTask.id ∧ numtasks t'.readyQueue = numtasks t.readyQueue + [op].count .fork := by
  have hcounts := (step_counts h hs).1
  cases op with
  | fork =>
    obtain ⟨n, hn, rfl⟩ := kfork_cases h hs
    have hne : t.current ≠ n := by
      intro heq
      have hfree := (h.table.unused n (by omega)).1
      rw [← heq, h.current] at hfree
      cases hfree
    refine ⟨?_, hcounts⟩
    simp only [Sched.currentTask]
    rw [Function.update_of_ne hne]
  | exec filename found =>
    cases found with
    | true => cases hop
    | false =>
      obtain rfl := Option.some.inj hs
      refine ⟨?_, hcounts⟩
      simp [kexecvpe, Sched.setCurrent, Sched.currentTask]
  | exit status => cases hop
  | sleep time => cases hop
  | waitpid pid => cases hop
  | tick => cases hop

/-- `print_current_task` brings the row up to date, whatever was left open before. -/
theorem displays_showTask {ops : List Op} {op : Op} (m₁ : Machine) (hinv : SchedInv m₁.sched) (hop : shows op = true)
    (htask : taskRow m₁.screen = layers row (m₁.printed.map barText))
    (htick : m₁.sched.timerTick = BitVec.ofNat 32 ((ops ++ [op]).count .tick))
    (hclock : clockRow m₁.screen = uptime clock ((ops ++ [op]).count .tick)) (hs : showTask m₁ = some m') :
    Displays row clock (ops ++ [op]) m' := by
  obtain ⟨hsched, hprinted, htask', hclock'⟩ := showTask_rows hinv hs
  refine ⟨hsched ▸ hinv, ?_, ⟨(shown m₁.sched).2, m₁.printed, ?_, ?_⟩, ?_, ?_⟩
  · rw [htask', htask, hprinted]
    rfl
  · rw [hprinted, hsched]
    rfl
  · rw [List.foldl_append, List.foldl_cons, List.foldl_nil, unshown, if_pos hop, hsched]
    exact (shown_lt hinv).2.1
  · rw [hsched, htick]
  · rw [hclock', hclock]

theorem displays_step {ops : List Op} {op : Op} (h : Displays row clock ops m) (hop : Allowed op)
    (hticks : (ops ++ [op]).count .tick < 2 ^ 31) (hs : step m (.op op) = some m') : Displays row clock (ops ++ [op]) m' := by
  obtain ⟨num, earlier, hprinted, hnum⟩ := h.last
  have hcount : (ops ++ [op]).count .tick = ops.count .tick + [op].count .tick := List.count_append
  by_cases htick : op = .tick
  · subst htick
    have hone : (ops ++ [Op.tick]).count .tick = ops.count .tick + 1 := hcount
    obtain ⟨m₁, h₁, hrest⟩ := Option.bind_eq_some_iff.mp hs
    obtain ⟨m₂, h₂, h₃⟩ := Option.bind_eq_some_iff.mp hrest
    obtain ⟨v, hv, rfl⟩ := Option.map_eq_some_iff.mp h₁
    obtain ⟨t, ht, rfl⟩ := runOp_eq_some.mp h₂
    have hnow : m.sched.timerTick + 1 = BitVec.ofNat 32 (ops.count .tick + 1) := by
      rw [h.tick, BitVec.ofNat_add]
      rfl
    obtain ⟨hid, -, hsmall⟩ := shown_lt h.inv
    rw [hnow] at hv
    obtain ⟨htask, hclock⟩ := printStatusBar_rows (by omega) hid hsmall hv
    refine displays_showTask _ (step_inv h.inv hop ht).1 rfl ?_ ?_ ?_ h₃
    · dsimp only
      rw [htask, h.task]
      rfl
    · rw [step_timerTick ht, h.tick, hcount, BitVec.ofNat_add]
    · dsimp only
      rw [hclock, h.clock, hone, uptime_succ]
  · have hsame : (ops ++ [op]).count .tick = ops.count .tick := by
      rw [hcount, List.count_singleton, if_neg (by simpa using htick), Nat.add_zero]
    rw [step_op htick, Option.bind_eq_some_iff] at hs
    obtain ⟨m₁, h₁, hrest⟩ := hs
    obtain ⟨t, ht, rfl⟩ := runOp_eq_some.mp h₁
    have hinv := (step_inv h.inv hop ht).1
    have htick' : t.timerTick = BitVec.ofNat 32 ((ops ++ [op]).count .tick) := by
      rw [step_timerTick ht, h.tick, hcount, BitVec.ofNat_add]
    cases hshows : shows op with
    | true =>
      rw [hshows, if_pos rfl] at hrest
      exact displays_showTask ⟨t, m.screen, m.printed⟩ hinv hshows h.task htick' (hsame ▸ h.clock) hrest
    | false =>
      rw [hshows, if_neg Bool.false_ne_true, Option.some.injEq] at hrest
      subst hrest
      obtain ⟨hid, hforks⟩ := step_silent h.inv hshows ht
      refine ⟨hinv, h.task, ⟨num, earlier, ?_, ?_⟩, htick', hsame ▸ h.clock⟩
      · rw [hid]
        exact hprinted
      · rw [List.foldl_append, List.foldl_cons, List.foldl_nil, unshown, hshows, if_neg Bool.false_ne_true, hforks]
        omega

theorem displays_start {screen : Screen} (hs : start screen = some m) : Displays (taskRow screen) (clockRow screen) [] m := by
  obtain ⟨hsched, hprinted, htask, hclock⟩ := showTask_rows initializeTasking_inv hs
  refine ⟨hsched ▸ initializeTasking_inv, ?_, ⟨(shown initializeTasking).2, [], ?_, ?_⟩, ?_, hclock⟩
  · rw [htask, hprinted]
    rfl
  · rw [hprinted, hsched]
    rfl
  · rw [hsched]
    exact (shown_lt initializeTasking_inv).2.1
  · rw [hsched]
    rfl

theorem opsIn_eq (events : List Event) : opsIn events = (opsOf events).map .op := by
  induction events with
  | nil => rfl
  | cons e events ih =>
    cases e with
    | putc call => exact ih
    | op op => exact congrArg (Event.op op :: ·) ih

theorem run_displays {ops done : List Op} (h : Displays row clock done m) (hops : ∀ op ∈ ops, Allowed op)
    (hticks : (done ++ ops).count .tick < 2 ^ 31) (hr : Transition.run step m (ops.map .op) = some m') :
    Displays row clock (done ++ ops) m' := by
  induction ops generalizing m done with
  | nil =>
    obtain rfl := Option.some.inj hr
    rw [List.append_nil]
    exact h
  | cons op ops ih =>
    rw [List.map_cons] at hr
    obtain ⟨m₁, h₁, hrest⟩ := (Transition.run_cons_eq_some _).mp hr
    rw [List.append_cons] at hticks ⊢
    have hone : (done ++ [op]).count .tick ≤ (done ++ [op] ++ ops).count .tick := by
      rw [@List.count_append _ _ _ (done ++ [op])]
      exact Nat.le_add_right _ _
    exact ih (displays_step h (hops op List.mem_cons_self) (by omega) h₁)
      (fun a ha => hops a (List.mem_cons_of_mem op ha)) hticks hrest

/-- In every run, with output in between that fits. -/
theorem displays_run {screen : Screen} {events : List Event} (h : OnScreen screen) (hs : start screen = some m)
    (hfit : (paperOf screen).Fits (callsIn events)) (hops : ∀ op ∈ opsOf events, Allowed op)
    (hticks : (opsOf events).count .tick < 2 ^ 31) (hr : Transition.run step m events = some m') :
    Displays (taskRow screen) (clockRow screen) (opsOf events) m' := by
  have hstart : SameText screen m.screen := (showTask_barOnly _ _ hs).1
  obtain ⟨u, hu, htwin⟩ := run_twin (hstart.shows (shows_paperOf h)) hfit ⟨rfl, rfl, fun _ _ _ => rfl⟩ hr
  rw [opsIn_eq] at hu
  have hdisplays := run_displays (displays_start hs) hops hticks hu
  rw [List.nil_append] at hdisplays
  have htask : taskRow m'.screen = taskRow u.screen := reading_congr fun i hi hi' => (htwin.bar i (by omega) (by omega)).symm
  have hclock : clockRow m'.screen = clockRow u.screen :=
    reading_congr fun i hi hi' => (htwin.bar i (by omega) (by omega)).symm
  have hsched := htwin.sched
  have hprinted := htwin.printed
  refine ⟨hsched ▸ hdisplays.inv, ?_, ?_, hsched ▸ hdisplays.tick, hclock.trans hdisplays.clock⟩
  · rw [htask, hdisplays.task, hprinted]
  · rw [← hprinted, ← hsched]
    exact hdisplays.last

/-! ## The tasks -/

/-- In every run the bar names the running task, and its number is that of the tasks but for
the forks since it was printed. The row says this and nothing else exactly when no text before
it was longer: of a longer one the last digits remain, as `clear_line` does not reach them. -/
theorem tasks_shown {screen : Screen} {events : List StatusBar.Event} (h : OnScreen screen)
    (hblank : taskRow screen = List.replicate 50 32) (hs : start screen = some m)
    (hfit : (paperOf screen).Fits (callsIn events)) (hops : ∀ op ∈ opsOf events, Allowed op)
    (hticks : (opsOf events).count .tick < 2 ^ 31) (hr : Transition.run StatusBar.step m events = some m') :
    ∃ num earlier, m'.printed = (m'.sched.currentTask.id, num) :: earlier ∧
      num.toNat + (opsOf events).foldl unshown 0 = numtasks m'.sched.readyQueue ∧
      barText (m'.sched.currentTask.id, num) <+: taskRow m'.screen ∧
      (taskRow m'.screen = barText (m'.sched.currentTask.id, num) ++
          List.replicate (50 - (barText (m'.sched.currentTask.id, num)).length) 32 ↔
        ∀ p ∈ earlier, (barText p).length ≤ (barText (m'.sched.currentTask.id, num)).length) := by
  have hdisplays := displays_run h hs hfit hops hticks hr
  obtain ⟨num, earlier, hprinted, hnum⟩ := hdisplays.last
  have hrow : taskRow m'.screen = barText (m'.sched.currentTask.id, num) ++
      (layers (List.replicate 50 32) (earlier.map barText)).drop (barText (m'.sched.currentTask.id, num)).length := by
    rw [hdisplays.task, hprinted, hblank]
    rfl
  refine ⟨num, earlier, hprinted, hnum, ⟨_, hrow.symm⟩, ?_⟩
  rw [hrow, List.append_right_inj, layers_drop, List.forall_mem_map]
  intro t ht
  obtain ⟨p, -, rfl⟩ := List.mem_map.mp ht
  exact barText_last p

/-- A fork, a letter and a tick: two tasks. -/
theorem tasks_shown_two : ∃ m m' num, start (Screen.start fun _ => 0x0F20) = some m ∧
    Transition.run StatusBar.step m [.op .fork, .putc Console.letter, .op .tick] = some m' ∧
    num.toNat = 2 ∧ barText (m'.sched.currentTask.id, num) <+: taskRow m'.screen := by
  have hsome : (Transition.run Scheduler.step initializeTasking [.fork, .tick]).isSome := by
    decide +kernel
  obtain ⟨t, ht⟩ := Option.isSome_iff_exists.mp hsome
  obtain ⟨v, hv⟩ := showTask_some ⟨initializeTasking, Screen.start fun _ => 0x0F20, []⟩
  obtain ⟨m', hm', rfl⟩ := run_some (m := ⟨initializeTasking, v, [shown initializeTasking]⟩)
    [.op .fork, .putc Console.letter, .op .tick] ht
  have hallowed : ∀ op ∈ [Op.fork, Op.tick], Allowed op := by simp [Allowed]
  have hfit : (paperOf (Screen.start fun _ => 0x0F20)).Fits
      (callsIn [.op .fork, .putc Console.letter, .op .tick]) := ⟨fun _ => by decide, trivial⟩
  obtain ⟨num, earlier, -, hnum, hshown, -⟩ := tasks_shown (onScreen_start _) rfl hv hfit hallowed (by decide) hm'
  have hforks : [Op.fork, Op.tick].foldl unshown 0 = 0 := rfl
  have hcount : numtasks m'.sched.readyQueue = 2 := (run_counts hallowed ht).2.1
  exact ⟨_, m', num, hv, hm', by rw [← hcount, ← hnum]; exact (congrArg (num.toNat + ·) hforks).symm, hshown⟩

/-! ## The clock -/

def valueOf (text : List Byte) : Nat := (text.foldl NumberReaders.addTyped 0).toNat

/-- Hours, minutes and seconds, in numerals of two digits, or more for the hours. -/
def Tells (text : List Byte) (t : Nat) : Prop := ∃ hour min sec, text = hour ++ chars ":" ++ min ++ chars ":" ++ sec ∧
  (2 ≤ hour.length ∧ min.length = 2 ∧ sec.length = 2) ∧
  valueOf hour = t / 3600 ∧ valueOf min = t / 60 % 60 ∧ valueOf sec = t % 60

theorem valueOf_lpad {k : Nat} (hk : k < 2 ^ 32) : valueOf (lpad (decimal k)) = k := by
  have hplain : valueOf (decimal k) = k := by
    rw [valueOf, NumberReaders.foldl_decimal, BitVec.toNat_ofNat, Nat.mod_eq_of_lt hk]
  have hne : decimal k ≠ [] := List.ne_nil_of_length_pos (numeral_pos (by decide) _ _)
  rcases hdigits : decimal k with _ | ⟨a, _ | ⟨b, rest⟩⟩
  · exact absurd hdigits hne
  · -- a zero in front does not count
    have hzero : NumberReaders.addTyped 0 48 = 0 := by decide
    rw [← hplain, hdigits, lpad, valueOf, valueOf, List.foldl_cons, hzero]
  · rw [← hplain, hdigits]
    rfl

theorem tells_clockText {t : Nat} (ht : t < 2 ^ 31) : Tells (clockText t) t := by
  have htwo : ∀ k, k < 60 → (lpad (decimal k)).length = 2 := by
    intro k hk
    have hlen : (decimal k).length ≤ 2 := numeral_length_le (by decide) _ (by decide) (hk.trans (by decide))
    rw [lpad_length]
    omega
  refine ⟨_, _, _, rfl, ⟨?_, htwo _ (by omega), htwo _ (by omega)⟩, valueOf_lpad (by omega), valueOf_lpad (by omega),
    valueOf_lpad (by omega)⟩
  rw [lpad_length]
  exact le_max_left 2 _

/-- From the first tick on the clock tells the seconds of 18 ticks each, and the cells behind
it are as they were at the start: no clock leaves anything behind. -/
theorem clock_shown {screen : Screen} {events : List StatusBar.Event} (h : OnScreen screen)
    (hs : start screen = some m) (hfit : (paperOf screen).Fits (callsIn events)) (hops : ∀ op ∈ opsOf events, Allowed op)
    (hticks : (opsOf events).count .tick < 2 ^ 31) (hpos : 0 < (opsOf events).count .tick)
    (hr : Transition.run StatusBar.step m events = some m') : ∃ text, Tells text ((opsOf events).count .tick / 18) ∧
      clockRow m'.screen = chars "Uptime: " ++ text ++ (clockRow screen).drop (8 + text.length) := by
  have hdisplays := displays_run h hs hfit hops hticks hr
  refine ⟨clockText ((opsOf events).count .tick / 18), tells_clockText (by omega), ?_⟩
  obtain ⟨k, hk⟩ := Nat.exists_eq_succ_of_ne_zero hpos.ne'
  have hlen : (chars "Uptime: " ++ clockText ((k + 1) / 18)).length = 8 + (clockText ((k + 1) / 18)).length := by
    rw [List.length_append]
    rfl
  rw [hdisplays.clock, hk, uptime, hlen]

/-- On the first tick the clock shows zero. -/
theorem clock_shown_first : ∃ m m' text, start (Screen.start fun _ => 0x0F20) = some m ∧
    Transition.run StatusBar.step m [.op .tick] = some m' ∧
    Tells text 0 ∧ chars "Uptime: " ++ text <+: clockRow m'.screen := by
  have hsome : (Transition.run Scheduler.step initializeTasking [.tick]).isSome := by
    decide +kernel
  obtain ⟨t, ht⟩ := Option.isSome_iff_exists.mp hsome
  obtain ⟨v, hv⟩ := showTask_some ⟨initializeTasking, Screen.start fun _ => 0x0F20, []⟩
  obtain ⟨m', hm', -⟩ := run_some (m := ⟨initializeTasking, v, [shown initializeTasking]⟩) [.op .tick] ht
  have hfit : (paperOf (Screen.start fun _ => 0x0F20)).Fits (callsIn [.op .tick]) := trivial
  obtain ⟨text, htells, hrow⟩ := clock_shown (onScreen_start _) hv hfit (by simp [opsOf, Allowed]) (by decide)
    (by decide) hm'
  exact ⟨_, m', text, hv, hm', htells, _, hrow.symm⟩

end StatusLine
