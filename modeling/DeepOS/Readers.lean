import DeepOS.Keyboard

/-!
# Several readers

One `keyPressedPtr` serves every task that waits for a line, so a later request
replaces the address that an earlier one has left there.
-/
namespace Readers

open PhyMem TaskTable Transition Keyboard

/-- A task that waits is in a `scanf` and its flag is still down. -/
def Reading (s : Input) : Prop :=
  ∀ t, s.waitingForInput t = true → ∃ a, s.scanning t = some a ∧ s.flags t a = false

/-- The address of a task that waits is the one the next tick uses. -/
def Kept (s : Input) : Prop :=
  ∀ t, s.waitingForInput t = true → s.scanning t = some s.keyPressedPtr

/-- A tick that ends the wait of a task sets the flag of that task's latest request. -/
def WakesOwn (s : Input) : Prop :=
  ∀ t, s.waitingForInput t = true → (updateKeyPressEvent s).waitingForInput t = false →
    ∃ a, s.scanning t = some a ∧ (updateKeyPressEvent s).flags t a = true

def SameAddress (s : Input) : Op → Prop
  | .request a => s.scanning s.current = none →
      ∀ t, t ≠ s.current → s.waitingForInput t = true → s.scanning t = some a
  | _ => True

variable {s s' : Input} {t : Slot}

/-! ## What a step does to the tasks that wait -/

/-- A key is nothing to them. -/
structure SameReaders (s s' : Input) : Prop where
  ptr : s'.keyPressedPtr = s.keyPressedPtr
  waiting : s'.waitingForInput = s.waitingForInput
  flags : s'.flags = s.flags
  scanning : s'.scanning = s.scanning

theorem keyboardHandler_same {scancode : BitVec 8} (hs : keyboardHandler s scancode = some s') :
    SameReaders s s' := by
  rw [keyboardHandler] at hs
  split at hs
  · obtain rfl := Option.some.inj hs
    exact ⟨rfl, rfl, rfl, rfl⟩
  · obtain rfl := Option.some.inj hs
    exact ⟨rfl, rfl, rfl, rfl⟩
  · split at hs
    · obtain rfl := Option.some.inj hs
      exact ⟨rfl, rfl, rfl, rfl⟩
    · have h := putKey_same hs
      exact ⟨h.ptr, h.waiting, h.flags, h.scanning⟩
  · obtain rfl := Option.some.inj hs
    exact ⟨rfl, rfl, rfl, rfl⟩

theorem SameReaders.reading (h : SameReaders s s') (hread : Reading s) : Reading s' := by
  rw [Reading, h.waiting, h.scanning, h.flags]
  exact hread

theorem SameReaders.kept (h : SameReaders s s') (hkept : Kept s) : Kept s' := by
  rw [Kept, h.waiting, h.scanning, h.ptr]
  exact hkept

/-- A task that waits after a tick has waited before, and its flag is as it was. -/
theorem updateKeyPressEvent_waiting (hw : (updateKeyPressEvent s).waitingForInput t = true) :
    s.waitingForInput t = true ∧ (updateKeyPressEvent s).flags t = s.flags t := by
  rw [updateKeyPressEvent] at hw ⊢
  split at hw
  · rename_i hwake
    change Function.update s.waitingForInput s.current false t = true at hw
    have hne : t ≠ s.current := by
      rintro rfl
      rw [Function.update_self] at hw
      cases hw
    rw [Function.update_of_ne hne] at hw
    rw [if_pos hwake]
    exact ⟨hw, Function.update_of_ne hne ..⟩
  · rename_i hno
    rw [if_neg hno]
    exact ⟨hw, rfl⟩

@[simp] theorem updateKeyPressEvent_scanning (s : Input) :
    (updateKeyPressEvent s).scanning = s.scanning := by
  rw [updateKeyPressEvent]
  split <;> rfl

@[simp] theorem updateKeyPressEvent_ptr (s : Input) :
    (updateKeyPressEvent s).keyPressedPtr = s.keyPressedPtr := by
  rw [updateKeyPressEvent]
  split <;> rfl

theorem reading_tick (next : Slot) (h : Reading s) : Reading (timerHandler s next) := by
  intro t hw
  obtain ⟨hwait, hflags⟩ := updateKeyPressEvent_waiting hw
  obtain ⟨a, hscan, hflag⟩ := h t hwait
  refine ⟨a, ?_, ?_⟩
  · show (updateKeyPressEvent s).scanning t = some a
    rw [updateKeyPressEvent_scanning, hscan]
  · show (updateKeyPressEvent s).flags t a = false
    rw [hflags, hflag]

theorem kept_tick (next : Slot) (h : Kept s) : Kept (timerHandler s next) := by
  intro t hw
  show (updateKeyPressEvent s).scanning t = some (updateKeyPressEvent s).keyPressedPtr
  rw [updateKeyPressEvent_scanning, updateKeyPressEvent_ptr]
  exact h t (updateKeyPressEvent_waiting hw).1

/-- The state after a request. -/
theorem step_request {a : Word} (hs : step s (.request a) = some s') :
    s.scanning s.current = none ∧ s'.keyPressedPtr = a ∧
      s'.waitingForInput = Function.update s.waitingForInput s.current true ∧
      s'.flags = setFlag s.flags s.current a false ∧
      s'.scanning = Function.update s.scanning s.current (some a) := by
  simp only [step] at hs
  split at hs
  · cases hs
  · rename_i hnone
    obtain rfl := Option.some.inj hs
    exact ⟨hnone, rfl, rfl, rfl, rfl⟩

theorem reading_request {a : Word} (h : Reading s) (hs : step s (.request a) = some s') :
    Reading s' := by
  obtain ⟨-, -, hwait, hflags, hscan⟩ := step_request hs
  intro t hw
  rw [hscan, hflags, setFlag]
  by_cases ht : t = s.current
  · refine ⟨a, ?_, ?_⟩
    · rw [ht, Function.update_self]
    · rw [ht, Function.update_self, Function.update_self]
  · rw [hwait, Function.update_of_ne ht] at hw
    rw [Function.update_of_ne ht, Function.update_of_ne ht]
    exact h t hw

/-- A request keeps the other addresses exactly when they are its own. -/
theorem kept_request_iff {a : Word} (hs : step s (.request a) = some s') :
    Kept s' ↔ ∀ t, t ≠ s.current → s.waitingForInput t = true → s.scanning t = some a := by
  obtain ⟨-, hptr, hwait, -, hscan⟩ := step_request hs
  rw [Kept, hptr, hwait, hscan]
  constructor
  · intro hkept t ht hw
    have := hkept t (by rw [Function.update_of_ne ht]; exact hw)
    rwa [Function.update_of_ne ht] at this
  · intro hsame t hw
    by_cases ht : t = s.current
    · rw [ht, Function.update_self]
    · rw [Function.update_of_ne ht] at hw ⊢
      exact hsame t ht hw

/-- Only a task that does not wait any more copies the line. -/
theorem step_copy (h : Reading s) (hs : step s .copy = some s') :
    s.waitingForInput s.current = false ∧ s'.keyPressedPtr = s.keyPressedPtr ∧
      s'.waitingForInput = s.waitingForInput ∧ s'.flags = s.flags ∧
      s'.scanning = Function.update s.scanning s.current none := by
  simp only [step] at hs
  split at hs
  · cases hs
  · rename_i a hscan
    split at hs
    · rename_i hflag
      obtain rfl := Option.some.inj hs
      refine ⟨?_, rfl, rfl, rfl, rfl⟩
      by_contra hw
      obtain ⟨b, hb, hdown⟩ := h s.current (Bool.eq_true_of_not_eq_false hw)
      rw [hscan, Option.some.injEq] at hb
      rw [← hb, hflag] at hdown
      cases hdown
    · cases hs

theorem copy_scanning (h : Reading s) (hs : step s .copy = some s')
    (hw : s'.waitingForInput t = true) : s.waitingForInput t = true ∧ s'.scanning t = s.scanning t := by
  obtain ⟨hdone, -, hwait, -, hscan⟩ := step_copy h hs
  rw [hwait] at hw
  have hne : t ≠ s.current := by
    rintro rfl
    rw [hdone] at hw
    cases hw
  exact ⟨hw, by rw [hscan, Function.update_of_ne hne]⟩

/-! ## Whole runs -/

theorem reading_step {op : Op} (h : Reading s) (hs : step s op = some s') : Reading s' := by
  cases op with
  | key scancode => exact (keyboardHandler_same hs).reading h
  | tick next => exact Option.some.inj hs ▸ reading_tick next h
  | request a => exact reading_request h hs
  | copy =>
    intro t hw
    obtain ⟨hwait, hscan⟩ := copy_scanning h hs hw
    rw [hscan, (step_copy h hs).2.2.2.1]
    exact h t hwait

theorem kept_step_iff {op : Op} (h : Reading s) (hkept : Kept s) :
    SameAddress s op ↔ ∀ s', step s op = some s' → Kept s' := by
  cases op with
  | key scancode => exact ⟨fun _ s' hs => (keyboardHandler_same hs).kept hkept, fun _ => trivial⟩
  | tick next =>
    exact ⟨fun _ s' hs => Option.some.inj hs ▸ kept_tick next hkept, fun _ => trivial⟩
  | request a =>
    constructor
    · intro hsame s' hs
      exact (kept_request_iff hs).mpr (hsame (step_request hs).1)
    · intro hall hnone
      obtain ⟨s', hs⟩ : ∃ s', step s (.request a) = some s' := by
        simp only [step, hnone]
        exact ⟨_, rfl⟩
      exact (kept_request_iff hs).mp (hall s' hs)
  | copy =>
    refine ⟨fun _ s' hs t hw => ?_, fun _ => trivial⟩
    obtain ⟨hwait, hscan⟩ := copy_scanning h hs hw
    rw [hscan, (step_copy h hs).2.1]
    exact hkept t hwait

/-- The flag a tick sets is then the one of the task it wakes up. -/
theorem Kept.wakesOwn (h : Kept s) : WakesOwn s := by
  intro t hwait hdone
  refine ⟨s.keyPressedPtr, h t hwait, ?_⟩
  rw [updateKeyPressEvent] at hdone ⊢
  split at hdone
  · rename_i hwake
    rw [if_pos hwake]
    have ht : t = s.current := by
      by_contra hne
      change Function.update s.waitingForInput s.current false t = false at hdone
      rw [Function.update_of_ne hne, hwait] at hdone
      cases hdone
    show setFlag s.flags s.current s.keyPressedPtr true t s.keyPressedPtr = true
    rw [setFlag, ht, Function.update_self, Function.update_self]
  · rw [hwait] at hdone
    cases hdone

theorem reading_start (c : Slot) : Reading (Input.start c) := fun _ h => by cases h

theorem kept_start (c : Slot) : Kept (Input.start c) := fun _ h => by cases h

/-- No address is forgotten and no flag of another request is set, in every state of
a run, exactly when no request replaces an address that a task waits with. -/
theorem wakes_own_iff (c : Slot) (ops : List Op) :
    (∀ done s, done <+: ops → run step (Input.start c) done = some s → Kept s ∧ WakesOwn s) ↔
      Along step SameAddress (Input.start c) ops := by
  have hstep : ∀ s op, Reading s ∧ Kept s →
      (SameAddress s op ↔ ∀ s', step s op = some s' → Reading s' ∧ Kept s') := by
    intro s op ⟨hread, hkept⟩
    rw [kept_step_iff hread hkept]
    exact ⟨fun h s' hs => ⟨reading_step hread hs, h s' hs⟩, fun h s' hs => (h s' hs).2⟩
  rw [along_iff step hstep ⟨reading_start c, kept_start c⟩]
  constructor
  · intro h done s hdone hr
    have hread : Reading s :=
      run_invariant step (C := fun _ _ => True) (fun _ _ _ _ => reading_step) (reading_start c)
        (along_of_forall step (fun _ _ _ => trivial) _) hr
    exact ⟨hread, (h done s hdone hr).1⟩
  · intro h done s hdone hr
    have hkept := (h done s hdone hr).2
    exact ⟨hkept, hkept.wakesOwn⟩

/-- The shell reads at one address, a job in the background at another: Enter ends the
wait of the shell, and the flag it looks at stays down. -/
theorem shell_not_woken :
    ∃ s, run step (Input.start 0)
        [.request 0x1000, .tick 1, .request 0x2000, .tick 0, .key 28] = some s ∧
      s.current = 0 ∧ s.waitingForInput 0 = true ∧ s.scanning 0 = some 0x1000 ∧
      (timerHandler s 0).waitingForInput 0 = false ∧ (timerHandler s 0).flags 0 0x1000 = false ∧
      (timerHandler s 0).flags 0 0x2000 = true :=
  ⟨_, rfl, rfl, rfl, rfl, rfl, by decide, by decide⟩

end Readers
