import Mathlib

/-!
# Runs of a partial step function

A system is a step function from a state and an action to an optional next
state. An invariant needs one proof about a step; these rules carry it along
whole runs, also when each step is only taken under a condition on the state
it starts from.
-/
namespace Transition

variable {σ α : Type} (step : σ → α → Option σ)

/-- Take the actions one after another; `none` once a step has no result. -/
def run : σ → List α → Option σ
  | s, [] => some s
  | s, a :: as => (step s a).bind (fun t => run t as)

@[simp] theorem run_nil (s : σ) : run step s [] = some s := rfl

theorem run_cons_eq_some {s t : σ} {a : α} {as : List α} :
    run step s (a :: as) = some t ↔ ∃ u, step s a = some u ∧ run step u as = some t := by
  rw [run, Option.bind_eq_some_iff]

theorem run_append (s : σ) (as bs : List α) :
    run step s (as ++ bs) = (run step s as).bind (fun t => run step t bs) := by
  induction as generalizing s with
  | nil => rfl
  | cons a as ih =>
    rw [List.cons_append, run, run]
    cases step s a with
    | none => rfl
    | some u => exact ih u

/-- The condition `C` holds of every step the run takes. -/
def Along (C : σ → α → Prop) : σ → List α → Prop
  | _, [] => True
  | s, a :: as => C s a ∧ ∀ t, step s a = some t → Along C t as

instance decidableAlong {C : σ → α → Prop} [∀ s a, Decidable (C s a)] :
    ∀ (s : σ) (as : List α), Decidable (Along step C s as)
  | _, [] => .isTrue trivial
  | s, a :: as =>
    have : Decidable (∀ t, step s a = some t → Along step C t as) :=
      match step s a with
      | none => .isTrue nofun
      | some u =>
        match decidableAlong u as with
        | .isTrue h => .isTrue fun _ ht => Option.some.inj ht ▸ h
        | .isFalse h => .isFalse fun hall => h (hall u rfl)
    inferInstanceAs (Decidable (C s a ∧ _))

theorem along_of_forall {C : σ → α → Prop} {as : List α} (h : ∀ a ∈ as, ∀ s, C s a) (s : σ) :
    Along step C s as := by
  induction as generalizing s with
  | nil => trivial
  | cons a as ih =>
    exact ⟨h a (List.mem_cons_self ..) s,
      fun t _ => ih (fun b hb => h b (List.mem_cons_of_mem a hb)) t⟩

theorem Along.imp {C D : σ → α → Prop} (h : ∀ s a, C s a → D s a) {as : List α} :
    ∀ {s : σ}, Along step C s as → Along step D s as := by
  induction as with
  | nil => exact fun _ => trivial
  | cons a as ih => exact fun ⟨ha, hrest⟩ => ⟨h _ a ha, fun t ht => ih (hrest t ht)⟩

theorem along_append {C : σ → α → Prop} {as bs : List α} {s : σ} :
    Along step C s (as ++ bs) ↔ Along step C s as ∧ ∀ t, run step s as = some t → Along step C t bs := by
  induction as generalizing s with
  | nil => simp [Along]
  | cons a as ih =>
    constructor
    · rintro ⟨ha, hrest⟩
      refine ⟨⟨ha, fun u hu => (ih.mp (hrest u hu)).1⟩, fun t ht => ?_⟩
      obtain ⟨u, hu, ht⟩ := (run_cons_eq_some step).mp ht
      exact (ih.mp (hrest u hu)).2 t ht
    · rintro ⟨⟨ha, hrest⟩, hbs⟩
      refine ⟨ha, fun u hu => ih.mpr ⟨hrest u hu, fun t ht => ?_⟩⟩
      exact hbs t ((run_cons_eq_some step).mpr ⟨u, hu, ht⟩)

/-- A property that every conditioned step preserves holds at the end of every
run whose steps meet the condition. -/
theorem run_invariant {C : σ → α → Prop} {P : σ → Prop}
    (hstep : ∀ s a t, C s a → P s → step s a = some t → P t)
    {s t : σ} {as : List α} (hs : P s) (hC : Along step C s as) (hr : run step s as = some t) :
    P t := by
  induction as generalizing s with
  | nil =>
    rw [run_nil, Option.some.injEq] at hr
    exact hr ▸ hs
  | cons a as ih =>
    obtain ⟨u, hu, hr⟩ := (run_cons_eq_some step).mp hr
    exact ih (hstep s a u hC.1 hs hu) (hC.2 u hu) hr

/-- The rule for a loop over a list: `P` speaks of the elements done so far. -/
theorem run_loop {as : List α} {P : List α → σ → Prop}
    (hstep : ∀ done a rest s t, done ++ a :: rest = as → P done s → step s a = some t →
      P (done ++ [a]) t)
    {s t : σ} (hs : P [] s) (hr : run step s as = some t) : P as t := by
  have hrest : ∀ rest done s, done ++ rest = as → P done s → run step s rest = some t → P as t := by
    intro rest
    induction rest with
    | nil =>
      intro done s hdone hP hr
      rw [run_nil, Option.some.injEq] at hr
      rw [List.append_nil] at hdone
      exact hdone ▸ hr ▸ hP
    | cons a rest ih =>
      intro done s hdone hP hr
      obtain ⟨u, hu, hr⟩ := (run_cons_eq_some step).mp hr
      exact ih (done ++ [a]) u (by simpa using hdone) (hstep done a rest s u hdone hP hu) hr
  exact hrest as [] s rfl hs hr

/-- A loop none of whose turns fails has a result. -/
theorem run_loop_some (as : List α) {P : List α → σ → Prop}
    (hstep : ∀ done a rest s, done ++ a :: rest = as → P done s →
      ∃ t, step s a = some t ∧ P (done ++ [a]) t)
    {s : σ} (hs : P [] s) : ∃ t, run step s as = some t ∧ P as t := by
  have hrest : ∀ rest done s, done ++ rest = as → P done s →
      ∃ t, run step s rest = some t ∧ P as t := by
    intro rest
    induction rest with
    | nil =>
      intro done s hdone hP
      rw [List.append_nil] at hdone
      exact ⟨s, rfl, hdone ▸ hP⟩
    | cons a rest ih =>
      intro done s hdone hP
      obtain ⟨u, hu, hPu⟩ := hstep done a rest s hdone hP
      obtain ⟨t, ht, hPt⟩ := ih (done ++ [a]) u (by simpa using hdone) hPu
      exact ⟨t, (run_cons_eq_some step).mpr ⟨u, hu, ht⟩, hPt⟩
  exact hrest as [] s rfl hs

/-- The same for a loop that counts. -/
theorem run_range {step : σ → Nat → Option σ} {P : Nat → σ → Prop} {n : Nat}
    (hstep : ∀ i < n, ∀ s t, P i s → step s i = some t → P (i + 1) t) {s t : σ} (hs : P 0 s)
    (hr : run step s (List.range n) = some t) : P n t := by
  induction n generalizing t with
  | zero =>
    obtain rfl := Option.some.inj hr
    exact hs
  | succ n ih =>
    rw [List.range_succ, run_append, Option.bind_eq_some_iff] at hr
    obtain ⟨u, hu, hlast⟩ := hr
    rw [run_cons_eq_some] at hlast
    obtain ⟨v, hv, hnil⟩ := hlast
    obtain rfl := Option.some.inj hnil
    exact hstep n n.lt_succ_self u v (ih (fun i hi => hstep i (hi.trans n.lt_succ_self)) hu) hv

theorem run_range_some {step : σ → Nat → Option σ} {P : Nat → σ → Prop} (n : Nat)
    (hstep : ∀ i < n, ∀ s, P i s → ∃ t, step s i = some t ∧ P (i + 1) t) {s : σ} (hs : P 0 s) :
    ∃ t, run step s (List.range n) = some t ∧ P n t := by
  induction n with
  | zero => exact ⟨s, rfl, hs⟩
  | succ n ih =>
    obtain ⟨t, ht, hP⟩ := ih fun i hi => hstep i (hi.trans n.lt_succ_self)
    obtain ⟨u, hu, hPu⟩ := hstep n n.lt_succ_self t hP
    refine ⟨u, ?_, hPu⟩
    rw [List.range_succ, run_append, ht, Option.bind_some, run, hu, Option.bind_some, run_nil]

/-- Two conditions hold along the same runs when they agree on each step of a state
with the invariant that either of them keeps. -/
theorem along_congr {C D : σ → α → Prop} {P : σ → Prop}
    (hiff : ∀ s a t, P s → step s a = some t → (C s a ↔ D s a))
    (hkeep : ∀ s a t, P s → C s a → step s a = some t → P t) {as : List α} :
    ∀ {s u : σ}, P s → run step s as = some u → (Along step C s as ↔ Along step D s as) := by
  induction as with
  | nil => exact fun _ _ => Iff.rfl
  | cons a as ih =>
    intro s u hs hr
    obtain ⟨t, ht, hr⟩ := (run_cons_eq_some step).mp hr
    have hhead := hiff s a t hs ht
    constructor
    · rintro ⟨hC, hrest⟩
      refine ⟨hhead.mp hC, fun t' ht' => ?_⟩
      obtain rfl := Option.some.inj (ht.symm.trans ht')
      exact (ih (hkeep s a t hs hC ht) hr).mp (hrest t ht)
    · rintro ⟨hD, hrest⟩
      refine ⟨hhead.mpr hD, fun t' ht' => ?_⟩
      obtain rfl := Option.some.inj (ht.symm.trans ht')
      exact (ih (hkeep s a t hs (hhead.mpr hD) ht) hr).mpr (hrest t ht)

/-- Where the condition of a step is just what keeps an invariant, it holds along a
run exactly when the invariant holds in every state that is reached. -/
theorem along_iff {C : σ → α → Prop} {P : σ → Prop}
    (hstep : ∀ s a, P s → (C s a ↔ ∀ t, step s a = some t → P t)) {as : List α} :
    ∀ {s : σ}, P s → (Along step C s as ↔
      ∀ done t, done <+: as → run step s done = some t → P t) := by
  induction as with
  | nil =>
    intro s hs
    refine ⟨fun _ done t hdone hr => ?_, fun _ => trivial⟩
    rw [List.prefix_nil.mp hdone, run_nil, Option.some.injEq] at hr
    exact hr ▸ hs
  | cons a as ih =>
    intro s hs
    rw [Along, hstep s a hs]
    constructor
    · rintro ⟨hP, hrest⟩ done t hdone hr
      rcases List.prefix_cons_iff.mp hdone with rfl | ⟨rest, rfl, hpre⟩
      · rw [run_nil, Option.some.injEq] at hr
        exact hr ▸ hs
      · obtain ⟨u, hu, hr⟩ := (run_cons_eq_some step).mp hr
        exact (ih (hP u hu)).mp (hrest u hu) rest t hpre hr
    · intro h
      have hP : ∀ t, step s a = some t → P t := fun t ht =>
        h [a] t (by simp) ((run_cons_eq_some step).mpr ⟨t, ht, rfl⟩)
      refine ⟨hP, fun u hu => (ih (hP u hu)).mpr fun done t hdone hr => ?_⟩
      exact h (a :: done) t (List.cons_prefix_cons.mpr ⟨rfl, hdone⟩)
        ((run_cons_eq_some step).mpr ⟨u, hu, hr⟩)

section

variable {β : Type} {step' : σ → β → Option σ} {C : σ → α → Prop} {D : σ → β → Prop} {f : α → β}

/-- Where the steps are those of another machine, so are the runs. -/
theorem run_map (h : ∀ s a, C s a → step s a = step' s (f a)) {as : List α} :
    ∀ {s : σ}, Along step C s as → run step s as = run step' s (as.map f) := by
  induction as with
  | nil => exact fun _ => rfl
  | cons a as ih =>
    rintro s ⟨ha, hrest⟩
    rw [List.map_cons, run, run, ← h s a ha]
    cases ht : step s a with
    | none => rfl
    | some t => exact ih (hrest t ht)

theorem along_map (h : ∀ s a, C s a → step s a = step' s (f a)) (hD : ∀ s a, C s a → D s (f a)) {as : List α} :
    ∀ {s : σ}, Along step C s as → Along step' D s (as.map f) := by
  induction as with
  | nil => exact fun _ => trivial
  | cons a as ih =>
    rintro s ⟨ha, hrest⟩
    exact ⟨hD s a ha, fun t ht => ih (hrest t ((h s a ha).trans ht))⟩

end

/-- A run has no result when one of its steps has none. -/
theorem run_eq_none_iff {s : σ} {as : List α} : run step s as = none ↔
    ∃ done a rest t, as = done ++ a :: rest ∧ run step s done = some t ∧ step t a = none := by
  constructor
  · intro h
    induction as generalizing s with
    | nil => cases h
    | cons a as ih =>
      rw [run] at h
      cases ha : step s a with
      | none => exact ⟨[], a, as, s, rfl, rfl, ha⟩
      | some u =>
        rw [ha, Option.bind_some] at h
        obtain ⟨done, b, rest, t, rfl, ht, hb⟩ := ih h
        exact ⟨a :: done, b, rest, t, rfl, (run_cons_eq_some step).mpr ⟨u, ha, ht⟩, hb⟩
  · rintro ⟨done, a, rest, t, rfl, ht, ha⟩
    rw [run_append, ht, Option.bind_some, run, ha, Option.bind_none]

/-- Each counted action lowers a measure until the goal is met, and no other one raises it: a
run with more counted actions than the measure comes to the goal. -/
theorem run_reaches {C : σ → α → Prop} {P Q : σ → Prop} {counted : α → Bool} {m : σ → Nat}
    (hstep : ∀ s a t, C s a → P s → step s a = some t →
      Q t ∨ P t ∧ m t + [a].countP counted ≤ m s) {as : List α} :
    ∀ {s t : σ}, P s → Along step C s as → run step s as = some t → m s < as.countP counted →
      ∃ done rest u, as = done ++ rest ∧ run step s done = some u ∧ Q u ∧
        done.countP counted ≤ m s + 1 := by
  induction as with
  | nil =>
    intro s t _ _ _ hlong
    exact absurd hlong (Nat.not_lt_zero _)
  | cons a as ih =>
    intro s t hs hC hr hlong
    obtain ⟨u, hu, hr⟩ := (run_cons_eq_some step).mp hr
    rw [List.countP_cons] at hlong
    rcases hstep s a u hC.1 hs hu with hQ | ⟨hP, hm⟩
    · refine ⟨[a], as, u, rfl, (run_cons_eq_some step).mpr ⟨u, hu, rfl⟩, hQ, ?_⟩
      exact (List.countP_le_length.trans (by simp)).trans (Nat.le_add_left 1 _)
    · rw [List.countP_singleton] at hm
      obtain ⟨done, rest, v, rfl, hv, hQ, hcount⟩ := ih hP (hC.2 u hu) hr (by omega)
      refine ⟨a :: done, rest, v, rfl, (run_cons_eq_some step).mpr ⟨u, hu, hv⟩, hQ, ?_⟩
      rw [List.countP_cons]
      omega

end Transition
