import Mathlib.Logic.Relation

/-!
# Machines that can block or panic

A machine takes an action in a state.  The action may not be possible there, it
may stop the program, or it may lead to a next state.  Runs are the finite
sequences of actions that all lead somewhere; a run may also be restricted to
actions that meet a condition on the state they are taken in.  Lists of actions
can be run, so that a concrete run is checked by evaluation.
-/

namespace DistributedLabs.Library

inductive Outcome (σ : Type) where
  | blocked
  | panic
  | ok (next : σ)

/-- A computation that has no value panics. -/
def Outcome.ofOption {σ : Type} : Option σ → Outcome σ
  | none => .panic
  | some next => .ok next

def Outcome.map {σ τ : Type} (f : σ → τ) : Outcome σ → Outcome τ
  | .blocked => .blocked
  | .panic => .panic
  | .ok next => .ok (f next)

theorem Outcome.map_eq_ok {σ τ : Type} {f : σ → τ} {outcome : Outcome σ} {next : τ} :
    outcome.map f = .ok next ↔ ∃ before, outcome = .ok before ∧ f before = next := by
  cases outcome <;> simp [map]

theorem Outcome.map_eq_panic {σ τ : Type} {f : σ → τ} {outcome : Outcome σ} :
    outcome.map f = .panic ↔ outcome = .panic := by
  cases outcome <;> simp [map]

theorem Outcome.map_eq_blocked {σ τ : Type} {f : σ → τ} {outcome : Outcome σ} :
    outcome.map f = .blocked ↔ outcome = .blocked := by
  cases outcome <;> simp [map]

theorem Outcome.ofOption_eq_ok {σ : Type} {value : Option σ} {next : σ} :
    Outcome.ofOption value = .ok next ↔ value = some next := by
  cases value <;> simp [ofOption]

theorem Outcome.ofOption_eq_panic {σ : Type} {value : Option σ} :
    Outcome.ofOption value = .panic ↔ value = none := by
  cases value <;> simp [ofOption]

theorem Outcome.ok_ne_panic {σ : Type} (next : σ) : Outcome.ok next ≠ .panic := by
  intro h
  cases h

theorem Outcome.blocked_ne_panic {σ : Type} : (Outcome.blocked : Outcome σ) ≠ .panic := by
  intro h
  cases h

theorem Outcome.ofOption_ne_panic {σ : Type} {value : Option σ}
    (h : ∃ next, value = some next) : Outcome.ofOption value ≠ .panic := by
  obtain ⟨next, rfl⟩ := h
  exact Outcome.ok_ne_panic next

/-- The executable form of `outcome = .panic`. -/
def Outcome.panics {σ : Type} : Outcome σ → Bool
  | .panic => true
  | _ => false

theorem Outcome.panics_iff {σ : Type} {outcome : Outcome σ} :
    outcome.panics = true ↔ outcome = .panic := by
  cases outcome <;> simp [panics]

section

variable {σ A : Type} (step : σ → A → Outcome σ)

/-! ## Runs -/

def Moves (s s' : σ) : Prop :=
  ∃ a, step s a = .ok s'

def Reaches : σ → σ → Prop :=
  Relation.ReflTransGen (Moves step)

/-- One permitted action leads to the next state. -/
def MovesIf (allowed : σ → A → Prop) (s s' : σ) : Prop :=
  ∃ a, allowed s a ∧ step s a = .ok s'

def ReachesIf (allowed : σ → A → Prop) : σ → σ → Prop :=
  Relation.ReflTransGen (MovesIf step allowed)

/-- The actions of a run in order, each taken in a state where the condition allows it. -/
inductive RunsIf (allowed : σ → A → Prop) (s : σ) : List A → σ → Prop where
  | refl : RunsIf allowed s [] s
  | tail {past : List A} {t t' : σ} {a : A} (before : RunsIf allowed s past t)
      (permitted : allowed t a) (taken : step t a = .ok t') :
      RunsIf allowed s (past ++ [a]) t'

def Runs : σ → List A → σ → Prop :=
  RunsIf step (fun _ _ => True)

variable {step}

/-- What holds at the start and survives every action holds throughout. -/
theorem Reaches.invariant {P : σ → Prop} {s s' : σ} (h : Reaches step s s') (hstart : P s)
    (hstep : ∀ {t a t'}, P t → step t a = .ok t' → P t') : P s' := by
  induction h with
  | refl => exact hstart
  | tail _ last ih =>
      obtain ⟨a, ha⟩ := last
      exact hstep ih ha

theorem MovesIf.moves {allowed : σ → A → Prop} {s s' : σ} (h : MovesIf step allowed s s') :
    Moves step s s' := by
  obtain ⟨a, _, taken⟩ := h
  exact ⟨a, taken⟩

theorem ReachesIf.reaches {allowed : σ → A → Prop} {s s' : σ} (h : ReachesIf step allowed s s') :
    Reaches step s s' := by
  induction h with
  | refl => exact Relation.ReflTransGen.refl
  | tail _ last ih => exact ih.tail last.moves

theorem RunsIf.reaches {allowed : σ → A → Prop} {actions : List A} {s s' : σ}
    (h : RunsIf step allowed s actions s') : Reaches step s s' := by
  induction h with
  | refl => exact Relation.ReflTransGen.refl
  | tail _ _ taken ih => exact Relation.ReflTransGen.tail ih ⟨_, taken⟩

theorem RunsIf.runs {allowed : σ → A → Prop} {actions : List A} {s s' : σ}
    (h : RunsIf step allowed s actions s') : Runs step s actions s' := by
  induction h with
  | refl => exact RunsIf.refl
  | tail _ _ taken ih => exact RunsIf.tail ih trivial taken

theorem RunsIf.imp {allowed allowed' : σ → A → Prop} {actions : List A} {s s' : σ}
    (h : RunsIf step allowed s actions s') (himp : ∀ t a, allowed t a → allowed' t a) :
    RunsIf step allowed' s actions s' := by
  induction h with
  | refl => exact RunsIf.refl
  | tail _ permitted taken ih => exact ih.tail (himp _ _ permitted) taken

/-- A state that is reached by permitted actions is reached by a run of them. -/
theorem ReachesIf.exists_runsIf {allowed : σ → A → Prop} {s s' : σ}
    (h : ReachesIf step allowed s s') : ∃ actions, RunsIf step allowed s actions s' := by
  induction h with
  | refl => exact ⟨[], RunsIf.refl⟩
  | tail _ last ih =>
      obtain ⟨actions, hrun⟩ := ih
      obtain ⟨a, permitted, taken⟩ := last
      exact ⟨actions ++ [a], hrun.tail permitted taken⟩

theorem Reaches.exists_runs {s s' : σ} (h : Reaches step s s') :
    ∃ actions, Runs step s actions s' := by
  induction h with
  | refl => exact ⟨[], RunsIf.refl⟩
  | tail _ last ih =>
      obtain ⟨actions, hrun⟩ := ih
      obtain ⟨a, ha⟩ := last
      exact ⟨actions ++ [a], hrun.tail trivial ha⟩

theorem RunsIf.append {allowed : σ → A → Prop} {front back : List A} {s t s' : σ}
    (hfront : RunsIf step allowed s front t) (hback : RunsIf step allowed t back s') :
    RunsIf step allowed s (front ++ back) s' := by
  induction hback with
  | refl =>
      rw [List.append_nil]
      exact hfront
  | tail _ permitted taken ih =>
      rw [← List.append_assoc]
      exact ih.tail permitted taken

/-- A step is determined by its action, so a run is determined by its actions. -/
theorem RunsIf.unique {allowed : σ → A → Prop} {actions : List A} {s t t' : σ}
    (h : RunsIf step allowed s actions t) (h' : RunsIf step allowed s actions t') : t = t' := by
  induction h generalizing t' with
  | refl =>
      generalize hnil : ([] : List A) = actions at h'
      cases h' with
      | refl => rfl
      | tail => exact absurd hnil.symm (List.append_ne_nil_of_right_ne_nil _ (List.cons_ne_nil _ _))
  | @tail past u u' a before permitted taken ih =>
      generalize hlast : past ++ [a] = actions at h'
      cases h' with
      | refl => exact absurd hlast (List.append_ne_nil_of_right_ne_nil _ (List.cons_ne_nil _ _))
      | tail before' _ taken' =>
          obtain ⟨rfl, heq⟩ := List.append_inj' hlast rfl
          obtain rfl := List.singleton_inj.mp heq
          obtain rfl := ih before'
          exact Outcome.ok.inj (taken.symm.trans taken')

/-- What can be kept beside a run and only grows with each action is one growing sequence of
values, one for each number of actions taken. -/
theorem RunsIf.exists_growing {allowed : σ → A → Prop} {β : Type} (grows : β → β → Prop)
    (hrefl : ∀ value, grows value value)
    (htrans : ∀ {value value' value''}, grows value value' → grows value' value'' →
      grows value value'')
    {P : σ → β → Prop} {s : σ} {value : β} (hstart : P s value)
    (hstep : ∀ {t a t' value}, P t value → allowed t a → step t a = .ok t' →
      ∃ value', grows value value' ∧ P t' value')
    {actions : List A} {s' : σ} (h : RunsIf step allowed s actions s') :
    ∃ values : Nat → β, (∀ i j, i ≤ j → grows (values i) (values j)) ∧
      ∀ i t, RunsIf step allowed s (actions.take i) t → P t (values i) := by
  induction h with
  | refl =>
      refine ⟨fun _ => value, fun _ _ _ => hrefl value, fun i t ht => ?_⟩
      rw [List.take_nil] at ht
      exact ht.unique RunsIf.refl ▸ hstart
  | @tail past u u' a before permitted taken ih =>
      obtain ⟨values, hmono, hvalues⟩ := ih
      have hlast := hvalues past.length u (by rw [List.take_length]; exact before)
      obtain ⟨next, hgrows, hnext⟩ := hstep hlast permitted taken
      refine ⟨fun i => if i ≤ past.length then values i else next, fun i j hij => ?_,
        fun i t ht => ?_⟩
      · dsimp only
        split
        · next hi =>
            split
            · exact hmono i j hij
            · exact htrans (hmono i _ hi) hgrows
        · next hi =>
            rw [if_neg (by omega)]
            exact hrefl next
      · dsimp only
        split
        · next hi =>
            rw [List.take_append_of_le_length hi] at ht
            exact hvalues i t ht
        · next hi =>
            rw [List.take_of_length_le (by simp; omega)] at ht
            exact ht.unique (before.tail permitted taken) ▸ hnext

/-- A machine whose permitted actions are permitted actions of another one, or change nothing
that the other one sees, has no other runs. -/
theorem RunsIf.project {τ B : Type} {step' : τ → B → Outcome τ} {allowed : σ → A → Prop}
    {allowed' : τ → B → Prop} (seen : σ → τ) {act : A → Option B}
    (hsim : ∀ {t a t'}, allowed t a → step t a = .ok t' →
      (∃ b, act a = some b ∧ allowed' (seen t) b ∧ step' (seen t) b = .ok (seen t')) ∨
        (act a = none ∧ seen t' = seen t))
    {actions : List A} {s s' : σ} (h : RunsIf step allowed s actions s') :
    RunsIf step' allowed' (seen s) (actions.filterMap act) (seen s') := by
  induction h with
  | refl => exact RunsIf.refl
  | tail _ permitted taken ih =>
      rw [List.filterMap_append]
      rcases hsim permitted taken with ⟨b, hact, hallowed, hstep⟩ | ⟨hact, hsame⟩
      · simpa [hact] using ih.tail hallowed hstep
      · simpa [hact, hsame] using ih

end

/-! ## Running a list of actions -/

section

variable {σ A : Type} (step : σ → A → Outcome σ)

/-- Take the actions in order. -/
def runActions : List A → σ → Outcome σ
  | [], s => .ok s
  | a :: rest, s =>
      match step s a with
      | .ok next => runActions rest next
      | .blocked => .blocked
      | .panic => .panic

/-- The machine that refuses actions the condition does not allow. -/
def guarded (allowed : σ → A → Prop) [∀ s a, Decidable (allowed s a)] (s : σ) (a : A) :
    Outcome σ :=
  if allowed s a then step s a else .blocked

/-- The actions lead to a state with the property. -/
def RunHolds (actions : List A) (s : σ) (P : σ → Prop) : Prop :=
  match runActions step actions s with
  | .ok next => P next
  | _ => False

instance (actions : List A) (s : σ) (P : σ → Prop) [DecidablePred P] :
    Decidable (RunHolds step actions s P) :=
  match h : runActions step actions s with
  | .ok next => decidable_of_iff (P next) (by simp [RunHolds, h])
  | .blocked => isFalse (by simp [RunHolds, h])
  | .panic => isFalse (by simp [RunHolds, h])

variable {step}

theorem runsIf_of_runActions {allowed : σ → A → Prop} [∀ s a, Decidable (allowed s a)]
    {actions : List A} {s s' : σ} (h : runActions (guarded step allowed) actions s = .ok s') :
    RunsIf step allowed s actions s' := by
  induction actions generalizing s with
  | nil =>
      cases h
      exact .refl
  | cons a rest ih =>
      simp only [runActions, guarded] at h
      by_cases hallowed : allowed s a
      · simp only [if_pos hallowed] at h
        cases hstep : step s a with
        | blocked => simp [hstep] at h
        | panic => simp [hstep] at h
        | ok next =>
            simp only [hstep] at h
            exact RunsIf.append (RunsIf.refl.tail hallowed hstep) (ih h)
      · simp [if_neg hallowed] at h

/-- A checked run under a condition. -/
theorem RunHolds.exists_runsIf {allowed : σ → A → Prop} [∀ s a, Decidable (allowed s a)]
    {actions : List A} {s : σ} {P : σ → Prop}
    (h : RunHolds (guarded step allowed) actions s P) :
    ∃ s', RunsIf step allowed s actions s' ∧ P s' := by
  unfold RunHolds at h
  split at h
  · next next hrun => exact ⟨next, runsIf_of_runActions hrun, h⟩
  · cases h

/-- A checked run. -/
theorem RunHolds.exists_runs {actions : List A} {s : σ} {P : σ → Prop}
    (h : RunHolds step actions s P) : ∃ s', Runs step s actions s' ∧ P s' := by
  have hguarded : guarded step (fun _ _ => True) = step := by
    funext t a
    simp [guarded]
  exact RunHolds.exists_runsIf (hguarded.symm ▸ h)

theorem RunHolds.exists_reaches {actions : List A} {s : σ} {P : σ → Prop}
    (h : RunHolds step actions s P) : ∃ s', Reaches step s s' ∧ P s' := by
  obtain ⟨s', hrun, hP⟩ := h.exists_runs
  exact ⟨s', hrun.reaches, hP⟩

/-- A checked run of one action. -/
theorem RunHolds.exists_step {a : A} {s : σ} {P : σ → Prop} (h : RunHolds step [a] s P) :
    ∃ s', step s a = .ok s' ∧ P s' := by
  unfold RunHolds runActions at h
  cases hstep : step s a with
  | blocked => simp [hstep] at h
  | panic => simp [hstep] at h
  | ok next => exact ⟨next, rfl, by simpa [hstep, runActions] using h⟩

end

end DistributedLabs.Library
