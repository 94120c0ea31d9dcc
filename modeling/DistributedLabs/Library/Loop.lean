import DistributedLabs.Library.Machine

/-!
# Loops

One turn of a loop leads to the next turn or stops with a result, and it may panic.  A loop
is run with a number of turns it may take, and what it does with enough of them is told by
`Stops`.  Loops whose turns simulate each other stop together.
-/

namespace DistributedLabs.Library

variable {σ τ R Q : Type}

inductive Turn (σ R : Type) where
  | again (next : σ)
  | stop (result : R)

/-- Take at most that many turns. -/
def loop (turn : σ → Option (Turn σ R)) : Nat → σ → Outcome R
  | 0, _ => .blocked
  | fuel + 1, s =>
      match turn s with
      | none => .panic
      | some (.stop result) => .ok result
      | some (.again next) => loop turn fuel next

/-- The loop takes that many turns and then stops with the result. -/
inductive Stops (turn : σ → Option (Turn σ R)) (result : R) : Nat → σ → Prop where
  | stop {s : σ} (last : turn s = some (.stop result)) : Stops turn result 0 s
  | again {s next : σ} {turns : Nat} (first : turn s = some (.again next))
      (rest : Stops turn result turns next) : Stops turn result (turns + 1) s

/-- Turns of the loop lead from one state to the other. -/
def Leads (turn : σ → Option (Turn σ R)) : σ → σ → Prop :=
  Relation.ReflTransGen fun s next => turn s = some (.again next)

variable {turn : σ → Option (Turn σ R)} {result : R}

theorem Stops.loop_eq {turns : Nat} {s : σ} (h : Stops turn result turns s) {fuel : Nat}
    (hfuel : turns < fuel) : loop turn fuel s = .ok result := by
  induction h generalizing fuel with
  | stop last =>
      cases fuel with
      | zero => exact absurd hfuel (Nat.not_lt_zero _)
      | succ fuel => simp only [loop, last]
  | again first _ ih =>
      cases fuel with
      | zero => exact absurd hfuel (Nat.not_lt_zero _)
      | succ fuel =>
          simp only [loop, first]
          exact ih (Nat.lt_of_succ_lt_succ hfuel)

/-- The loop has no other result. -/
theorem Stops.eq_of_loop {turns : Nat} {s : σ} (h : Stops turn result turns s) {fuel : Nat}
    {other : R} (hloop : loop turn fuel s = .ok other) : other = result := by
  induction h generalizing fuel with
  | stop last =>
      cases fuel with
      | zero => cases hloop
      | succ fuel =>
          simp only [loop, last] at hloop
          cases hloop
          rfl
  | again first _ ih =>
      cases fuel with
      | zero => cases hloop
      | succ fuel =>
          simp only [loop, first] at hloop
          exact ih hloop

/-- More turns than it takes do not matter. -/
theorem loop_mono {fuel fuel' : Nat} {s : σ} (h : loop turn fuel s = .ok result)
    (hle : fuel ≤ fuel') : loop turn fuel' s = .ok result := by
  induction fuel generalizing fuel' s with
  | zero => cases h
  | succ fuel ih =>
      obtain ⟨more, rfl⟩ := Nat.exists_eq_add_of_le' (Nat.le_trans (Nat.succ_pos fuel) hle)
      simp only [loop] at h ⊢
      split at h
      · cases h
      · exact h
      · exact ih h (Nat.le_of_succ_le_succ hle)

theorem Leads.stops {s s' : σ} (h : Leads turn s s') {turns : Nat}
    (hstops : Stops turn result turns s') : ∃ more, Stops turn result more s := by
  induction h using Relation.ReflTransGen.head_induction_on with
  | refl => exact ⟨turns, hstops⟩
  | head first _ ih =>
      obtain ⟨more, hmore⟩ := ih
      exact ⟨more + 1, hmore.again first⟩

/-- What one turn preserves holds wherever the turns lead. -/
theorem Leads.invariant {P : σ → Prop} {s s' : σ} (h : Leads turn s s') (hstart : P s)
    (hturn : ∀ {t next}, P t → turn t = some (.again next) → P next) : P s' := by
  induction h with
  | refl => exact hstart
  | tail _ last ih => exact hturn ih last

/-- A loop that simulates another one turn by turn stops with it. -/
theorem Stops.simulated {turn' : τ → Option (Turn τ Q)} (rel : σ → τ → Prop) (out : R → Q → Prop)
    (hagain : ∀ {s next t}, rel s t → turn s = some (.again next) →
      ∃ next', turn' t = some (.again next') ∧ rel next next')
    (hstop : ∀ {s t r}, rel s t → turn s = some (.stop r) →
      ∃ q, turn' t = some (.stop q) ∧ out r q)
    {turns : Nat} {s : σ} {t : τ} (h : Stops turn result turns s) (hrel : rel s t) :
    ∃ q, Stops turn' q turns t ∧ out result q := by
  induction h generalizing t with
  | stop last =>
      obtain ⟨q, hq, hout⟩ := hstop hrel last
      exact ⟨q, .stop hq, hout⟩
  | again first _ ih =>
      obtain ⟨next', hnext, hrel'⟩ := hagain hrel first
      obtain ⟨q, hq, hout⟩ := ih hrel'
      exact ⟨q, hq.again hnext, hout⟩

end DistributedLabs.Library
