import DistributedLabs.Library.Majority
import Mathlib.Data.List.Infix
import Mathlib.Logic.Function.Basic
import Mathlib.Logic.Relation

/-!
# Replicating one log under numbered leaders

A population agrees on a growing log.  In each numbered term at most one member
leads; it may only extend its own log, and the others copy prefixes of it.  The
state keeps, beside what each member holds, the records that the argument is
about: the log each candidate stood with, the log each voter held when it voted,
the log of each leader, and how much of it each member has acknowledged.  No
record is ever erased, and no member ever has to look at one it did not make.
-/

namespace DistributedLabs.Library.Replication

structure Entry (α : Type) where
  term : Int
  data : α
  deriving DecidableEq, Repr

inductive Role where
  | follower
  | candidate
  | leader
  deriving DecidableEq, Repr

/-- A won election: who won it and whose votes decided it. -/
structure Mandate (ι : Type) where
  leader : ι
  quorum : Finset ι

structure State (ι α : Type) where
  term : ι → Int
  vote : ι → Option ι
  role : ι → Role
  log : ι → List (Entry α)
  stood : Int → ι → Option (List (Entry α))
  ballot : Int → ι → Option (ι × List (Entry α))
  mandate : Int → Option (Mandate ι)
  leaderLog : Int → List (Entry α)
  ack : Int → ι → Nat

/-- The term of the last entry, and `-1` before the first one. -/
def lastTerm {α : Type} (log : List (Entry α)) : Int :=
  match log.getLast? with
  | none => -1
  | some entry => entry.term

@[simp]
theorem lastTerm_nil {α : Type} : lastTerm ([] : List (Entry α)) = -1 := rfl

@[simp]
theorem lastTerm_concat {α : Type} (log : List (Entry α)) (entry : Entry α) :
    lastTerm (log ++ [entry]) = entry.term := by
  simp [lastTerm]

/-- A voter only supports a candidate whose log ends at least as late as its own. -/
def UpToDate {α : Type} (candidate voter : List (Entry α)) : Prop :=
  lastTerm voter < lastTerm candidate ∨
    (lastTerm candidate = lastTerm voter ∧ voter.length ≤ candidate.length)

theorem UpToDate.refl {α : Type} (log : List (Entry α)) : UpToDate log log :=
  Or.inr ⟨rfl, Nat.le_refl _⟩

/-- Overwrite one record of one member in one term. -/
def record {ι β : Type} [DecidableEq ι] (records : Int → ι → β) (term : Int)
    (member : ι) (value : β) : Int → ι → β :=
  fun otherTerm other =>
    if otherTerm = term ∧ other = member then value else records otherTerm other

section Record

variable {ι β : Type} [DecidableEq ι]

@[simp]
theorem record_self (records : Int → ι → β) (term : Int) (member : ι) (value : β) :
    record records term member value term member = value := by
  simp [record]

theorem record_of_ne (records : Int → ι → β) (term otherTerm : Int)
    {member other : ι} (value : β) (hne : other ≠ member) :
    record records term member value otherTerm other = records otherTerm other := by
  simp [record, hne]

/-- A record read after an overwrite is the new one or an old one. -/
theorem record_cases (records : Int → ι → β) (term : Int) (member : ι) (value : β)
    (otherTerm : Int) (other : ι) :
    (otherTerm = term ∧ other = member ∧
      record records term member value otherTerm other = value) ∨
    (¬(otherTerm = term ∧ other = member) ∧
      record records term member value otherTerm other = records otherTerm other) := by
  by_cases hsame : otherTerm = term ∧ other = member
  · exact Or.inl ⟨hsame.1, hsame.2, by simp [record, hsame]⟩
  · exact Or.inr ⟨hsame, by simp [record, hsame]⟩

/-- Filling a free record leaves every other one in place. -/
theorem record_keeps {records : Int → ι → Option β} {T T' : Int} {q q' : ι}
    {value : Option β} {b : β} (hfree : records T q = none)
    (h : records T' q' = some b) : record records T q value T' q' = some b := by
  rcases record_cases records T q value T' q' with ⟨rfl, rfl, _⟩ | ⟨_, hold⟩
  · rw [hfree] at h
    cases h
  · rw [hold]
    exact h

end Record

section Steps

variable {ι α : Type} [Fintype ι] [DecidableEq ι]

open Function (update)

/-- What one member can do.  A log is replaced only when it does not already
contain the prefix being copied, so nothing acknowledged in a term is lost in it. -/
inductive Step (p : ι) (s : State ι α) : State ι α → Prop where
  | advance {T : Int} (higher : s.term p < T) :
      Step p s { s with
        term := update s.term p T
        vote := update s.vote p none
        role := update s.role p .follower }
  | stepDown :
      Step p s { s with role := update s.role p .follower }
  | stand {T : Int} (higher : s.term p < T) :
      Step p s { s with
        term := update s.term p T
        vote := update s.vote p (some p)
        role := update s.role p .candidate
        stood := record s.stood T p (some (s.log p))
        ballot := record s.ballot T p (some (p, s.log p)) }
  | grant {c : ι} {l : List (Entry α)} (free : s.vote p = none)
      (standing : s.stood (s.term p) c = some l)
      (current : UpToDate l (s.log p)) :
      Step p s { s with
        vote := update s.vote p (some c)
        role := update s.role p .follower
        ballot := record s.ballot (s.term p) p (some (c, s.log p)) }
  | win {quorum : Finset ι} (candidate : s.role p = .candidate)
      (majority : Majority quorum)
      (granted : ∀ v ∈ quorum, ∃ l, s.ballot (s.term p) v = some (p, l)) :
      Step p s { s with
        role := update s.role p .leader
        mandate := update s.mandate (s.term p) (some ⟨p, quorum⟩)
        leaderLog := update s.leaderLog (s.term p) (s.log p)
        ack := record s.ack (s.term p) p (s.log p).length }
  | append {d : α} (leader : s.role p = .leader) :
      Step p s { s with
        log := update s.log p (s.log p ++ [⟨s.term p, d⟩])
        leaderLog := update s.leaderLog (s.term p) (s.log p ++ [⟨s.term p, d⟩])
        ack := record s.ack (s.term p) p ((s.log p).length + 1) }
  | acknowledge {m : Nat} (short : m ≤ (s.leaderLog (s.term p)).length)
      (holds : (s.leaderLog (s.term p)).take m <+: s.log p) :
      Step p s { s with
        ack := record s.ack (s.term p) p (max (s.ack (s.term p) p) m) }
  | adopt {m : Nat} (short : m ≤ (s.leaderLog (s.term p)).length)
      (differs : ¬ (s.leaderLog (s.term p)).take m <+: s.log p) :
      Step p s { s with
        log := update s.log p ((s.leaderLog (s.term p)).take m)
        role := update s.role p .follower
        ack := record s.ack (s.term p) p (max (s.ack (s.term p) p) m) }

/-- Any number of steps of any members. -/
def Steps : State ι α → State ι α → Prop :=
  Relation.ReflTransGen (fun s s' => ∃ p, Step p s s')

/-- Nobody has stood, voted or written anything. -/
def initial : State ι α where
  term _ := 0
  vote _ := none
  role _ := .follower
  log _ := []
  stood _ _ := none
  ballot _ _ := none
  mandate _ := none
  leaderLog _ := []
  ack _ _ := 0

end Steps

end DistributedLabs.Library.Replication
