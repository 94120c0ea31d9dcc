import Mathlib.Data.List.Basic

/-!
# Patterns with a star

A star stands for any characters but the separator.  A name is matched from its front; where
a star stands, every place at which it may end is tried.
-/

namespace DistributedLabs.Library.Glob

variable {α : Type}

inductive Token (α : Type) where
  | char (c : α)
  | star
  deriving DecidableEq, Repr

section

variable [DecidableEq α] (sep : α)

/-- What may be left of a name behind a star. -/
def starRests : List α → List (List α)
  | [] => [[]]
  | c :: rest => (c :: rest) :: if c = sep then [] else starRests rest

def matchesPattern : List (Token α) → List α → Bool
  | [], name => name.isEmpty
  | .char _ :: _, [] => false
  | .char c :: pattern, d :: rest => decide (c = d) && matchesPattern pattern rest
  | .star :: pattern, name => (starRests sep name).any (matchesPattern pattern)

variable {sep}

theorem mem_starRests {name rest : List α} :
    rest ∈ starRests sep name ↔ ∃ mid, sep ∉ mid ∧ name = mid ++ rest := by
  induction name with
  | nil =>
      constructor
      · intro hmem
        obtain rfl := List.mem_singleton.mp hmem
        exact ⟨[], List.not_mem_nil, rfl⟩
      · rintro ⟨mid, _, hname⟩
        obtain ⟨rfl, rfl⟩ := List.append_eq_nil_iff.mp hname.symm
        exact List.mem_singleton.mpr rfl
  | cons c name ih =>
      rw [starRests, List.mem_cons]
      constructor
      · rintro (rfl | hmem)
        · exact ⟨[], List.not_mem_nil, rfl⟩
        · split at hmem
          · cases hmem
          · next hc =>
              obtain ⟨mid, hmid, rfl⟩ := ih.mp hmem
              refine ⟨c :: mid, ?_, rfl⟩
              rw [List.mem_cons, not_or]
              exact ⟨Ne.symm hc, hmid⟩
      · rintro ⟨mid, hmid, hname⟩
        cases mid with
        | nil => exact .inl hname.symm
        | cons d mid =>
            obtain ⟨rfl, rfl⟩ := List.cons.inj hname
            rw [List.mem_cons, not_or] at hmid
            rw [if_neg (Ne.symm hmid.1)]
            exact .inr (ih.mpr ⟨mid, hmid.2, rfl⟩)

/-- The characters of a pattern are matched by themselves. -/
theorem matchesPattern_chars (front : List α) (pattern : List (Token α)) (name : List α) :
    matchesPattern sep (front.map .char ++ pattern) name = true ↔
      ∃ rest, name = front ++ rest ∧ matchesPattern sep pattern rest = true := by
  induction front generalizing name with
  | nil => simp
  | cons c front ih =>
      cases name with
      | nil => simp [matchesPattern]
      | cons d name =>
          simp only [List.map_cons, List.cons_append, matchesPattern, Bool.and_eq_true,
            decide_eq_true_eq, ih, List.cons.injEq]
          constructor
          · rintro ⟨rfl, rest, rfl, hrest⟩
            exact ⟨rest, ⟨rfl, rfl⟩, hrest⟩
          · rintro ⟨rest, ⟨rfl, rfl⟩, hrest⟩
            exact ⟨rfl, rest, rfl, hrest⟩

/-- One star between two texts. -/
theorem matchesPattern_between (front back name : List α) :
    matchesPattern sep (front.map .char ++ .star :: back.map .char) name = true ↔
      ∃ mid, sep ∉ mid ∧ name = front ++ (mid ++ back) := by
  have hback (rest : List α) : matchesPattern sep (back.map .char) rest = true ↔ rest = back := by
    rw [← List.append_nil (back.map Token.char), matchesPattern_chars]
    simp [matchesPattern]
  rw [matchesPattern_chars]
  simp only [matchesPattern, List.any_eq_true, mem_starRests, hback]
  constructor
  · rintro ⟨rest, rfl, back, ⟨mid, hmid, rfl⟩, rfl⟩
    exact ⟨mid, hmid, rfl⟩
  · rintro ⟨mid, hmid, rfl⟩
    exact ⟨mid ++ back, rfl, back, ⟨mid, hmid, rfl⟩, rfl⟩

end

/-- The last separator splits a text in one way. -/
theorem split_last {sep : α} {front front' back back' : List α} (hback : sep ∉ back)
    (hback' : sep ∉ back') (h : front ++ sep :: back = front' ++ sep :: back') :
    front = front' ∧ back = back' := by
  rcases List.append_eq_append_iff.mp h with ⟨more, hfront, hrest⟩ | ⟨more, hfront, hrest⟩
  · cases more with
    | nil => exact ⟨by simpa using hfront.symm, (List.cons.inj hrest).2⟩
    | cons d more =>
        refine absurd ?_ hback
        rw [(List.cons.inj hrest).2]
        simp
  · cases more with
    | nil => exact ⟨by simpa using hfront, (List.cons.inj hrest).2.symm⟩
    | cons d more =>
        refine absurd ?_ hback'
        rw [(List.cons.inj hrest).2]
        simp

end DistributedLabs.Library.Glob
