import DistributedLabs.Library.Linearizability
import Mathlib.Data.List.MinMax
import Mathlib.Logic.Function.Basic

/-!
# Objects with keys

One copy of an object for every key is an object again, whose inputs name the copy they
are for.  A history of it is linearizable if and only if its operations on each key are,
so the keys can be checked one at a time.  The orders of the keys are merged by taking, of
the key whose operation returns first, the operation that comes first in the order of that
key.
-/

namespace DistributedLabs.Library

variable {S I O K T : Type} [DecidableEq K]

/-! ## The object -/

namespace SeqObject

/-- One copy of the object for every key. -/
def keyed (keyOf : I → K) (obj : SeqObject S I O) : SeqObject (K → S) I O where
  init _ := obj.init
  step s input output :=
    (obj.step (s (keyOf input)) input output).map (Function.update s (keyOf input))

/-- What is for the key. -/
def only (keyOf : I → K) (key : K) (ios : List (I × O)) : List (I × O) :=
  ios.filter fun io => keyOf io.1 = key

variable {keyOf : I → K} {obj : SeqObject S I O}

theorem only_cons_self (io : I × O) (rest : List (I × O)) :
    only keyOf (keyOf io.1) (io :: rest) = io :: only keyOf (keyOf io.1) rest := by
  simp [only]

theorem only_cons_of_ne {io : I × O} {key : K} (h : keyOf io.1 ≠ key) (rest : List (I × O)) :
    only keyOf key (io :: rest) = only keyOf key rest := by
  simp [only, h]

/-- Every key sees its own inputs and outputs only. -/
theorem keyed_legal_iff {s : K → S} {ios : List (I × O)} :
    (obj.keyed keyOf).Legal s ios ↔ ∀ key, obj.Legal (s key) (only keyOf key ios) := by
  induction ios generalizing s with
  | nil => exact ⟨fun _ key => ⟨s key, rfl⟩, fun _ => ⟨s, rfl⟩⟩
  | cons io rest ih =>
      rw [legal_cons]
      constructor
      · rintro ⟨next, hstep, hrest⟩ key
        obtain ⟨state, hstate, rfl⟩ := Option.map_eq_some_iff.mp hstep
        have hkey := ih.mp hrest key
        by_cases hown : keyOf io.1 = key
        · subst hown
          rw [Function.update_self] at hkey
          rw [only_cons_self, legal_cons]
          exact ⟨state, hstate, hkey⟩
        · rw [Function.update_of_ne (Ne.symm hown)] at hkey
          rw [only_cons_of_ne hown]
          exact hkey
      · intro hkeys
        have hown := hkeys (keyOf io.1)
        rw [only_cons_self, legal_cons] at hown
        obtain ⟨state, hstate, hrest⟩ := hown
        refine ⟨_, Option.map_eq_some_iff.mpr ⟨state, hstate, rfl⟩, ih.mpr fun key => ?_⟩
        by_cases hkey : keyOf io.1 = key
        · subst hkey
          rw [Function.update_self]
          exact hrest
        · have hother := hkeys key
          rw [only_cons_of_ne hkey] at hother
          rw [Function.update_of_ne (Ne.symm hkey)]
          exact hother

end SeqObject

open SeqObject (only)

/-! ## Histories of one key -/

/-- The operations on a key. -/
def onKey (keyOf : I → K) (key : K) (history : List (Operation T I O)) : List (Operation T I O) :=
  history.filter fun op => keyOf op.input = key

theorem map_io_onKey (keyOf : I → K) (key : K) (history : List (Operation T I O)) :
    (onKey keyOf key history).map Operation.io = only keyOf key (history.map Operation.io) := by
  rw [onKey, only, List.filter_map]
  rfl

theorem onKey_cons_self {keyOf : I → K} (op : Operation T I O) (rest : List (Operation T I O)) :
    onKey keyOf (keyOf op.input) (op :: rest) = op :: onKey keyOf (keyOf op.input) rest := by
  simp [onKey]

theorem onKey_cons_of_ne {keyOf : I → K} {op : Operation T I O} {key : K}
    (h : keyOf op.input ≠ key) (rest : List (Operation T I O)) :
    onKey keyOf key (op :: rest) = onKey keyOf key rest := by
  simp [onKey, h]

/-- An operation does not return before it is called. -/
def Timed [LT T] (history : List (Operation T I O)) : Prop :=
  ∀ op ∈ history, ¬ op.ret < op.call

/-- The operations can be carried out from the state, in an order that respects the times. -/
def LinearizableFrom [LT T] (obj : SeqObject S I O) (s : S) (history : List (Operation T I O)) :
    Prop :=
  ∃ order : List (Operation T I O), order.Perm history ∧
    (order.Pairwise fun before after => ¬ after.ret < before.call) ∧
    obj.Legal s (order.map Operation.io)

theorem linearizable_iff_from [LT T] {obj : SeqObject S I O} {history : List (Operation T I O)} :
    Linearizable obj history ↔ LinearizableFrom obj obj.init history := by
  constructor
  · rintro ⟨order, hperm, htime, hlegal⟩
    exact ⟨order, hperm, htime, hlegal⟩
  · rintro ⟨order, hperm, htime, hlegal⟩
    exact ⟨order, hperm, htime, hlegal⟩

section Merge

variable [LinearOrder T] {keyOf : I → K} {obj : SeqObject S I O}

/-- Among the operations that come first for their keys there is one that may come first of
all: the one on the key whose operation returns first. -/
theorem exists_first {history : List (Operation T I O)} (hne : history ≠ [])
    (htimed : Timed history) {orders : K → List (Operation T I O)}
    (hperm : ∀ key, (orders key).Perm (onKey keyOf key history))
    (htime : ∀ key, (orders key).Pairwise fun before after => ¬ after.ret < before.call) :
    ∃ first rest, orders (keyOf first.input) = first :: rest ∧
      ∀ op ∈ history, ¬ op.ret < first.call := by
  obtain ⟨least, hleast⟩ : ∃ least, least ∈ history.argmin Operation.ret := by
    cases hmin : history.argmin Operation.ret with
    | none => exact absurd (List.argmin_eq_none.mp hmin) hne
    | some least => exact ⟨least, rfl⟩
  have hmem : least ∈ history := List.argmin_mem hleast
  have hbefore : ∀ op ∈ history, least.ret ≤ op.ret := fun op hop =>
    List.le_of_mem_argmin hop hleast
  have hown : least ∈ orders (keyOf least.input) :=
    (hperm _).mem_iff.mpr (List.mem_filter.mpr ⟨hmem, decide_eq_true rfl⟩)
  cases horder : orders (keyOf least.input) with
  | nil =>
      rw [horder] at hown
      cases hown
  | cons first rest =>
      have hfirst : first ∈ onKey keyOf (keyOf least.input) history :=
        (hperm _).mem_iff.mp (by rw [horder]; exact List.mem_cons_self)
      have hkey : keyOf first.input = keyOf least.input :=
        of_decide_eq_true (List.mem_filter.mp hfirst).2
      have hcall : ¬ least.ret < first.call := by
        rw [horder] at hown
        rcases List.mem_cons.mp hown with rfl | hlater
        · exact htimed _ hmem
        · have htimes := htime (keyOf least.input)
          rw [horder] at htimes
          exact (List.pairwise_cons.mp htimes).1 least hlater
      refine ⟨first, rest, by rw [hkey]; exact horder, fun op hop hlt => ?_⟩
      exact hcall (lt_of_le_of_lt (hbefore op hop) hlt)

theorem linearizableFrom_keyed {history : List (Operation T I O)} (htimed : Timed history)
    {s : K → S} (hkeys : ∀ key, LinearizableFrom obj (s key) (onKey keyOf key history)) :
    LinearizableFrom (obj.keyed keyOf) s history := by
  induction hsize : history.length generalizing history s with
  | zero =>
      obtain rfl := List.length_eq_zero_iff.mp hsize
      exact ⟨[], List.Perm.refl _, List.Pairwise.nil, s, rfl⟩
  | succ size ih =>
      choose orders hperm htime hlegal using hkeys
      have hne : history ≠ [] := by
        rintro rfl
        cases hsize
      obtain ⟨first, rest, horder, hfirst⟩ := exists_first hne htimed hperm htime
      have hmem : first ∈ history := (List.mem_filter.mp ((hperm (keyOf first.input)).mem_iff.mp
        (by rw [horder]; exact List.mem_cons_self))).1
      obtain ⟨front, back, rfl⟩ := List.append_of_mem hmem
      have hperm_others : (front ++ first :: back).Perm (first :: (front ++ back)) :=
        List.perm_middle
      have hown := hlegal (keyOf first.input)
      rw [horder, List.map_cons, SeqObject.legal_cons] at hown
      obtain ⟨next, hstep, hrest⟩ := hown
      have hothers : ∀ key, LinearizableFrom obj (Function.update s (keyOf first.input) next key)
          (onKey keyOf key (front ++ back)) := by
        intro key
        have hsplit : (orders key).Perm (onKey keyOf key (first :: (front ++ back))) :=
          (hperm key).trans (hperm_others.filter _)
        by_cases hkey : keyOf first.input = key
        · subst hkey
          rw [Function.update_self]
          rw [onKey_cons_self, horder] at hsplit
          have htimes := htime (keyOf first.input)
          rw [horder] at htimes
          exact ⟨rest, hsplit.cons_inv, (List.pairwise_cons.mp htimes).2, hrest⟩
        · rw [Function.update_of_ne (Ne.symm hkey)]
          rw [onKey_cons_of_ne hkey] at hsplit
          exact ⟨orders key, hsplit, htime key, hlegal key⟩
      obtain ⟨order, horder', htimes, hlegal'⟩ := ih
        (fun op hop => htimed op (hperm_others.mem_iff.mpr (List.mem_cons_of_mem _ hop)))
        hothers (by
          simp only [List.length_append, List.length_cons] at hsize ⊢
          omega)
      refine ⟨first :: order, (horder'.cons first).trans hperm_others.symm,
        List.pairwise_cons.mpr ⟨fun op hop => ?_, htimes⟩, ?_⟩
      · exact hfirst op (hperm_others.mem_iff.mpr (List.mem_cons_of_mem _ (horder'.mem_iff.mp hop)))
      · rw [List.map_cons, SeqObject.legal_cons]
        exact ⟨_, Option.map_eq_some_iff.mpr ⟨next, hstep, rfl⟩, hlegal'⟩

/-- A history is linearizable if and only if it is linearizable for every key. -/
theorem linearizable_keyed_iff {history : List (Operation T I O)} (htimed : Timed history) :
    Linearizable (obj.keyed keyOf) history ↔
      ∀ key, Linearizable obj (onKey keyOf key history) := by
  constructor
  · rintro ⟨order, hperm, htime, hlegal⟩ key
    refine ⟨onKey keyOf key order, hperm.filter _, htime.filter _, ?_⟩
    rw [map_io_onKey]
    exact SeqObject.keyed_legal_iff.mp hlegal key
  · intro hkeys
    exact linearizable_iff_from.mpr
      (linearizableFrom_keyed htimed fun key => linearizable_iff_from.mp (hkeys key))

end Merge

end DistributedLabs.Library
