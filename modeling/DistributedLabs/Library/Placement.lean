import DistributedLabs.Library.Locality
import Mathlib.Data.List.Perm.Basic

/-!
# Placing operations one after the other

The operations of a history are known by their positions in it.  An operation may be placed
next if none of the operations that are left had returned before it was called.  Histories
whose operations can all be placed this way, in an order that the object can carry out, are
the linearizable ones.
-/

namespace DistributedLabs.Library

variable {S I O T : Type} [LT T] {history : List (Operation T I O)}
  {placed placed' ids : List Nat} {id : Nat}

/-- The operation may be placed next. -/
structure MayPlace (history : List (Operation T I O)) (placed : List Nat) (id : Nat) : Prop where
  fresh : id ∉ placed
  first : ∃ op, history[id]? = some op ∧
    ∀ other left, history[other]? = some left → other ∉ placed → ¬ left.ret < op.call

/-- The operations may be placed in this order. -/
def Places (history : List (Operation T I O)) : List Nat → List Nat → Prop
  | _, [] => True
  | placed, id :: rest => MayPlace history placed id ∧ Places history (placed ++ [id]) rest

omit [LT T] in
/-- The inputs and outputs of the operations. -/
def iosOf (history : List (Operation T I O)) (ids : List Nat) : List (I × O) :=
  ids.filterMap fun id => (history[id]?).map Operation.io

/-- The operations may be placed in this order, and the object can carry them out. -/
structure LinearizableStart (obj : SeqObject S I O) (history : List (Operation T I O))
    (ids : List Nat) : Prop where
  places : Places history [] ids
  legal : obj.Legal obj.init (iosOf history ids)

theorem MayPlace.lt_length (h : MayPlace history placed id) : id < history.length := by
  obtain ⟨op, hop, _⟩ := h.first
  exact (List.getElem?_eq_some_iff.mp hop).1

/-- Which operations have been placed matters, and not in which order. -/
theorem MayPlace.perm (h : MayPlace history placed id) (hperm : placed.Perm placed') :
    MayPlace history placed' id := by
  obtain ⟨op, hop, hfirst⟩ := h.first
  exact ⟨fun hmem => h.fresh (hperm.mem_iff.mpr hmem), op, hop, fun other left hleft hother =>
    hfirst other left hleft fun hmem => hother (hperm.mem_iff.mp hmem)⟩

theorem Places.perm (h : Places history placed ids) (hperm : placed.Perm placed') :
    Places history placed' ids := by
  induction ids generalizing placed placed' with
  | nil => trivial
  | cons id rest ih => exact ⟨h.1.perm hperm, ih h.2 (hperm.append_right [id])⟩

theorem Places.nodup (h : Places history placed ids) (hplaced : placed.Nodup) :
    (placed ++ ids).Nodup := by
  induction ids generalizing placed with
  | nil => rwa [List.append_nil]
  | cons id rest ih =>
      have hnext : (placed ++ [id]).Nodup := List.nodup_append.mpr
        ⟨hplaced, List.nodup_singleton id,
          fun a ha b hb heq => h.1.fresh (List.mem_singleton.mp hb ▸ heq ▸ ha)⟩
      have hall := ih h.2 hnext
      rwa [List.append_assoc] at hall

theorem Places.lt_length (h : Places history placed ids) (hmem : id ∈ ids) :
    id < history.length := by
  induction ids generalizing placed with
  | nil => cases hmem
  | cons other rest ih =>
      rcases List.mem_cons.mp hmem with rfl | hrest
      · exact h.1.lt_length
      · exact ih h.2 hrest

/-! ## Names of operations -/

omit [LT T] in
/-- These are the positions of the operations. -/
def Names (history : List (Operation T I O)) : List Nat → List (Operation T I O) → Prop :=
  List.Forall₂ fun id op => history[id]? = some op

omit [LT T] in
theorem Names.iosOf_eq {ops : List (Operation T I O)} (h : Names history ids ops) :
    iosOf history ids = ops.map Operation.io := by
  induction h with
  | nil => rfl
  | cons hop _ ih =>
      simp only [iosOf, List.map_cons] at ih ⊢
      rw [List.filterMap_cons, hop, ih]
      rfl

omit [LT T] in
theorem names_range (history : List (Operation T I O)) :
    Names history (List.range history.length) history := by
  refine List.forall₂_iff_get.mpr ⟨List.length_range, fun i h₁ h₂ => ?_⟩
  simp [List.getElem?_eq_getElem h₂]

omit [LT T] in
/-- Reordered operations have the reordered names. -/
theorem exists_names {order : List (Operation T I O)} (hperm : order.Perm history) :
    ∃ ids, ids.Perm (List.range history.length) ∧ Names history ids order := by
  have hcomp : Relation.Comp (List.Forall₂ fun id op => history[id]? = some op) List.Perm
      (List.range history.length) order := ⟨history, names_range history, hperm.symm⟩
  rw [List.forall₂_comp_perm_eq_perm_comp_forall₂] at hcomp
  obtain ⟨ids, hids, hnames⟩ := hcomp
  exact ⟨ids, hids.symm, hnames⟩

omit [LT T] in
theorem exists_operations (hids : ids.Perm (List.range history.length)) :
    ∃ order, order.Perm history ∧ Names history ids order := by
  obtain ⟨order, hnames, hperm⟩ := List.perm_comp_forall₂ hids (names_range history)
  exact ⟨order, hperm, hnames⟩

omit [LT T] in
theorem Names.exists_of_mem {order : List (Operation T I O)} (h : Names history ids order)
    (hmem : id ∈ ids) : ∃ op ∈ order, history[id]? = some op := by
  induction h with
  | nil => cases hmem
  | cons hop _ ih =>
      rcases List.mem_cons.mp hmem with rfl | hrest
      · exact ⟨_, List.mem_cons_self, hop⟩
      · obtain ⟨op, hin, hop⟩ := ih hrest
        exact ⟨op, List.mem_cons_of_mem _ hin, hop⟩

omit [LT T] in
theorem Names.exists_of_mem_order {order : List (Operation T I O)} (h : Names history ids order)
    {op : Operation T I O} (hmem : op ∈ order) : ∃ id ∈ ids, history[id]? = some op := by
  induction h with
  | nil => cases hmem
  | cons hop _ ih =>
      rcases List.mem_cons.mp hmem with rfl | hrest
      · exact ⟨_, List.mem_cons_self, hop⟩
      · obtain ⟨id, hin, hop⟩ := ih hrest
        exact ⟨id, List.mem_cons_of_mem _ hin, hop⟩

/-! ## Orders of the whole history -/

/-- An order that respects the times can be placed. -/
theorem Names.places {order : List (Operation T I O)} (hnames : Names history ids order)
    (htimed : Timed history)
    (htimes : order.Pairwise fun before after => ¬ after.ret < before.call)
    (hall : (placed ++ ids).Perm (List.range history.length)) : Places history placed ids := by
  induction hnames generalizing placed with
  | nil => trivial
  | @cons id op rest ops hop hrest ih =>
      obtain ⟨hfirst, hlater⟩ := List.pairwise_cons.mp htimes
      refine ⟨⟨?_, op, hop, fun other left hleft hother => ?_⟩, ih hlater (by
        rwa [List.append_assoc])⟩
      · have hnodup := hall.nodup_iff.mpr List.nodup_range
        exact fun hmem => (List.nodup_append.mp hnodup).2.2 id hmem id List.mem_cons_self rfl
      · have hmem : other ∈ placed ++ id :: rest :=
          hall.mem_iff.mpr (List.mem_range.mpr (List.getElem?_eq_some_iff.mp hleft).1)
        rcases List.mem_cons.mp ((List.mem_append.mp hmem).resolve_left hother) with rfl | hmem
        · obtain rfl := Option.some.inj (hleft.symm.trans hop)
          exact htimed _ (List.mem_of_getElem? hop)
        · obtain ⟨found, hin, hfound⟩ := Names.exists_of_mem hrest hmem
          obtain rfl := Option.some.inj (hleft.symm.trans hfound)
          exact hfirst _ hin

/-- Operations that can be placed in an order respect the times. -/
theorem Places.times (h : Places history placed ids) (hnodup : (placed ++ ids).Nodup)
    {order : List (Operation T I O)} (hnames : Names history ids order) :
    order.Pairwise fun before after => ¬ after.ret < before.call := by
  induction hnames generalizing placed with
  | nil => exact List.Pairwise.nil
  | @cons id op rest ops hop hrest ih =>
      obtain ⟨hplace, hlater⟩ := h
      rw [List.append_cons] at hnodup
      refine List.pairwise_cons.mpr ⟨fun after hafter => ?_, ih hlater hnodup⟩
      obtain ⟨other, hother, hread⟩ := Names.exists_of_mem_order hrest hafter
      obtain ⟨first, hfirst, hbefore⟩ := hplace.first
      obtain rfl := Option.some.inj (hop.symm.trans hfirst)
      refine hbefore other after hread fun hmem => ?_
      exact (List.nodup_append.mp hnodup).2.2 other (List.mem_append_left _ hmem) other hother rfl

/-- A history is linearizable if and only if all its operations can be placed. -/
theorem linearizable_iff_start {obj : SeqObject S I O} (htimed : Timed history) :
    Linearizable obj history ↔
      ∃ ids, LinearizableStart obj history ids ∧ ids.Perm (List.range history.length) := by
  constructor
  · rintro ⟨order, hperm, htimes, hlegal⟩
    obtain ⟨ids, hids, hnames⟩ := exists_names hperm
    refine ⟨ids, ⟨hnames.places htimed htimes hids, ?_⟩, hids⟩
    rw [hnames.iosOf_eq]
    exact hlegal
  · rintro ⟨ids, ⟨hplaces, hlegal⟩, hids⟩
    obtain ⟨order, hperm, hnames⟩ := exists_operations hids
    refine ⟨order, hperm, hplaces.times (hplaces.nodup List.nodup_nil) hnames, ?_⟩
    rw [← hnames.iosOf_eq]
    exact hlegal

end DistributedLabs.Library
