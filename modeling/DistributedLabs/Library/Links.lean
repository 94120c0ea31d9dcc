import Mathlib.Data.List.Chain
import Mathlib.Logic.Function.Basic

/-!
# Doubly linked lists

Nodes are known by their addresses, and the two fields that link them are functions of
the address.  A node is taken out of a list by redirecting its neighbours, and keeps its
own fields.  So it can be put back where it was, as long as what was taken out later has
been put back first.
-/

namespace DistributedLabs.Library

variable {P : Type}

/-- The fields that link the nodes. -/
structure Links (P : Type) where
  next : P → Option P
  prev : P → Option P

namespace Links

variable {links links' : Links P} {front back : List P} {a x : P}

/-- The node comes next, and knows the one before it. -/
def Joined (links : Links P) (a b : P) : Prop :=
  links.next a = some b ∧ links.prev b = some a

/-- The nodes are linked in this order, and nothing follows the last one. -/
structure Chain (links : Links P) (nodes : List P) : Prop where
  joined : nodes.IsChain links.Joined
  final : ∀ last ∈ nodes.getLast?, links.next last = none
  nodup : nodes.Nodup

theorem Chain.next_eq (h : Chain links (front ++ a :: x :: back)) : links.next a = some x :=
  (List.isChain_append_cons_cons.mp h.joined).2.1.1

theorem Chain.prev_eq (h : Chain links (front ++ a :: x :: back)) : links.prev x = some a :=
  (List.isChain_append_cons_cons.mp h.joined).2.1.2

/-- What follows a node of the list. -/
theorem Chain.next_eq_head (h : Chain links (front ++ x :: back)) :
    links.next x = back.head? := by
  cases back with
  | nil => exact h.final x (by simp)
  | cons b rest => exact h.next_eq

variable [DecidableEq P]

/-- Redirect the neighbours of a node to each other. -/
def unlink (links : Links P) (x : P) : Option (Links P) :=
  match links.prev x with
  | none => none
  | some a =>
      let next := Function.update links.next a (links.next x)
      match links.next x with
      | none => some { links with next := next }
      | some b => some ⟨next, Function.update links.prev b (links.prev x)⟩

/-- Redirect the neighbours of a node back to it. -/
def relink (links : Links P) (x : P) : Option (Links P) :=
  match links.prev x with
  | none => none
  | some a =>
      let next := Function.update links.next a (some x)
      match links.next x with
      | none => some { links with next := next }
      | some b => some ⟨next, Function.update links.prev b (some x)⟩

/-- A node can be put back where it was taken out. -/
theorem relink_unlink (hprev : links.prev x = some a) (hnext : links.next a = some x)
    (hne : x ≠ a) (hback : ∀ b, links.next x = some b → links.prev b = some x ∧ x ≠ b)
    (hrun : links.unlink x = some links') : links'.relink x = some links := by
  unfold unlink at hrun
  rw [hprev] at hrun
  cases hlast : links.next x with
  | none =>
      simp only [hlast, Option.some.injEq] at hrun
      subst hrun
      simp only [relink, hprev, Function.update_of_ne hne, hlast, Function.update_idem]
      rw [← hnext, Function.update_eq_self]
  | some b =>
      obtain ⟨hb, hxb⟩ := hback b hlast
      simp only [hlast, Option.some.injEq] at hrun
      subst hrun
      simp only [relink, hprev, Function.update_of_ne hne, Function.update_of_ne hxb, hlast,
        Function.update_idem]
      rw [← hnext, Function.update_eq_self, hnext, ← hb, Function.update_eq_self]

/-- Taking a node out of the list leaves the others linked in order. -/
theorem Chain.unlink (h : Chain links (front ++ a :: x :: back)) :
    ∃ links', links.unlink x = some links' ∧ Chain links' (front ++ a :: back) ∧
      links'.relink x = some links ∧ links'.next x = links.next x := by
  have hnext := h.next_eq
  have hprev := h.prev_eq
  have hnodup := h.nodup
  obtain ⟨hfront, _, hrest⟩ := List.isChain_append_cons_cons.mp h.joined
  have hsub : (front ++ a :: back).Sublist (front ++ a :: x :: back) :=
    (List.Sublist.refl front).append ((List.sublist_cons_self x back).cons_cons a)
  have hne : x ≠ a := by
    rintro rfl
    simp [List.nodup_append] at hnodup
  have hx : x ∉ front ++ [a] := by
    intro hmem
    have hperm : (front ++ a :: x :: back).Perm (x :: (front ++ a :: back)) := by
      rw [List.append_cons front a (x :: back), List.append_cons front a back]
      exact List.perm_middle
    refine (List.nodup_cons.mp (hperm.nodup_iff.mp hnodup)).1 ?_
    rw [List.append_cons]
    exact List.mem_append_left _ hmem
  cases back with
  | nil =>
      have hlast : links.next x = none := h.final x (by simp)
      have hrun : links.unlink x =
          some { links with next := Function.update links.next a none } := by
        simp only [Links.unlink, hprev, hlast]
      refine ⟨_, hrun, ⟨?_, ?_, hnodup.sublist hsub⟩, relink_unlink hprev hnext hne
        (fun b hb => by rw [hlast] at hb; cases hb) hrun, Function.update_of_ne hne _ _⟩
      · refine hfront.imp_of_mem_imp fun u v _ hv huv => ?_
        have hu : u ≠ a := by
          rintro rfl
          rw [Option.some.inj (hnext.symm.trans huv.1)] at hx
          exact hx hv
        exact ⟨(Function.update_of_ne hu _ _).trans huv.1, huv.2⟩
      · intro last hmem
        rw [List.getLast?_concat] at hmem
        obtain rfl := Option.some.inj hmem
        exact Function.update_self _ _ _
  | cons b rest =>
      obtain ⟨⟨hlast, hb⟩, hjoined⟩ := List.isChain_cons_cons.mp hrest
      have hrun : links.unlink x = some ⟨Function.update links.next a (some b),
          Function.update links.prev b (some a)⟩ := by
        simp only [Links.unlink, hprev, hlast]
      have hxb : x ≠ b := by
        rintro rfl
        simp [List.nodup_append] at hnodup
      have hafter : x ∉ b :: rest ∧ a ∉ b :: rest := by
        have hback := (List.nodup_append.mp hnodup).2.1
        have hxback := (List.nodup_cons.mp hback).2
        exact ⟨(List.nodup_cons.mp hxback).1, fun hmem =>
          (List.nodup_cons.mp hback).1 (List.mem_cons_of_mem x hmem)⟩
      have hbfront : b ∉ front ++ [a] := by
        intro hmem
        rw [List.append_cons] at hnodup
        exact (List.nodup_append.mp hnodup).2.2 b hmem b (by simp) rfl
      refine ⟨_, hrun, ⟨?_, ?_, hnodup.sublist hsub⟩, relink_unlink hprev hnext hne
        (fun c hc => ?_) hrun, Function.update_of_ne hne _ _⟩
      · refine List.isChain_append_cons_cons.mpr ⟨?_, ⟨Function.update_self _ _ _,
          Function.update_self _ _ _⟩, ?_⟩
        · refine hfront.imp_of_mem_imp fun u v _ hv huv => ?_
          have hu : u ≠ a := by
            rintro rfl
            rw [Option.some.inj (hnext.symm.trans huv.1)] at hx
            exact hx hv
          have hvb : v ≠ b := fun heq => hbfront (heq ▸ hv)
          exact ⟨(Function.update_of_ne hu _ _).trans huv.1,
            (Function.update_of_ne hvb _ _).trans huv.2⟩
        · refine hjoined.imp_of_mem_imp fun u v hu _ huv => ?_
          have hua : u ≠ a := fun heq => hafter.2 (heq ▸ hu)
          have hvb : v ≠ b := by
            rintro rfl
            rw [← Option.some.inj (hb.symm.trans huv.2)] at hu
            exact hafter.1 hu
          exact ⟨(Function.update_of_ne hua _ _).trans huv.1,
            (Function.update_of_ne hvb _ _).trans huv.2⟩
      · intro last hmem
        have hlinked : last ∈ (front ++ a :: x :: b :: rest).getLast? := by
          simpa [List.getLast?_append, List.getLast?_cons_cons] using hmem
        have hne' : last ≠ a := by
          rintro rfl
          refine hafter.2 (List.mem_of_getLast? ?_)
          simpa [List.getLast?_append, List.getLast?_cons_cons] using hmem
        exact (Function.update_of_ne hne' _ _).trans (h.final last hlinked)
      · rw [hlast] at hc
        obtain rfl := Option.some.inj hc
        exact ⟨hb, hxb⟩

/-- The same for a node with some nodes before it. -/
theorem Chain.unlink_of_front (h : Chain links (front ++ x :: back)) (hfront : front ≠ []) :
    ∃ links', links.unlink x = some links' ∧ Chain links' (front ++ back) ∧
      links'.relink x = some links ∧ links'.next x = links.next x := by
  obtain ⟨init, a, rfl⟩ := (List.eq_nil_or_concat' front).resolve_left hfront
  rw [List.append_assoc, List.singleton_append] at h ⊢
  exact h.unlink

end Links

end DistributedLabs.Library
