import DistributedLabs.Porcupine.Checker
import DistributedLabs.Library.Locality

/-!
# The list of calls and returns

Every operation has one call and one return among the entries, and its return comes behind
its call.  `makeLinkedEntries` links the nodes of the entries in their order, and the node of
a call points to the node of its return.  Lifting an operation takes both nodes out of the
list, and `unlift` restores it as it was.
-/

namespace DistributedLabs.Porcupine

open DistributedLabs.Library

variable {S I O : Type} {history : List (Operation I O)} {entries : List (Entry I O)}

/-! ## Entries -/

@[simp] theorem callEntry_isReturn (op : Operation I O) (id : Nat) :
    (callEntry op id).isReturn = false := rfl

@[simp] theorem returnEntry_isReturn (op : Operation I O) (id : Nat) :
    (returnEntry op id).isReturn = true := rfl

@[simp] theorem callEntry_id (op : Operation I O) (id : Nat) : (callEntry op id).id = id := rfl

@[simp] theorem returnEntry_id (op : Operation I O) (id : Nat) : (returnEntry op id).id = id := rfl

theorem mem_appendEntries {e : Entry I O} :
    e ∈ appendEntries history ↔ ∃ op id, history[id]? = some op ∧
      (e = callEntry op id ∨ e = returnEntry op id) := by
  simp only [appendEntries, List.mem_flatMap, Prod.exists, List.mk_mem_zipIdx_iff_getElem?,
    List.mem_cons, List.not_mem_nil, or_false]

/-- Entries may stand in this order. -/
theorem Entry.not_less_iff {a b : Entry I O} : b.less a = false ↔
    a.time ≤ b.time ∧ (a.time = b.time → a.isReturn = true → b.isReturn = true) := by
  unfold Entry.less
  by_cases htime : b.time = a.time
  · rw [if_neg (not_not_intro htime)]
    cases a.isReturn <;> cases b.isReturn <;> simp [htime]
  · rw [if_pos htime, decide_eq_false_iff_not]
    constructor
    · exact fun h => ⟨Int.not_lt.mp h, fun heq => absurd heq.symm htime⟩
    · exact fun h => Int.not_lt.mpr h.1

theorem Entry.not_less_trans {a b c : Entry I O} (hab : b.less a = false)
    (hbc : c.less b = false) : c.less a = false := by
  rw [Entry.not_less_iff] at hab hbc ⊢
  refine ⟨Int.le_trans hab.1 hbc.1, fun heq hreturn => ?_⟩
  have hmiddle : a.time = b.time := Int.le_antisymm hab.1 (heq ▸ hbc.1)
  exact hbc.2 (hmiddle.symm.trans heq) (hab.2 hmiddle hreturn)

theorem Entry.not_less_total (a b : Entry I O) : b.less a = false ∨ a.less b = false := by
  cases hless : b.less a with
  | false => exact .inl rfl
  | true =>
      refine .inr (Entry.not_less_iff.mpr ?_)
      unfold Entry.less at hless
      split at hless
      · have hlt := of_decide_eq_true hless
        exact ⟨Int.le_of_lt hlt, fun heq => absurd heq (Int.ne_of_lt hlt)⟩
      · next heq =>
          have hkinds := (Bool.and_eq_true _ _).mp hless
          exact ⟨Int.le_of_eq (not_not.mp heq), fun _ _ => hkinds.2⟩

/-- A call comes before the return of the same operation. -/
theorem callEntry_less {op : Operation I O} (htimed : ¬ op.ret < op.call) (id : Nat) :
    (callEntry op id).less (returnEntry op id) = true := by
  cases hless : (callEntry op id).less (returnEntry op id) with
  | true => rfl
  | false =>
      obtain ⟨hle, hkind⟩ := Entry.not_less_iff.mp hless
      have hback : (callEntry op id).isReturn = true :=
        hkind (Int.le_antisymm hle (Int.not_lt.mp htimed)) rfl
      cases hback

instance : Std.Total fun a b : Entry I O => b.less a = false :=
  ⟨Entry.not_less_total⟩

instance : IsTrans (Entry I O) fun a b => b.less a = false :=
  ⟨fun _ _ _ => Entry.not_less_trans⟩

theorem makeEntries_makes (history : List (Operation I O)) :
    MakesEntries history (makeEntries history) where
  perm := List.perm_insertionSort _ _
  sorted := List.pairwise_insertionSort _ _

/-- No two entries have the same operation and the same kind. -/
def Entry.key (e : Entry I O) : Nat × Bool :=
  (e.id, e.isReturn)

theorem appendEntries_keys_nodup (history : List (Operation I O)) :
    ((appendEntries history).map Entry.key).Nodup := by
  rw [appendEntries, List.map_flatMap, List.nodup_flatMap]
  constructor
  · rintro ⟨op, id⟩ _
    simp [Entry.key]
  · have hids : (history.zipIdx.map Prod.snd).Nodup := by
      rw [List.zipIdx_map_snd]
      exact List.nodup_range'
    refine (List.pairwise_map.mp hids).imp fun {x y} hne => ?_
    simp only [Function.onFun, List.disjoint_left, List.map_cons, List.map_nil, List.mem_cons,
      List.not_mem_nil, or_false]
    rintro key (rfl | rfl) (heq | heq) <;> exact hne (congrArg Prod.fst heq)

namespace MakesEntries

variable (h : MakesEntries history entries)
include h

theorem mem_iff {e : Entry I O} :
    e ∈ entries ↔ ∃ op id, history[id]? = some op ∧
      (e = callEntry op id ∨ e = returnEntry op id) := by
  rw [h.perm.mem_iff, mem_appendEntries]

theorem keys_nodup : (entries.map Entry.key).Nodup :=
  (h.perm.map Entry.key).nodup_iff.mpr (appendEntries_keys_nodup history)

theorem length_eq : entries.length = 2 * history.length := by
  rw [h.perm.length_eq, appendEntries]
  simp [List.length_flatMap, Nat.mul_comm]

/-- The return of an operation stands behind its call. -/
theorem return_behind (htimed : ∀ op ∈ history, ¬ op.ret < op.call) {op : Operation I O} {id : Nat}
    (hop : history[id]? = some op) {front back : List (Entry I O)}
    (hsplit : entries = front ++ callEntry op id :: back) : returnEntry op id ∈ back := by
  have hmem : returnEntry op id ∈ entries := h.mem_iff.mpr ⟨op, id, hop, .inr rfl⟩
  rw [hsplit] at hmem
  rcases List.mem_append.mp hmem with hfront | hback
  · have hsorted := h.sorted
    rw [hsplit] at hsorted
    have hless := (List.pairwise_append.mp hsorted).2.2 _ hfront _ List.mem_cons_self
    rw [callEntry_less (htimed op (List.mem_of_getElem? hop))] at hless
    cases hless
  · rcases List.mem_cons.mp hback with heq | hback
    · have hkind := congrArg Entry.isReturn heq
      cases hkind
    · exact hback

end MakesEntries

/-! ## Linking the nodes -/

/-- Nothing stands before the first node. -/
theorem insertBefore_first {links : Links Nat} {mark : Nat} (hprev : links.prev mark = none)
    (n : Nat) : insertBefore links n (some mark) =
      ⟨Function.update links.next n (some mark), Function.update links.prev mark (some n)⟩ := by
  simp only [insertBefore, hprev]

theorem insertBefore_chain {links : Links Nat} {nodes : List Nat} (h : links.Chain nodes)
    (hfirst : ∀ first ∈ nodes.head?, links.prev first = none) {n : Nat} (hnew : n ∉ nodes)
    (hlast : links.next n = none) : (insertBefore links n nodes.head?).Chain (n :: nodes) := by
  cases nodes with
  | nil =>
      refine ⟨List.isChain_singleton n, fun last hmem => ?_, List.nodup_singleton n⟩
      obtain rfl := Option.some.inj hmem
      exact hlast
  | cons first rest =>
      have hprev := hfirst first rfl
      rw [List.head?_cons, insertBefore_first hprev]
      refine ⟨List.isChain_cons_cons.mpr
          ⟨⟨Function.update_self _ _ _, Function.update_self _ _ _⟩, ?_⟩,
        fun last hmem => ?_, List.nodup_cons.mpr ⟨hnew, h.nodup⟩⟩
      · refine h.joined.imp_of_mem_imp fun u v hu _ huv => ?_
        have hun : u ≠ n := fun heq => hnew (heq ▸ hu)
        have hvfirst : v ≠ first := by
          rintro rfl
          cases hprev.symm.trans huv.2
        exact ⟨(Function.update_of_ne hun _ _).trans huv.1,
          (Function.update_of_ne hvfirst _ _).trans huv.2⟩
      · rw [List.getLast?_cons_cons] at hmem
        have hne : last ≠ n := fun heq => hnew (heq ▸ List.mem_of_getLast? hmem)
        exact (Function.update_of_ne hne _ _).trans (h.final last hmem)

namespace Linked

/-- The nodes of some entries, with their addresses. -/
def build (slots : List (Entry I O × Nat)) : Linked I O :=
  slots.foldr (fun (elem, i) made => made.insert elem i) {}

theorem insert_heap (made : Linked I O) (e : Entry I O) (i : Nat) :
    (made.insert e i).heap = made.heap.insert i
      ⟨some e.value, if e.isReturn then none else made.returnOf e.id, e.id⟩ made.root := by
  unfold Linked.insert
  split <;> rfl

theorem insert_root (made : Linked I O) (e : Entry I O) (i : Nat) :
    (made.insert e i).root = some i := by
  unfold Linked.insert
  split <;> rfl

theorem insert_returnOf (made : Linked I O) (e : Entry I O) (i : Nat) :
    (made.insert e i).returnOf =
      if e.isReturn then Function.update made.returnOf e.id (some i) else made.returnOf := by
  unfold Linked.insert
  split <;> rfl

theorem build_root (slots : List (Entry I O × Nat)) :
    (build slots).root = (slots.map Prod.snd).head? := by
  cases slots with
  | nil => rfl
  | cons slot rest => exact insert_root _ _ _

/-- The map holds the first return of each operation. -/
theorem build_returnOf (slots : List (Entry I O × Nat)) (id : Nat) :
    (build slots).returnOf id =
      (slots.find? fun x => x.1.isReturn && x.1.id = id).map Prod.snd := by
  induction slots with
  | nil => rfl
  | cons slot rest ih =>
      change ((build rest).insert slot.1 slot.2).returnOf id = _
      rw [insert_returnOf, List.find?_cons]
      cases hkind : slot.1.isReturn with
      | false => simpa using ih
      | true =>
          by_cases hid : slot.1.id = id
          · simp [hid]
          · simp [hid, Function.update_of_ne (Ne.symm hid), ih]

/-- What is linked. -/
structure Ordered (links : Links Nat) (nodes : List Nat) : Prop where
  chain : links.Chain nodes
  first : ∀ first ∈ nodes.head?, links.prev first = none
  free : ∀ n, n ∉ nodes → links.next n = none ∧ links.prev n = none

theorem Ordered.insertBefore {links : Links Nat} {nodes : List Nat} (h : Ordered links nodes)
    {n : Nat} (hnew : n ∉ nodes) : Ordered (insertBefore links n nodes.head?) (n :: nodes) where
  chain := insertBefore_chain h.chain h.first hnew (h.free n hnew).1
  first := by
    intro first hfirst
    obtain rfl := Option.some.inj hfirst
    cases nodes with
    | nil => exact (h.free _ hnew).2
    | cons mark rest =>
        rw [List.head?_cons, insertBefore_first (h.first mark rfl)]
        have hne : n ≠ mark := fun heq => hnew (heq ▸ List.mem_cons_self)
        exact (Function.update_of_ne hne _ _).trans (h.free _ hnew).2
  free := by
    intro m hm
    rw [List.mem_cons, not_or] at hm
    obtain ⟨hmn, hold⟩ := hm
    obtain ⟨hnext, hprev⟩ := h.free m hold
    cases nodes with
    | nil => exact ⟨hnext, hprev⟩
    | cons mark rest =>
        rw [List.head?_cons, insertBefore_first (h.first mark rfl)]
        have hne : m ≠ mark := fun heq => hold (heq ▸ List.mem_cons_self)
        exact ⟨(Function.update_of_ne hmn _ _).trans hnext,
          (Function.update_of_ne hne _ _).trans hprev⟩

theorem build_ordered {slots : List (Entry I O × Nat)} (hnodup : (slots.map Prod.snd).Nodup) :
    Ordered (build slots).heap.links (slots.map Prod.snd) := by
  induction slots with
  | nil =>
      exact ⟨⟨List.isChain_nil, fun _ hmem => (by cases hmem), List.nodup_nil⟩,
        fun _ hmem => (by cases hmem), fun _ _ => ⟨rfl, rfl⟩⟩
  | cons slot rest ih =>
      obtain ⟨hnew, hrest⟩ := List.nodup_cons.mp hnodup
      change Ordered ((build rest).insert slot.1 slot.2).heap.links _
      rw [insert_heap, build_root]
      exact (ih hrest).insertBefore hnew

/-- The node of an entry: a call points to the first return of its operation behind it. -/
theorem build_node {front back : List (Entry I O × Nat)} {e : Entry I O} {i : Nat}
    (hfront : ∀ slot ∈ front, slot.2 ≠ i) :
    (build (front ++ (e, i) :: back)).heap.nodes i =
      ⟨some e.value, if e.isReturn then none else (build back).returnOf e.id, e.id⟩ := by
  induction front with
  | nil =>
      change ((build back).insert e i).heap.nodes i = _
      rw [insert_heap]
      exact Function.update_self _ _ _
  | cons slot rest ih =>
      change ((build (rest ++ (e, i) :: back)).insert slot.1 slot.2).heap.nodes i = _
      rw [insert_heap]
      refine (Function.update_of_ne ?_ _ _).trans
        (ih fun other hmem => hfront other (List.mem_cons_of_mem _ hmem))
      exact (hfront slot List.mem_cons_self).symm

end Linked

theorem length_eq {links : Links Nat} {nodes : List Nat} (h : links.Chain nodes) (fuel : Nat) :
    length links fuel nodes.head? =
      if nodes.length ≤ fuel then .ok nodes.length else .blocked := by
  induction nodes generalizing fuel with
  | nil => cases fuel <;> rfl
  | cons first rest ih =>
      cases fuel with
      | zero => rfl
      | succ fuel =>
          have hnext : links.next first = rest.head? :=
            Links.Chain.next_eq_head (show links.Chain ([] ++ first :: rest) from h)
          have hrest : links.Chain rest := by
            refine ⟨h.joined.tail, fun last hmem => h.final last ?_, (List.nodup_cons.mp h.nodup).2⟩
            cases rest with
            | nil => cases hmem
            | cons second more => rwa [List.getLast?_cons_cons]
          simp only [List.head?_cons, length, hnext, ih hrest, List.length_cons,
            Nat.add_le_add_iff_right]
          split <;> rfl

/-! ## Lifting an operation -/

/-- Both nodes of an operation are taken out of the list and can be put back. -/
theorem Heap.lift_eq {heap : Heap I O} {front middle back : List Nat} {entry matching : Nat}
    (h : heap.links.Chain (front ++ entry :: (middle ++ matching :: back))) (hfront : front ≠ [])
    (hmatching : (heap.nodes entry).matching = some matching) :
    ∃ links', heap.lift entry = some { heap with links := links' } ∧
      links'.Chain (front ++ (middle ++ back)) ∧
      Heap.unlift { heap with links := links' } entry = some heap := by
  have hnext : ∃ node, heap.links.next entry = some node := by
    rw [h.next_eq_head]
    cases middle with
    | nil => exact ⟨_, rfl⟩
    | cons node rest => exact ⟨node, rfl⟩
  obtain ⟨node, hnode⟩ := hnext
  obtain ⟨links₁, hunlink₁, hchain₁, hrelink₁, hsame₁⟩ := h.unlink_of_front hfront
  rw [← List.append_assoc] at hchain₁
  obtain ⟨links₂, hunlink₂, hchain₂, hrelink₂, _⟩ :=
    hchain₁.unlink_of_front (by simp [hfront])
  rw [List.append_assoc] at hchain₂
  refine ⟨links₂, ?_, hchain₂, ?_⟩
  · simp [Heap.lift, hnode, hunlink₁, hmatching, hunlink₂]
  · simp [Heap.unlift, hmatching, hrelink₂, hsame₁, hnode, hrelink₁]

end DistributedLabs.Porcupine
