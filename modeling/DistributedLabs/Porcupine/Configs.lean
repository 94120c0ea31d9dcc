import DistributedLabs.Library.Placement
import DistributedLabs.Library.Search
import DistributedLabs.Porcupine.Linked
import Mathlib.Data.List.TakeWhile

/-!
# The configurations of the search

A configuration is what the checker has placed and the state behind it.  Its moves are the
calls before the first return that is left: those are the operations that may be placed next.
So the paths through the configurations are the ways in which the history can begin, and a
complete configuration can be reached if and only if the history is linearizable.
-/

namespace DistributedLabs.Porcupine

open DistributedLabs.Library

variable {S I O : Type} {n : Nat}

/-- Operations that have been placed, and the state behind them. -/
structure Config (n : Nat) (S : Type) where
  placed : List Nat
  state : S
  nodup : placed.Nodup
  bounded : ∀ id ∈ placed, id < n

namespace Config

theorem ext_iff' {c d : Config n S} : c = d ↔ c.placed = d.placed ∧ c.state = d.state := by
  cases c
  cases d
  simp

def start (n : Nat) (state : S) : Config n S :=
  ⟨[], state, List.nodup_nil, fun _ hmem => by cases hmem⟩

theorem nodup_place (c : Config n S) {id : Nat} (hnew : id ∉ c.placed) :
    (c.placed ++ [id]).Nodup :=
  List.nodup_append.mpr ⟨c.nodup, List.nodup_singleton id,
    fun _ ha _ hb heq => hnew (List.mem_singleton.mp hb ▸ heq ▸ ha)⟩

theorem bounded_place (c : Config n S) {id : Nat} (hid : id < n) :
    ∀ other ∈ c.placed ++ [id], other < n := by
  intro other hmem
  rcases List.mem_append.mp hmem with hold | hnew
  · exact c.bounded other hold
  · exact List.mem_singleton.mp hnew ▸ hid

/-- Place one more operation, if it has not been placed. -/
def place (c : Config n S) (id : Nat) (state : S) : Option (Config n S) :=
  if h : id < n ∧ id ∉ c.placed then
    some ⟨c.placed ++ [id], state, c.nodup_place h.2, c.bounded_place h.1⟩
  else none

theorem place_eq_some {c d : Config n S} {id : Nat} {state : S} :
    c.place id state = some d ↔
      (id < n ∧ id ∉ c.placed) ∧ d.placed = c.placed ++ [id] ∧ d.state = state := by
  unfold place
  by_cases h : id < n ∧ id ∉ c.placed
  · rw [dif_pos h, Option.some.injEq, ext_iff']
    exact ⟨fun heq => ⟨h, heq.1.symm, heq.2.symm⟩, fun heq => ⟨heq.2.1.symm, heq.2.2.symm⟩⟩
  · rw [dif_neg h]
    exact ⟨fun heq => (by cases heq), fun heq => absurd heq.1 h⟩

end Config

/-- The object that takes the steps of the model. -/
def Filled.object (model : Filled S I O) : SeqObject S I O where
  init := model.init
  step state input output :=
    if (model.step state input output).1 then some (model.step state input output).2 else none

/-- The operations without their clients. -/
def operations (history : List (Operation I O)) : List (Library.Operation Int I O) :=
  history.map Operation.toOperation

/-- The entries of the operations that have not been placed, with their addresses. -/
def remaining (entries : List (Entry I O)) (placed : List Nat) : List (Entry I O × Nat) :=
  entries.zipIdx.filter fun slot => slot.1.id ∉ placed

def isCall (slot : Entry I O × Nat) : Bool :=
  !slot.1.isReturn

/-- Try the operation as the next one. -/
def move (model : Filled S I O) (history : List (Operation I O)) (c : Config history.length S)
    (id : Nat) : Nat × Option (Config history.length S) :=
  (id, (history[id]?).bind fun op =>
    (model.object.step c.state op.input op.output).bind (c.place id))

def space (model : Filled S I O) (history : List (Operation I O)) (entries : List (Entry I O)) :
    Space (Config history.length S) Nat where
  moves c := ((remaining entries c.placed).takeWhile isCall).map fun slot =>
    move model history c slot.1.id
  complete c := (remaining entries c.placed).isEmpty
  same c d := c.placed.isPerm d.placed && model.equal c.state d.state
  trail c := c.placed

/-! ## Moves -/

section Moves

variable {model : Filled S I O} {history : List (Operation I O)} {entries : List (Entry I O)}
  {placed : List Nat} {c d : Config history.length S} {id : Nat}

theorem operations_getElem? (history : List (Operation I O)) (id : Nat) :
    (operations history)[id]? = (history[id]?).map Operation.toOperation := by
  rw [operations, List.getElem?_map]

theorem mem_remaining {slot : Entry I O × Nat} :
    slot ∈ remaining entries placed ↔ entries[slot.2]? = some slot.1 ∧ slot.1.id ∉ placed := by
  rw [remaining, List.mem_filter, List.mem_zipIdx_iff_getElem?, decide_eq_true_eq]

theorem mem_takeWhile_iff {α : Type} {p : α → Bool} {l : List α} {x : α} :
    x ∈ l.takeWhile p ↔
      ∃ front back, l = front ++ x :: back ∧ (∀ y ∈ front, p y = true) ∧ p x = true := by
  constructor
  · intro hmem
    obtain ⟨front, back, hsplit⟩ := List.append_of_mem hmem
    have hall : ∀ y ∈ front ++ x :: back, p y = true := fun y hy =>
      List.mem_takeWhile_imp (hsplit ▸ hy)
    refine ⟨front, back ++ l.dropWhile p, ?_, fun y hy => hall y (List.mem_append_left _ hy),
      hall x (by simp)⟩
    rw [← List.cons_append, ← List.append_assoc, ← hsplit, List.takeWhile_append_dropWhile]
  · rintro ⟨front, back, rfl, hfront, hx⟩
    rw [List.takeWhile_append_of_pos hfront, List.takeWhile_cons_of_pos hx]
    simp

theorem MakesEntries.remaining_sorted (h : MakesEntries history entries) (placed : List Nat) :
    (remaining entries placed).Pairwise fun before after => after.1.less before.1 = false := by
  have hsorted := h.sorted
  rw [← List.zipIdx_map_fst 0 entries, List.pairwise_map] at hsorted
  exact hsorted.filter _

/-- Both entries of an operation that has not been placed are left. -/
theorem MakesEntries.mem_remaining (h : MakesEntries history entries) {op : Operation I O}
    (hop : history[id]? = some op) (hnew : id ∉ placed) :
    (∃ i, (callEntry op id, i) ∈ remaining entries placed) ∧
      ∃ i, (returnEntry op id, i) ∈ remaining entries placed := by
  constructor
  · obtain ⟨i, hi⟩ := List.mem_iff_getElem?.mp (h.mem_iff.mpr ⟨op, id, hop, .inl rfl⟩)
    exact ⟨i, Porcupine.mem_remaining.mpr ⟨hi, hnew⟩⟩
  · obtain ⟨i, hi⟩ := List.mem_iff_getElem?.mp (h.mem_iff.mpr ⟨op, id, hop, .inr rfl⟩)
    exact ⟨i, Porcupine.mem_remaining.mpr ⟨hi, hnew⟩⟩

/-- What is left belongs to an operation that has not been placed. -/
theorem MakesEntries.of_mem_remaining (h : MakesEntries history entries) {slot : Entry I O × Nat}
    (hmem : slot ∈ remaining entries placed) :
    ∃ op, history[slot.1.id]? = some op ∧ slot.1.id ∉ placed ∧
      (slot.1 = callEntry op slot.1.id ∨ slot.1 = returnEntry op slot.1.id) := by
  obtain ⟨hread, hnew⟩ := Porcupine.mem_remaining.mp hmem
  obtain ⟨op, id, hop, hentry⟩ := h.mem_iff.mp (List.mem_of_getElem? hread)
  have hid : slot.1.id = id := by
    rcases hentry with heq | heq <;> rw [heq] <;> rfl
  rw [hid] at hnew ⊢
  exact ⟨op, hop, hnew, hentry⟩

/-- The calls before the first return are those that may be placed next. -/
theorem MakesEntries.mayPlace_iff (h : MakesEntries history entries) :
    MayPlace (operations history) placed id ↔
      ∃ slot ∈ (remaining entries placed).takeWhile isCall, slot.1.id = id := by
  constructor
  · rintro ⟨hnew, op, hop, hfirst⟩
    rw [operations_getElem?] at hop
    obtain ⟨own, hown, rfl⟩ := Option.map_eq_some_iff.mp hop
    obtain ⟨⟨i, hcall⟩, _⟩ := h.mem_remaining hown hnew
    obtain ⟨front, back, hsplit⟩ := List.append_of_mem hcall
    refine ⟨_, mem_takeWhile_iff.mpr ⟨front, back, hsplit, fun slot hslot => ?_, rfl⟩, rfl⟩
    -- a return before the call has not come earlier, and at the same time it stands behind it
    obtain ⟨other, hother, hleft, hentry⟩ := h.of_mem_remaining
      (show slot ∈ remaining entries placed from hsplit ▸ List.mem_append_left _ hslot)
    rcases hentry with heq | heq
    · rw [isCall, heq]
      rfl
    · have hsorted := h.remaining_sorted placed
      rw [hsplit] at hsorted
      have horder := (List.pairwise_append.mp hsorted).2.2 slot hslot _ List.mem_cons_self
      obtain ⟨hle, hkind⟩ := Entry.not_less_iff.mp horder
      rw [heq] at hle hkind
      have hlater := hfirst slot.1.id other.toOperation
        (by rw [operations_getElem?, hother]; rfl) hleft
      have hback : (callEntry own id).isReturn = true :=
        hkind (Int.le_antisymm hle (Int.not_lt.mp hlater)) rfl
      cases hback
  · rintro ⟨slot, hslot, rfl⟩
    obtain ⟨front, back, hsplit, hfront, hcall⟩ := mem_takeWhile_iff.mp hslot
    obtain ⟨op, hop, hnew, hentry⟩ := h.of_mem_remaining
      (show slot ∈ remaining entries placed from hsplit ▸ by simp)
    refine ⟨hnew, op.toOperation, by rw [operations_getElem?, hop]; rfl, ?_⟩
    intro other left hleft hother
    rw [operations_getElem?] at hleft
    obtain ⟨found, hfound, rfl⟩ := Option.map_eq_some_iff.mp hleft
    obtain ⟨_, i, hreturn⟩ := h.mem_remaining hfound hother
    have hbehind : (returnEntry found other, i) ∈ back := by
      rw [hsplit] at hreturn
      rcases List.mem_append.mp hreturn with hin | hin
      · cases hfront _ hin
      · rcases List.mem_cons.mp hin with rfl | hin
        · cases hcall
        · exact hin
    have hsorted := h.remaining_sorted placed
    rw [hsplit] at hsorted
    have horder := (List.pairwise_cons.mp (List.pairwise_append.mp hsorted).2.1).1 _ hbehind
    have hle := (Entry.not_less_iff.mp horder).1
    rcases hentry with heq | heq
    · rw [heq] at hle
      exact Int.not_lt.mpr hle
    · rw [isCall, heq] at hcall
      cases hcall

theorem move_eq_some : (move model history c id).2 = some d ↔
    ∃ op, history[id]? = some op ∧ id ∉ c.placed ∧
      model.object.step c.state op.input op.output = some d.state ∧
      d.placed = c.placed ++ [id] := by
  simp only [move, Option.bind_eq_some_iff, Config.place_eq_some]
  constructor
  · rintro ⟨op, hop, state, hstep, ⟨_, hnew⟩, hplaced, rfl⟩
    exact ⟨op, hop, hnew, hstep, hplaced⟩
  · rintro ⟨op, hop, hnew, hstep, hplaced⟩
    exact ⟨op, hop, d.state, hstep, ⟨(List.getElem?_eq_some_iff.mp hop).1, hnew⟩, hplaced, rfl⟩

theorem MakesEntries.mem_moves (h : MakesEntries history entries) :
    (id, some d) ∈ (space model history entries).moves c ↔
      MayPlace (operations history) c.placed id ∧
      (∃ op, history[id]? = some op ∧
        model.object.step c.state op.input op.output = some d.state) ∧
      d.placed = c.placed ++ [id] := by
  simp only [space, List.mem_map]
  constructor
  · rintro ⟨slot, hslot, hmove⟩
    obtain rfl : slot.1.id = id := congrArg Prod.fst hmove
    obtain ⟨op, hop, _, hstep, hplaced⟩ := move_eq_some.mp (congrArg Prod.snd hmove)
    exact ⟨h.mayPlace_iff.mpr ⟨slot, hslot, rfl⟩, ⟨op, hop, hstep⟩, hplaced⟩
  · rintro ⟨hplace, ⟨op, hop, hstep⟩, hplaced⟩
    obtain ⟨slot, hslot, rfl⟩ := h.mayPlace_iff.mp hplace
    exact ⟨slot, hslot, Prod.ext rfl (move_eq_some.mpr ⟨op, hop, hplace.fresh, hstep, hplaced⟩)⟩

end Moves

/-! ## Paths -/

section Paths

variable {model : Filled S I O} {history : List (Operation I O)} {entries : List (Entry I O)}
  {c d e : Config history.length S} {ids : List Nat}

theorem iosOf_cons {id : Nat} {op : Operation I O} (hop : history[id]? = some op) (ids : List Nat) :
    iosOf (operations history) (id :: ids) =
      (op.input, op.output) :: iosOf (operations history) ids := by
  simp only [iosOf, List.filterMap_cons, operations_getElem?, hop, Option.map_some]
  rfl

/-- The paths are the ways to go on placing operations. -/
theorem MakesEntries.path_iff (h : MakesEntries history entries) :
    (space model history entries).Path c ids d ↔ Places (operations history) c.placed ids ∧
      model.object.run c.state (iosOf (operations history) ids) = some d.state ∧
      d.placed = c.placed ++ ids := by
  constructor
  · intro hpath
    induction hpath with
    | nil c => exact ⟨trivial, rfl, (List.append_nil _).symm⟩
    | @cons c e d id ids hmove _ ih =>
        obtain ⟨hplace, ⟨op, hop, hstep⟩, hplaced⟩ := h.mem_moves.mp hmove
        obtain ⟨hplaces, hrun, hd⟩ := ih
        refine ⟨⟨hplace, hplaced ▸ hplaces⟩, ?_, ?_⟩
        · rw [iosOf_cons hop]
          exact Option.bind_eq_some_iff.mpr ⟨_, hstep, hrun⟩
        · rw [hd, hplaced, List.append_assoc, List.singleton_append]
  · rintro ⟨hplaces, hrun, hd⟩
    induction ids generalizing c with
    | nil =>
        obtain rfl : c = d := Config.ext_iff'.mpr
          ⟨by rw [hd, List.append_nil], Option.some.inj hrun⟩
        exact .nil c
    | cons id rest ih =>
        obtain ⟨hplace, hrest⟩ := hplaces
        obtain ⟨op, hop, _⟩ := hplace.first
        rw [operations_getElem?] at hop
        obtain ⟨own, hown, _⟩ := Option.map_eq_some_iff.mp hop
        rw [iosOf_cons hown] at hrun
        obtain ⟨state, hstep, hrun⟩ := Option.bind_eq_some_iff.mp hrun
        have hid : id < history.length := (List.getElem?_eq_some_iff.mp hown).1
        let next : Config history.length S :=
          ⟨c.placed ++ [id], state, c.nodup_place hplace.fresh, c.bounded_place hid⟩
        have hmove : (id, some next) ∈ (space model history entries).moves c :=
          h.mem_moves.mpr ⟨hplace, ⟨own, hown, hstep⟩, rfl⟩
        refine .cons hmove (ih hrest hrun ?_)
        rw [hd, List.append_assoc, List.singleton_append]

/-- States that the model takes for equal: what can be carried out in the first can be carried
out in the second. -/
def Filled.EqualSound (model : Filled S I O) : Prop :=
  ∀ a b, model.equal a b = true → ∀ ios, model.object.Legal a ios → model.object.Legal b ios

theorem MakesEntries.complete_iff (h : MakesEntries history entries) :
    (space model history entries).complete c = true ↔
      c.placed.Perm (List.range history.length) := by
  rw [List.perm_ext_iff_of_nodup c.nodup List.nodup_range]
  simp only [space, List.isEmpty_iff, List.mem_range]
  constructor
  · intro hempty id
    refine ⟨c.bounded id, fun hid => ?_⟩
    by_contra hnew
    obtain ⟨⟨i, hcall⟩, _⟩ := h.mem_remaining (List.getElem?_eq_getElem hid) hnew
    rw [hempty] at hcall
    cases hcall
  · intro hall
    refine List.eq_nil_iff_forall_not_mem.mpr fun slot hmem => ?_
    obtain ⟨op, hop, hnew, _⟩ := h.of_mem_remaining hmem
    exact hnew ((hall _).mpr (List.getElem?_eq_some_iff.mp hop).1)

theorem MakesEntries.lawful (h : MakesEntries history entries) (hequal : model.EqualSound) :
    (space model history entries).Lawful history.length where
  trail_move hmove := (h.mem_moves.mp hmove).2.2
  bounded {c d l} _ := by
    have hsub : d.placed ⊆ List.range history.length := fun id hmem =>
      List.mem_range.mpr (d.bounded id hmem)
    have hle := (d.nodup.subperm hsub).length_le
    rw [List.length_range] at hle
    exact hle
  same_trail hsame := List.isPerm_iff.mp ((Bool.and_eq_true _ _).mp hsame).1
  same_path {c d labels e} hsame hpath := by
    obtain ⟨hperm, hstates⟩ := (Bool.and_eq_true _ _).mp hsame
    have hplaced : c.placed.Perm d.placed := List.isPerm_iff.mp hperm
    obtain ⟨hplaces, hrun, he⟩ := h.path_iff.mp hpath
    obtain ⟨final, hfinal⟩ := hequal _ _ hstates _ ⟨_, hrun⟩
    have hperm' : e.placed.Perm (d.placed ++ labels) := he ▸ hplaced.append_right labels
    let e' : Config history.length S := ⟨d.placed ++ labels, final,
      hperm'.nodup_iff.mp e.nodup, fun id hmem => e.bounded id (hperm'.mem_iff.mpr hmem)⟩
    refine ⟨e', h.path_iff.mpr ⟨hplaces.perm hplaced, hfinal, rfl⟩, fun hcomplete => ?_⟩
    exact h.complete_iff.mpr (hperm'.symm.trans (h.complete_iff.mp hcomplete))

/-- The paths from the start are the ways in which the history can begin. -/
theorem MakesEntries.start_iff (h : MakesEntries history entries) :
    (∃ d, (space model history entries).Path (Config.start history.length model.init) ids d) ↔
      LinearizableStart model.object (operations history) ids := by
  constructor
  · rintro ⟨d, hpath⟩
    obtain ⟨hplaces, hrun, _⟩ := h.path_iff.mp hpath
    exact ⟨hplaces, _, hrun⟩
  · rintro ⟨hplaces, final, hrun⟩
    have hbounded : ∀ id ∈ ids, id < history.length := by
      intro id hmem
      have hlt := hplaces.lt_length hmem
      rwa [operations, List.length_map] at hlt
    exact ⟨⟨ids, final, hplaces.nodup List.nodup_nil, hbounded⟩,
      h.path_iff.mpr ⟨hplaces, hrun, rfl⟩⟩

end Paths

end DistributedLabs.Porcupine
