import DistributedLabs.Porcupine.Configs
import DistributedLabs.Porcupine.Longest

/-!
# The checker searches the configurations

Turn by turn, the loop of `checkSingle` does what the search through the configurations does.
The linked list holds what has not been placed, the bitset holds what has, and the stack of
calls says how to get back: unlifting its last call restores the list of the configuration
before.
-/

namespace DistributedLabs.Porcupine

open DistributedLabs.Library

variable {S I O : Type} {model : Filled S I O} {history : List (Operation I O)}
  {entries : List (Entry I O)}

/-! ## Nodes -/

/-- The nodes of the entries. -/
structure Built (history : List (Operation I O)) (entries : List (Entry I O))
    (nodes : Nat → Node I O) : Prop where
  call : ∀ {op id i}, history[id]? = some op → entries[i]? = some (callEntry op id) →
    ∃ j, entries[j]? = some (returnEntry op id) ∧
      nodes i = ⟨some (.callEntry op.input), some j, id⟩
  ret : ∀ {op id j}, entries[j]? = some (returnEntry op id) →
    nodes j = ⟨some (.returnEntry op.output), none, id⟩

theorem zipIdx_addresses_nodup (entries : List (Entry I O)) :
    (entries.zipIdx.map Prod.snd).Nodup := by
  rw [List.zipIdx_map_snd]
  exact List.nodup_range'

/-- The node of an entry, with what stands behind the entry. -/
theorem makeLinkedEntries_node {i : Nat} {e : Entry I O} (hread : entries[i]? = some e) :
    ∃ front back, entries.zipIdx = front ++ (e, i) :: back ∧
      (makeLinkedEntries entries).heap.nodes i =
        ⟨some e.value, if e.isReturn then none else (Linked.build back).returnOf e.id, e.id⟩ := by
  obtain ⟨front, back, hsplit⟩ :=
    List.append_of_mem (List.mk_mem_zipIdx_iff_getElem?.mpr hread)
  refine ⟨front, back, hsplit, ?_⟩
  have hnodup := zipIdx_addresses_nodup entries
  rw [hsplit, List.map_append] at hnodup
  change (Linked.build entries.zipIdx).heap.nodes i = _
  rw [hsplit]
  exact Linked.build_node fun slot hmem heq =>
    (List.nodup_append.mp hnodup).2.2 slot.2 (List.mem_map_of_mem hmem) i (by simp) heq

theorem MakesEntries.built (h : MakesEntries history entries)
    (htimed : ∀ op ∈ history, ¬ op.ret < op.call) (node : Node I O) :
    Built history entries
      (Function.update (makeLinkedEntries entries).heap.nodes entries.length node) where
  call {op id i} hop hread := by
    have hne : i ≠ entries.length := Nat.ne_of_lt (List.getElem?_eq_some_iff.mp hread).1
    obtain ⟨front, back, hsplit, hnode⟩ := makeLinkedEntries_node hread
    have hentries : entries = front.map Prod.fst ++ callEntry op id :: back.map Prod.fst := by
      conv_lhs => rw [← List.zipIdx_map_fst 0 entries, hsplit]
      simp
    obtain ⟨slot, hslot, hreturn⟩ := List.mem_map.mp (h.return_behind htimed hop hentries)
    -- the first return of the operation behind the call is its return
    obtain ⟨found, hfound⟩ : ∃ found, back.find? (fun x => x.1.isReturn && x.1.id = id) =
        some found := by
      refine Option.isSome_iff_exists.mp (List.find?_isSome.mpr ⟨slot, hslot, ?_⟩)
      rw [hreturn]
      simp
    obtain ⟨hkind, hid⟩ : found.1.isReturn = true ∧ found.1.id = id := by
      simpa using List.find?_some hfound
    have hmem : found ∈ entries.zipIdx := by
      rw [hsplit]
      exact List.mem_append_right _ (List.mem_cons_of_mem _ (List.mem_of_find?_eq_some hfound))
    have hfoundRead := List.mem_zipIdx_iff_getElem?.mp hmem
    have hentry : found.1 = returnEntry op id := by
      obtain ⟨other, k, hother, heq | heq⟩ := h.mem_iff.mp (List.mem_of_getElem? hfoundRead)
      · rw [heq] at hkind
        cases hkind
      · rw [heq, returnEntry_id] at hid
        subst hid
        obtain rfl := Option.some.inj (hother.symm.trans hop)
        exact heq
    refine ⟨found.2, hentry ▸ hfoundRead, ?_⟩
    rw [Function.update_of_ne hne, hnode, Linked.build_returnOf, callEntry_id, hfound]
    rfl
  ret {op id j} hread := by
    have hne : j ≠ entries.length := Nat.ne_of_lt (List.getElem?_eq_some_iff.mp hread).1
    obtain ⟨front, back, hsplit, hnode⟩ := makeLinkedEntries_node hread
    rw [Function.update_of_ne hne, hnode]
    rfl

/-! ## What is left -/

section Remaining

variable {placed : List Nat} {id : Nat}

theorem remaining_concat (entries : List (Entry I O)) (placed : List Nat) (id : Nat) :
    remaining entries (placed ++ [id]) =
      (remaining entries placed).filter fun slot => slot.1.id ≠ id := by
  rw [remaining, remaining, List.filter_filter]
  refine List.filter_congr fun slot _ => ?_
  by_cases hid : slot.1.id = id <;> by_cases hmem : slot.1.id ∈ placed <;> simp [hid, hmem]

/-- Only two entries belong to an operation. -/
theorem MakesEntries.eq_of_id (h : MakesEntries history entries) {op : Operation I O}
    {slot : Entry I O × Nat} {i j : Nat} (hslot : slot ∈ remaining entries placed)
    (hid : slot.1.id = id)
    (hcall : (callEntry op id, i) ∈ remaining entries placed)
    (hreturn : (returnEntry op id, j) ∈ remaining entries placed) :
    slot = (callEntry op id, i) ∨ slot = (returnEntry op id, j) := by
  have hkeys : (entries.zipIdx.map fun slot => slot.1.key).Nodup := by
    have hnodup := h.keys_nodup
    rw [← List.zipIdx_map_fst 0 entries, List.map_map] at hnodup
    exact hnodup
  have hin {slot : Entry I O × Nat} (hmem : slot ∈ remaining entries placed) :
      slot ∈ entries.zipIdx := (List.mem_filter.mp hmem).1
  obtain ⟨other, hother, _, hentry⟩ := h.of_mem_remaining hslot
  rcases hentry with heq | heq
  · exact .inl (List.inj_on_of_nodup_map hkeys (hin hslot) (hin hcall) (by
      rw [heq, hid]; rfl))
  · exact .inr (List.inj_on_of_nodup_map hkeys (hin hslot) (hin hreturn) (by
      rw [heq, hid]; rfl))

theorem remaining_nodup (entries : List (Entry I O)) (placed : List Nat) :
    ((remaining entries placed).map Prod.snd).Nodup :=
  (zipIdx_addresses_nodup entries).sublist (List.filter_sublist.map Prod.snd)

/-- Placing an operation takes its two entries out. -/
theorem MakesEntries.remaining_place (h : MakesEntries history entries) {op : Operation I O}
    {i j : Nat} {tried middle back : List (Entry I O × Nat)}
    (hsplit : remaining entries placed =
      tried ++ (callEntry op id, i) :: (middle ++ (returnEntry op id, j) :: back)) :
    remaining entries (placed ++ [id]) = tried ++ (middle ++ back) := by
  have hnodup : (tried ++ (callEntry op id, i) ::
      (middle ++ (returnEntry op id, j) :: back)).Nodup :=
    hsplit ▸ (remaining_nodup entries placed).of_map
  have hperm : (tried ++ (callEntry op id, i) :: (middle ++ (returnEntry op id, j) :: back)).Perm
      ((callEntry op id, i) :: (returnEntry op id, j) :: (tried ++ (middle ++ back))) := by
    refine List.perm_middle.trans (.cons _ ?_)
    rw [← List.append_assoc, ← List.append_assoc]
    exact List.perm_middle
  have hothers := hperm.nodup_iff.mp hnodup
  have hkeep : ∀ slot ∈ tried ++ (middle ++ back), slot.1.id ≠ id := by
    intro slot hmem hid
    have hall {slot : Entry I O × Nat} (hmem : slot ∈ (callEntry op id, i) ::
        (returnEntry op id, j) :: (tried ++ (middle ++ back))) :
        slot ∈ remaining entries placed := hsplit ▸ hperm.mem_iff.mpr hmem
    rw [List.nodup_cons, List.nodup_cons, List.mem_cons, not_or] at hothers
    rcases h.eq_of_id (hall (List.mem_cons_of_mem _ (List.mem_cons_of_mem _ hmem))) hid
      (hall List.mem_cons_self) (hall (List.mem_cons_of_mem _ List.mem_cons_self)) with rfl | rfl
    · exact hothers.1.2 hmem
    · exact hothers.2.1 hmem
  have hfilter {slots : List (Entry I O × Nat)} (hsub : slots ⊆ tried ++ (middle ++ back)) :
      slots.filter (fun slot => decide (slot.1.id ≠ id)) = slots :=
    List.filter_eq_self.mpr fun slot hmem => decide_eq_true (hkeep slot (hsub hmem))
  rw [remaining_concat, hsplit, List.filter_append, List.filter_cons_of_neg (by simp),
    List.filter_append, List.filter_cons_of_neg (by simp), hfilter (by simp),
    hfilter (by simp), hfilter (by simp)]

/-- As long as something is left, a return is left. -/
theorem MakesEntries.exists_return (h : MakesEntries history entries)
    (hne : remaining entries placed ≠ []) :
    ∃ slot ∈ remaining entries placed, slot.1.isReturn = true := by
  obtain ⟨slot, hslot⟩ := List.exists_mem_of_ne_nil _ hne
  obtain ⟨op, hop, hnew, _⟩ := h.of_mem_remaining hslot
  obtain ⟨_, i, hreturn⟩ := h.mem_remaining hop hnew
  exact ⟨_, hreturn, rfl⟩

end Remaining

/-! ## The relation -/

/-- The moves of the calls before the next return. -/
def ahead (model : Filled S I O) (history : List (Operation I O)) (c : Config history.length S)
    (cursor : List (Entry I O × Nat)) : List (Nat × Option (Config history.length S)) :=
  (cursor.takeWhile isCall).map fun slot => move model history c slot.1.id

/-- The list of what is left behind the head. -/
def Listed (entries : List (Entry I O)) (links : Links Nat) (placed : List Nat) : Prop :=
  links.Chain (entries.length :: (remaining entries placed).map Prod.snd)

/-- The cursor stands in the list, behind calls that have been tried. -/
structure AtCursor (entries : List (Entry I O)) (placed : List Nat)
    (tried cursor : List (Entry I O × Nat)) : Prop where
  split : remaining entries placed = tried ++ cursor
  tried : ∀ slot ∈ tried, isCall slot = true

/-- The stack of calls leads back through the configurations. -/
inductive Unwinds (model : Filled S I O) (history : List (Operation I O))
    (entries : List (Entry I O)) (nodes : Nat → Node I O) :
    Links Nat → List (CallsEntry S) → Config history.length S →
      List (Space.Frame (Config history.length S) Nat) → Prop where
  | root {links : Links Nat} {c : Config history.length S} (start : c.placed = []) :
      Unwinds model history entries nodes links [] c []
  | push {links links' : Links Nat} {calls : List (CallsEntry S)} {c d : Config history.length S}
      {below : List (Space.Frame (Config history.length S) Nat)} {op : Operation I O} {id i : Nat}
      {tried cursor : List (Entry I O × Nat)}
      (unlift : Heap.unlift ⟨nodes, links'⟩ i = some ⟨nodes, links⟩)
      (listed : Listed entries links c.placed) (read : history[id]? = some op)
      (view : AtCursor entries c.placed tried ((callEntry op id, i) :: cursor))
      (placed : d.placed = c.placed ++ [id])
      (rest : Unwinds model history entries nodes links calls c below) :
      Unwinds model history entries nodes links' (calls ++ [⟨i, c.state⟩]) d
        (⟨c, ahead model history c cursor⟩ :: below)

/-- The loop is in the state of the search. -/
structure Simulates (model : Filled S I O) (history : List (Operation I O))
    (entries : List (Entry I O)) (computePartial : Bool) (t : Search S I O)
    (s : Space.Search (Config history.length S) Nat) : Prop where
  built : Built history entries t.heap.nodes
  head : t.headEntry = entries.length
  listed : Listed entries t.heap.links s.top.config.placed
  view : ∃ tried cursor, AtCursor entries s.top.config.placed tried cursor ∧
    t.entry = (cursor.map Prod.snd).head? ∧
    s.top.ahead = ahead model history s.top.config cursor
  linearized : t.linearized.Holds history.length s.top.config.placed
  state : t.state = s.top.config.state
  cache : ∀ b state, ⟨b, state⟩ ∈ t.cache b.hash ↔
    ∃ c ∈ s.cache, c.state = state ∧ b.Holds history.length c.placed
  unwinds : Unwinds model history entries t.heap.nodes t.heap.links t.calls s.top.config s.below
  valid : t.longest.Valid history.length
  longest : computePartial = true →
    Longest.noteAll { refs := List.replicate history.length none } s.given = some t.longest

section Relation

variable {nodes : Nat → Node I O} {links : Links Nat} {calls : List (CallsEntry S)}
  {c d : Config history.length S} {below : List (Space.Frame (Config history.length S) Nat)}

/-- The stack holds the operations that have been placed. -/
theorem Unwinds.ids_eq (h : Unwinds model history entries nodes links calls c below)
    (hbuilt : Built history entries nodes) :
    calls.map (fun v => (nodes v.entry).id) = c.placed.map Int.ofNat := by
  induction h with
  | root start => rw [start]; rfl
  | push _ _ read view placed _ ih =>
      have hentry : (_, _) ∈ remaining entries _ :=
        view.split ▸ List.mem_append_right _ List.mem_cons_self
      obtain ⟨j, _, hnode⟩ := hbuilt.call read (mem_remaining.mp hentry).1
      rw [List.map_append, List.map_singleton, ih, placed, List.map_append, hnode]
      rfl

/-- The list is empty behind the head if nothing is left. -/
theorem Listed.next_head {placed : List Nat} (h : Listed entries links placed) :
    links.next entries.length = ((remaining entries placed).map Prod.snd).head? :=
  Links.Chain.next_eq_head
    (show links.Chain ([] ++ entries.length :: (remaining entries placed).map Prod.snd) from h)

theorem Listed.next_slot {placed : List Nat} (h : Listed entries links placed)
    {tried cursor : List (Entry I O × Nat)} {slot : Entry I O × Nat}
    (hsplit : remaining entries placed = tried ++ slot :: cursor) :
    links.next slot.2 = (cursor.map Prod.snd).head? := by
  rw [Listed, hsplit, List.map_append, List.map_cons, ← List.cons_append] at h
  exact h.next_eq_head

/-- An operation at the cursor is lifted. -/
theorem Listed.lift (h : MakesEntries history entries) {heap : Heap I O} {placed : List Nat}
    (hlisted : Listed entries heap.links placed) (hbuilt : Built history entries heap.nodes)
    {op : Operation I O} {id i : Nat} {tried cursor : List (Entry I O × Nat)}
    (hop : history[id]? = some op)
    (hview : AtCursor entries placed tried ((callEntry op id, i) :: cursor)) :
    ∃ links', heap.lift i = some { heap with links := links' } ∧
      Listed entries links' (placed ++ [id]) ∧
      Heap.unlift { heap with links := links' } i = some heap := by
  have hcall : (callEntry op id, i) ∈ remaining entries placed :=
    hview.split ▸ List.mem_append_right _ List.mem_cons_self
  obtain ⟨hread, hnew⟩ := mem_remaining.mp hcall
  obtain ⟨j, hreturn, hnode⟩ := hbuilt.call hop hread
  have hleft : (returnEntry op id, j) ∈ remaining entries placed :=
    mem_remaining.mpr ⟨hreturn, hnew⟩
  have hbehind : (returnEntry op id, j) ∈ cursor := by
    rw [hview.split] at hleft
    rcases List.mem_append.mp hleft with hin | hin
    · cases hview.tried _ hin
    · rcases List.mem_cons.mp hin with heq | hin
      · cases congrArg (fun slot => slot.1.isReturn) heq
      · exact hin
  obtain ⟨middle, back, rfl⟩ := List.append_of_mem hbehind
  have hchain : heap.links.Chain ((entries.length :: tried.map Prod.snd) ++
      i :: (middle.map Prod.snd ++ j :: back.map Prod.snd)) := by
    have hlist := hlisted
    rw [Listed, hview.split] at hlist
    simpa using hlist
  obtain ⟨links', hlift, hchain', hunlift⟩ :=
    Heap.lift_eq hchain (List.cons_ne_nil _ _) (by rw [hnode])
  refine ⟨links', hlift, ?_, hunlift⟩
  rw [Listed, h.remaining_place hview.split]
  simpa using hchain'

/-- Whether a configuration is cached. -/
theorem cacheContains_iff {t : Search S I O} {s : Space.Search (Config history.length S) Nat}
    (hcache : ∀ b state, ⟨b, state⟩ ∈ t.cache b.hash ↔
      ∃ c ∈ s.cache, c.state = state ∧ b.Holds history.length c.placed)
    {b : Bitset} (hb : b.Holds history.length d.placed) :
    cacheContains model t.cache ⟨b, d.state⟩ =
      s.cache.any ((space model history entries).same d) := by
  rw [Bool.eq_iff_iff, cacheContains, List.any_eq_true, List.any_eq_true]
  constructor
  · rintro ⟨⟨b', state⟩, hmem, hmatch⟩
    obtain ⟨hequals, hstates⟩ := (Bool.and_eq_true _ _).mp hmatch
    obtain rfl : b = b' := Bitset.equals_iff.mp hequals
    obtain ⟨c, hc, rfl, hholds⟩ := (hcache b state).mp hmem
    refine ⟨c, hc, (Bool.and_eq_true _ _).mpr ⟨List.isPerm_iff.mpr ?_, hstates⟩⟩
    exact (List.perm_ext_iff_of_nodup d.nodup c.nodup).mpr ((hb.eq_iff hholds).mp rfl)
  · rintro ⟨c, hc, hsame⟩
    obtain ⟨hperm, hstates⟩ := (Bool.and_eq_true _ _).mp hsame
    have hholds : b.Holds history.length c.placed :=
      ⟨hb.length, fun pos => by rw [hb.bits, decide_eq_decide, (List.isPerm_iff.mp hperm).mem_iff]⟩
    exact ⟨⟨b, c.state⟩, (hcache b c.state).mpr ⟨c, hc, rfl, hholds⟩,
      (Bool.and_eq_true _ _).mpr ⟨Bitset.equals_iff.mpr rfl, hstates⟩⟩

/-- A configuration is added to the cache. -/
theorem cache_push {t : Search S I O} {s : Space.Search (Config history.length S) Nat}
    (hcache : ∀ b state, ⟨b, state⟩ ∈ t.cache b.hash ↔
      ∃ c ∈ s.cache, c.state = state ∧ b.Holds history.length c.placed)
    {new : Bitset} (hnew : new.Holds history.length d.placed) (b : Bitset) (state : S) :
    ⟨b, state⟩ ∈ Function.update t.cache new.hash (t.cache new.hash ++ [⟨new, d.state⟩]) b.hash ↔
      ∃ c ∈ d :: s.cache, c.state = state ∧ b.Holds history.length c.placed := by
  have hown : b.Holds history.length d.placed → b = new := fun hholds =>
    (hholds.eq_iff hnew).mpr fun _ => Iff.rfl
  by_cases hhash : b.hash = new.hash
  · rw [hhash, Function.update_self, List.mem_append, ← hhash, hcache, List.mem_singleton]
    constructor
    · rintro (⟨c, hc, hstate⟩ | heq)
      · exact ⟨c, List.mem_cons_of_mem _ hc, hstate⟩
      · cases heq
        exact ⟨d, List.mem_cons_self, rfl, hnew⟩
    · rintro ⟨c, hc, rfl, hholds⟩
      rcases List.mem_cons.mp hc with rfl | hc
      · rw [hown hholds]
        exact .inr rfl
      · exact .inl ⟨c, hc, rfl, hholds⟩
  · rw [Function.update_of_ne hhash, hcache]
    constructor
    · rintro ⟨c, hc, hstate⟩
      exact ⟨c, List.mem_cons_of_mem _ hc, hstate⟩
    · rintro ⟨c, hc, rfl, hholds⟩
      rcases List.mem_cons.mp hc with rfl | hc
      · exact absurd (congrArg Bitset.hash (hown hholds)) hhash
      · exact ⟨c, hc, rfl, hholds⟩

end Relation

/-! ## Turns -/

section Turns

variable {computePartial : Bool} {t : Search S I O}
  {s : Space.Search (Config history.length S) Nat}

/-- Both turns lead on, or both stop with the same verdict. -/
inductive TurnsMatch (model : Filled S I O) (history : List (Operation I O))
    (entries : List (Entry I O)) (computePartial : Bool) :
    Turn (Search S I O) (Bool × Longest) →
      Turn (Space.Search (Config history.length S) Nat)
        (Bool × Space.Search (Config history.length S) Nat) → Prop where
  | again {t : Search S I O} {s : Space.Search (Config history.length S) Nat}
      (next : Simulates model history entries computePartial t s) :
      TurnsMatch model history entries computePartial (.again t) (.again s)
  | found {t : Search S I O} {s : Space.Search (Config history.length S) Nat}
      (last : Simulates model history entries computePartial t s) :
      TurnsMatch model history entries computePartial
        (.stop (true, t.longest.fill (s.top.config.placed.map Int.ofNat))) (.stop (true, s))
  | exhausted {t : Search S I O} {s : Space.Search (Config history.length S) Nat}
      (last : Simulates model history entries computePartial t s) :
      TurnsMatch model history entries computePartial (.stop (false, t.longest)) (.stop (false, s))

namespace Simulates

theorem seq_eq (h : Simulates model history entries computePartial t s) :
    t.seq = s.top.config.placed.map Int.ofNat :=
  h.unwinds.ids_eq h.built

theorem next_head_iff (h : Simulates model history entries computePartial t s) :
    t.heap.links.next t.headEntry = none ↔
      (space model history entries).complete s.top.config = true := by
  rw [h.head, h.listed.next_head, List.head?_eq_none_iff, List.map_eq_nil_iff]
  exact List.isEmpty_iff.symm

/-- The call at the cursor is passed over. -/
theorem advance (h : Simulates model history entries computePartial t s)
    {tried cursor : List (Entry I O × Nat)} {slot : Entry I O × Nat}
    (hview : AtCursor entries s.top.config.placed tried (slot :: cursor))
    (hcall : isCall slot = true) :
    Simulates model history entries computePartial (t.advance slot.2)
      { s with top := ⟨s.top.config, ahead model history s.top.config cursor⟩ } :=
  { h with
    view := by
      refine ⟨tried ++ [slot], cursor, ⟨?_, fun other hmem => ?_⟩,
        h.listed.next_slot hview.split, rfl⟩
      · rw [hview.split, List.append_assoc, List.singleton_append]
      · rcases List.mem_append.mp hmem with hold | hnew
        · exact hview.tried other hold
        · rw [List.mem_singleton.mp hnew]
          exact hcall }

/-- The operation at the cursor is placed. -/
theorem push (hmakes : MakesEntries history entries)
    (h : Simulates model history entries computePartial t s)
    {tried cursor : List (Entry I O × Nat)} {op : Operation I O} {id i : Nat}
    (hop : history[id]? = some op)
    (hview : AtCursor entries s.top.config.placed tried ((callEntry op id, i) :: cursor))
    {d : Config history.length S} (hd : d.placed = s.top.config.placed ++ [id]) {new : Bitset}
    (hnew : new.Holds history.length d.placed) :
    ∃ t', t.push i ⟨new, d.state⟩ = some t' ∧
      Simulates model history entries computePartial t'
        { s with
          top := (space model history entries).enter d
          below := ⟨s.top.config, ahead model history s.top.config cursor⟩ :: s.below
          cache := d :: s.cache } := by
  obtain ⟨links', hlift, hlisted, hunlift⟩ := h.listed.lift hmakes h.built hop hview
  rw [← hd] at hlisted
  refine ⟨_, by simp only [Search.push, hlift, Option.bind_eq_bind, Option.bind_some]; rfl, ?_⟩
  exact {
    built := h.built
    head := h.head
    listed := hlisted
    view := ⟨[], remaining entries d.placed, ⟨rfl, fun _ hmem => by cases hmem⟩, by
      change links'.next t.headEntry = _
      rw [h.head]
      exact hlisted.next_head, rfl⟩
    linearized := hnew
    state := rfl
    cache := cache_push h.cache hnew
    unwinds := by
      have hpush := Unwinds.push hunlift h.listed hop hview hd h.unwinds
      rw [← h.state] at hpush
      exact hpush
    valid := h.valid
    longest := h.longest }

/-- The operation that was placed last is taken back. -/
theorem pop (h : Simulates model history entries computePartial t s)
    {frame : Space.Frame (Config history.length S) Nat}
    {below : List (Space.Frame (Config history.length S) Nat)} (hbelow : s.below = frame :: below) :
    ∃ callsTop t', t.calls.getLast? = some callsTop ∧ t.pop computePartial callsTop = some t' ∧
      Simulates model history entries computePartial t'
        { s with top := frame, below := below, given := s.given ++ [s.top.config.placed] } := by
  have hunwinds := h.unwinds
  rw [hbelow] at hunwinds
  generalize hcalls : t.calls = calls at hunwinds
  cases hunwinds with
  | @push links _ calls c _ _ op id i tried cursor unlift listed read view placed rest =>
      have hentry : (callEntry op id, i) ∈ remaining entries c.placed :=
        view.split ▸ List.mem_append_right _ List.mem_cons_self
      obtain ⟨hread, hnew⟩ := mem_remaining.mp hentry
      obtain ⟨j, _, hnode⟩ := h.built.call read hread
      have hindex : (t.heap.nodes i).index = some id := by
        rw [hnode]
        rfl
      obtain ⟨b, hclear, hb⟩ := (placed ▸ h.linearized).clear
        (List.getElem?_eq_some_iff.mp read).1 hnew
      obtain ⟨longest, hnote, hvalid, hlongest⟩ : ∃ longest,
          t.notePartial computePartial = some longest ∧
          longest.Valid history.length ∧ (computePartial = true →
            Longest.noteAll { refs := List.replicate history.length none }
              (s.given ++ [s.top.config.placed]) = some longest) := by
        cases computePartial with
        | false => exact ⟨t.longest, rfl, h.valid, fun heq => by cases heq⟩
        | true =>
            obtain ⟨longest, hnote, hvalid, _⟩ := h.valid.note s.top.config.bounded
            refine ⟨longest, ?_, hvalid, fun _ => ?_⟩
            · rw [Search.notePartial, if_pos rfl, h.seq_eq]
              exact hnote
            · rw [Longest.noteAll_concat (h.longest rfl)]
              exact hnote
      refine ⟨⟨i, c.state⟩, _, by rw [List.getLast?_concat], by
        simp only [Search.pop, hnote, hindex, hclear, unlift, Option.bind_eq_bind,
          Option.bind_some]
        rfl, ?_⟩
      exact {
        built := h.built
        head := h.head
        listed := listed
        view := by
          refine ⟨tried ++ [(callEntry op id, i)], cursor, ⟨?_, fun other hmem => ?_⟩,
            listed.next_slot view.split, rfl⟩
          · rw [view.split, List.append_assoc, List.singleton_append]
          · rcases List.mem_append.mp hmem with hold | hlast
            · exact view.tried other hold
            · rw [List.mem_singleton.mp hlast]
              rfl
        linearized := hb
        state := rfl
        cache := h.cache
        unwinds := by
          change Unwinds model history entries t.heap.nodes links t.calls.dropLast c below
          rw [hcalls, List.dropLast_concat]
          exact rest
        valid := hvalid
        longest := hlongest }

theorem step_eq (h : Simulates model history entries computePartial t s) {op : Operation I O}
    {id i j : Nat} (hcall : t.heap.nodes i = ⟨some (.callEntry op.input), some j, id⟩)
    (hreturn : entries[j]? = some (returnEntry op id)) :
    t.step model i j = some (model.step s.top.config.state op.input op.output) := by
  simp only [Search.step, hcall, h.built.ret hreturn, h.state]

/-- The cursor stands at a return. -/
theorem turn_return (h : Simulates model history entries computePartial t s)
    (hleft : t.heap.links.next t.headEntry ≠ none)
    (hcomplete : (space model history entries).complete s.top.config = false) {op : Operation I O}
    {slot : Entry I O × Nat} {cursor : List (Entry I O × Nat)}
    (hslot : slot ∈ remaining entries s.top.config.placed)
    (hentry : t.entry = some slot.2)
    (hahead : s.top.ahead = ahead model history s.top.config (slot :: cursor))
    (hreturn : slot.1 = returnEntry op slot.1.id) :
    ∃ r r', t.turn model computePartial false = some r ∧
      (space model history entries).turn s = some r' ∧
      TurnsMatch model history entries computePartial r r' := by
  have hnone : s.top.ahead = [] := by
    have hkind : ¬ isCall slot = true := by
      rw [isCall, hreturn]
      simp
    rw [hahead, ahead, List.takeWhile_cons_of_neg hkind, List.map_nil]
  have hread : entries[slot.2]? = some (returnEntry op slot.1.id) :=
    hreturn ▸ (mem_remaining.mp hslot).1
  have hnode := h.built.ret hread
  cases hbelow : s.below with
  | nil =>
      have hcalls : t.calls = [] := by
        have hunwinds := h.unwinds
        rw [hbelow] at hunwinds
        generalize t.calls = calls at hunwinds
        cases hunwinds
        rfl
      refine ⟨_, _, ?_, Space.turn_exhausted hcomplete hnone hbelow, .exhausted h⟩
      simp [Search.turn, hleft, hentry, hnode, hcalls]
  | cons frame below =>
      obtain ⟨callsTop, t', hlast, hpop, hnext⟩ := h.pop hbelow
      refine ⟨_, _, ?_, Space.turn_give hcomplete hnone hbelow, .again hnext⟩
      simp [Search.turn, hleft, hentry, hnode, hlast, hpop]

/-- The cursor stands at a call. -/
theorem turn_call (hmakes : MakesEntries history entries)
    (h : Simulates model history entries computePartial t s)
    (hleft : t.heap.links.next t.headEntry ≠ none)
    (hcomplete : (space model history entries).complete s.top.config = false) {op : Operation I O}
    {id i : Nat} {tried cursor : List (Entry I O × Nat)}
    (hview : AtCursor entries s.top.config.placed tried ((callEntry op id, i) :: cursor))
    (hentry : t.entry = some i)
    (hahead : s.top.ahead = ahead model history s.top.config ((callEntry op id, i) :: cursor))
    (hop : history[id]? = some op) :
    ∃ r r', t.turn model computePartial false = some r ∧
      (space model history entries).turn s = some r' ∧
      TurnsMatch model history entries computePartial r r' := by
  have hslot : (callEntry op id, i) ∈ remaining entries s.top.config.placed :=
    hview.split ▸ List.mem_append_right _ List.mem_cons_self
  obtain ⟨hread, hnew⟩ := mem_remaining.mp hslot
  obtain ⟨j, hreturn, hnode⟩ := h.built.call hop hread
  have hstep := h.step_eq hnode hreturn
  have hlt : id < history.length := (List.getElem?_eq_some_iff.mp hop).1
  have hindex : (t.heap.nodes i).index = some id := by
    rw [hnode]
    rfl
  have hmatching : (t.heap.nodes i).matching = some j := by
    rw [hnode]
  have hadvance := h.advance hview rfl
  replace hahead : s.top.ahead = move model history s.top.config id ::
      ahead model history s.top.config cursor := hahead
  rcases hresult : model.step s.top.config.state op.input op.output with ⟨ok, newState⟩
  rw [hresult] at hstep
  cases ok with
  | false =>
      have hmove : move model history s.top.config id = (id, none) := by
        simp [move, hop, Filled.object, hresult]
      rw [hmove] at hahead
      refine ⟨_, _, ?_, Space.turn_impossible hcomplete hahead, .again hadvance⟩
      simp [Search.turn, hleft, hentry, hmatching, hstep]
  | true =>
      obtain ⟨d, hd⟩ : ∃ d, s.top.config.place id newState = some d := by
        rw [Config.place, dif_pos ⟨hlt, hnew⟩]
        exact ⟨_, rfl⟩
      obtain ⟨_, hplaced, rfl⟩ := Config.place_eq_some.mp hd
      have hmove : move model history s.top.config id = (id, some d) := by
        simp [move, hop, Filled.object, hresult, hd]
      rw [hmove] at hahead
      obtain ⟨new, hset, hnewHolds⟩ := h.linearized.set hlt
      rw [← hplaced] at hnewHolds
      have hcached : cacheContains model t.cache ⟨new, d.state⟩ =
          s.cache.any ((space model history entries).same d) :=
        cacheContains_iff h.cache hnewHolds
      cases hcontains : s.cache.any ((space model history entries).same d) with
      | true =>
          rw [hcontains] at hcached
          refine ⟨_, _, ?_, Space.turn_cached hcomplete hahead hcontains, .again hadvance⟩
          simp [Search.turn, hleft, hentry, hmatching, hstep, hindex, hset, hcached]
      | false =>
          rw [hcontains] at hcached
          obtain ⟨t', hpush, hnext⟩ := h.push hmakes hop hview hplaced hnewHolds
          refine ⟨_, _, ?_, Space.turn_enter hcomplete hahead hcontains, .again hnext⟩
          simp [Search.turn, hleft, hentry, hmatching, hstep, hindex, hset, hcached, hpush]

/-- One turn of the loop is one turn of the search. -/
theorem turn (hmakes : MakesEntries history entries)
    (h : Simulates model history entries computePartial t s) :
    ∃ r r', t.turn model computePartial false = some r ∧
      (space model history entries).turn s = some r' ∧
      TurnsMatch model history entries computePartial r r' := by
  obtain ⟨tried, cursor, hview, hentry, hahead⟩ := h.view
  cases hcomplete : (space model history entries).complete s.top.config with
  | true =>
      have hdone := h.next_head_iff.mpr hcomplete
      refine ⟨_, _, by rw [Search.turn, if_pos hdone, h.seq_eq], Space.turn_complete hcomplete,
        .found h⟩
  | false =>
      have hleft : t.heap.links.next t.headEntry ≠ none := fun hdone => by
        rw [h.next_head_iff, hcomplete] at hdone
        cases hdone
      have hne : remaining entries s.top.config.placed ≠ [] := by
        intro hempty
        simp [space, hempty] at hcomplete
      cases cursor with
      | nil =>
          -- a return is left, so the calls that were tried are not all
          obtain ⟨slot, hslot, hreturn⟩ := hmakes.exists_return hne
          rw [hview.split, List.append_nil] at hslot
          have hcall := hview.tried slot hslot
          rw [isCall, hreturn] at hcall
          cases hcall
      | cons slot cursor =>
          have hslot : slot ∈ remaining entries s.top.config.placed :=
            hview.split ▸ List.mem_append_right _ List.mem_cons_self
          obtain ⟨op, hop, _, hcall | hreturn⟩ := hmakes.of_mem_remaining hslot
          · generalize slot.1.id = id at hop hcall
            obtain ⟨e, i⟩ := slot
            obtain rfl : e = callEntry op id := hcall
            exact h.turn_call hmakes hleft hcomplete hview hentry hahead hop
          · exact h.turn_return hleft hcomplete hslot hentry hahead hreturn

end Simulates

end Turns

end DistributedLabs.Porcupine
