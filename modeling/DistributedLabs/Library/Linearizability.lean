import DistributedLabs.Library.Machine
import Mathlib.Data.List.Nodup
import Mathlib.Data.List.Perm.Basic

/-!
# Linearizable histories

A sequential object carries out one operation after the other.  The operations of a
history overlap, and each has a time of its call and a time of its return.  The history
is linearizable if the object can carry out its operations in some order that keeps an
operation behind those that had returned before it was called.

A machine whose clients call and are answered is recorded step by step.  Its histories
are linearizable if every answered call has a point between its call and its answer such
that the object can carry out the calls in the order of their points.
-/

namespace DistributedLabs.Library

/-! ## Objects and histories -/

/-- A sequential object.  It may refuse to answer an input with an output. -/
structure SeqObject (S I O : Type) where
  init : S
  step : S → I → O → Option S

structure Operation (T I O : Type) where
  input : I
  call : T
  output : O
  ret : T
  deriving DecidableEq

variable {S I O T : Type}

def Operation.io (op : Operation T I O) : I × O :=
  (op.input, op.output)

namespace SeqObject

variable (obj : SeqObject S I O)

/-- The state behind a sequence of inputs and outputs, if none is refused. -/
def run : S → List (I × O) → Option S
  | s, [] => some s
  | s, io :: rest => (obj.step s io.1 io.2).bind fun next => run next rest

theorem run_append (s : S) (front back : List (I × O)) :
    obj.run s (front ++ back) = (obj.run s front).bind fun mid => obj.run mid back := by
  induction front generalizing s with
  | nil => rfl
  | cons io rest ih =>
      simp only [List.cons_append, run]
      cases obj.step s io.1 io.2 with
      | none => rfl
      | some next => exact ih next

theorem run_concat {s mid : S} {front : List (I × O)} (hfront : obj.run s front = some mid)
    (io : I × O) : obj.run s (front ++ [io]) = obj.step mid io.1 io.2 := by
  rw [run_append, hfront, Option.bind_some]
  simp only [run]
  cases obj.step mid io.1 io.2 with
  | none => rfl
  | some next => rfl

/-- An input that does not change the state may as well be left out. -/
theorem run_drop {s final : S} {front back : List (I × O)} {io : I × O}
    (hrun : obj.run s (front ++ io :: back) = some final)
    (hreads : ∀ {state next}, obj.step state io.1 io.2 = some next → next = state) :
    obj.run s (front ++ back) = some final := by
  rw [run_append] at hrun
  obtain ⟨mid, hfront, hback⟩ := Option.bind_eq_some_iff.mp hrun
  obtain ⟨next, hstep, hrest⟩ := Option.bind_eq_some_iff.mp hback
  rw [run_append, hfront, Option.bind_some, ← hrest, hreads hstep]

/-- The object can carry out the sequence. -/
def Legal (s : S) (ios : List (I × O)) : Prop :=
  ∃ final, obj.run s ios = some final

theorem legal_cons {s : S} {io : I × O} {rest : List (I × O)} :
    obj.Legal s (io :: rest) ↔ ∃ next, obj.step s io.1 io.2 = some next ∧ obj.Legal next rest := by
  constructor
  · rintro ⟨final, hrun⟩
    obtain ⟨next, hstep, hrest⟩ := Option.bind_eq_some_iff.mp hrun
    exact ⟨next, hstep, final, hrest⟩
  · rintro ⟨next, hstep, final, hrest⟩
    exact ⟨final, Option.bind_eq_some_iff.mpr ⟨next, hstep, hrest⟩⟩

end SeqObject

/-- The object can carry out the history in this order. -/
structure Linearizes [LT T] (obj : SeqObject S I O) (history order : List (Operation T I O)) :
    Prop where
  perm : order.Perm history
  realTime : order.Pairwise fun before after => ¬ after.ret < before.call
  legal : obj.Legal obj.init (order.map Operation.io)

def Linearizable [LT T] (obj : SeqObject S I O) (history : List (Operation T I O)) : Prop :=
  ∃ order, Linearizes obj history order

theorem Linearizable.perm [LT T] {obj : SeqObject S I O} {history history' : List (Operation T I O)}
    (h : Linearizable obj history) (hperm : history.Perm history') : Linearizable obj history' := by
  obtain ⟨order, horder⟩ := h
  exact ⟨order, horder.perm.trans hperm, horder.realTime, horder.legal⟩

/-- Other times that do not put more operations behind each other. -/
theorem Linearizable.map_times {T' : Type} [LT T] [LT T'] {obj : SeqObject S I O}
    {history : List (Operation T I O)} (h : Linearizable obj history)
    {stamp : Operation T I O → Operation T' I O} (hio : ∀ op, (stamp op).io = op.io)
    (hearlier : ∀ before ∈ history, ∀ after ∈ history,
      (stamp before).ret < (stamp after).call → before.ret < after.call) :
    Linearizable obj (history.map stamp) := by
  obtain ⟨order, hperm, htime, hlegal⟩ := h
  refine ⟨order.map stamp, hperm.map stamp, ?_, ?_⟩
  · rw [List.pairwise_map]
    refine htime.imp_of_mem fun {before after} hbefore hafter hnot hlt => hnot ?_
    exact hearlier after (hperm.mem_iff.mp hafter) before (hperm.mem_iff.mp hbefore) hlt
  · rw [List.map_map, show Operation.io ∘ stamp = Operation.io from funext hio]
    exact hlegal

/-! ## Recording the calls of a machine -/

/-- What a step of a machine is for its clients. -/
inductive Event (K I O : Type) where
  | invoke (key : K) (input : I)
  | respond (key : K) (output : O)
  | internal

/-- A call, and its answer with the time of it. -/
structure CallRecord (K I O : Type) where
  key : K
  input : I
  call : Nat
  answer : Option (O × Nat) := none

structure Record (K I O : Type) where
  clock : Nat := 0
  calls : List (CallRecord K I O) := []

variable {K : Type}

def CallRecord.respond [DecidableEq K] (key : K) (output : O) (time : Nat)
    (call : CallRecord K I O) : CallRecord K I O :=
  if call.key = key then { call with answer := some (output, time) } else call

theorem CallRecord.respond_key [DecidableEq K] (call : CallRecord K I O) (key : K) (output : O)
    (time : Nat) : (call.respond key output time).key = call.key := by
  unfold CallRecord.respond
  split <;> rfl

theorem CallRecord.respond_input [DecidableEq K] (call : CallRecord K I O) (key : K) (output : O)
    (time : Nat) : (call.respond key output time).input = call.input := by
  unfold CallRecord.respond
  split <;> rfl

theorem CallRecord.respond_call [DecidableEq K] (call : CallRecord K I O) (key : K) (output : O)
    (time : Nat) : (call.respond key output time).call = call.call := by
  unfold CallRecord.respond
  split <;> rfl

/-- The operation of a call that has an answer. -/
def CallRecord.operation (call : CallRecord K I O) (answer : O × Nat) : Operation Nat I O :=
  ⟨call.input, call.call, answer.1, answer.2⟩

namespace Record

def note [DecidableEq K] (r : Record K I O) : Event K I O → Record K I O
  | .invoke key input => ⟨r.clock + 1, r.calls ++ [{ key, input, call := r.clock }]⟩
  | .respond key output => ⟨r.clock + 1, r.calls.map (CallRecord.respond key output r.clock)⟩
  | .internal => ⟨r.clock + 1, r.calls⟩

/-- The operations that have returned. -/
def history (r : Record K I O) : List (Operation Nat I O) :=
  r.calls.filterMap fun call => call.answer.map call.operation

/-- Calls without an answer may be given one, which they would get now. -/
def complete (r : Record K I O) (answers : K → Option O) : List (Operation Nat I O) :=
  r.calls.filterMap fun call =>
    (call.answer <|> (answers call.key).map fun output => (output, r.clock)).map call.operation

/-- The object can carry out all that was answered, and some of the other calls. -/
def LinearizableTo (obj : SeqObject S I O) (r : Record K I O) : Prop :=
  ∃ answers, Linearizable obj (r.complete answers)

/-- When every call has an answer, there is nothing to complete. -/
theorem LinearizableTo.history {obj : SeqObject S I O} {r : Record K I O}
    (h : r.LinearizableTo obj) (hdone : ∀ call ∈ r.calls, call.answer ≠ none) :
    Linearizable obj r.history := by
  obtain ⟨answers, hanswers⟩ := h
  have hsame : r.complete answers = r.history := by
    refine List.filterMap_congr fun call hmem => ?_
    obtain ⟨answer, hanswer⟩ := Option.ne_none_iff_exists'.mp (hdone call hmem)
    rw [hanswer]
    rfl
  rw [← hsame]
  exact hanswers

end Record

/-- The machine together with the record of its calls. -/
def recording [DecidableEq K] {σ A : Type} (step : σ → A → Outcome σ)
    (event : σ → A → Event K I O) (s : σ × Record K I O) (a : A) :
    Outcome (σ × Record K I O) :=
  (step s.1 a).map fun next => (next, s.2.note (event s.1 a))

/-- The run of the machine that was recorded. -/
theorem RunsIf.recorded [DecidableEq K] {σ A : Type} {step : σ → A → Outcome σ}
    {event : σ → A → Event K I O} {allowed : σ → A → Prop} {actions : List A}
    {s t : σ × Record K I O}
    (h : RunsIf (recording step event) (fun s a => allowed s.1 a) s actions t) :
    RunsIf step allowed s.1 actions t.1 := by
  induction h with
  | refl => exact .refl
  | tail _ permitted taken ih =>
      obtain ⟨next, hnext, rfl⟩ := Outcome.map_eq_ok.mp taken
      exact ih.tail permitted hnext

/-! ## Points -/

/-- Where a call takes effect, and with which output. -/
structure Point (K I O : Type) where
  key : K
  input : I
  output : O
  time : Nat

def Point.io (point : Point K I O) : I × O :=
  (point.input, point.output)

/-- The point belongs to the call and lies between the call and its answer. -/
structure Point.Fits (point : Point K I O) (call : CallRecord K I O) : Prop where
  key : call.key = point.key
  input : call.input = point.input
  called : call.call ≤ point.time
  answered : ∀ answer ∈ call.answer, answer.1 = point.output ∧ point.time ≤ answer.2

/-- The object has carried out the calls that have a point, every answered call among them. -/
structure Tracks (obj : SeqObject S I O) (r : Record K I O) (points : List (Point K I O)) :
    Prop where
  keys : (r.calls.map CallRecord.key).Nodup
  called : ∀ call ∈ r.calls, call.call < r.clock
  distinct : (points.map Point.key).Nodup
  rising : points.Pairwise fun before after => before.time ≤ after.time
  past : ∀ point ∈ points, point.time ≤ r.clock
  fits : ∀ point ∈ points, ∃ call ∈ r.calls, point.Fits call
  answered : ∀ call ∈ r.calls, call.answer ≠ none → call.key ∈ points.map Point.key
  legal : obj.Legal obj.init (points.map Point.io)

namespace Tracks

variable {obj : SeqObject S I O} {r : Record K I O} {points : List (Point K I O)}

theorem initial (obj : SeqObject S I O) : Tracks obj ({} : Record K I O) [] where
  keys := List.nodup_nil
  called _ hmem := by cases hmem
  distinct := List.nodup_nil
  rising := List.Pairwise.nil
  past _ hmem := by cases hmem
  fits _ hmem := by cases hmem
  answered _ hmem := by cases hmem
  legal := ⟨obj.init, rfl⟩

theorem unique (h : Tracks obj r points) {call call' : CallRecord K I O} (hmem : call ∈ r.calls)
    (hmem' : call' ∈ r.calls) (hkey : call.key = call'.key) : call = call' :=
  List.inj_on_of_nodup_map h.keys hmem hmem' hkey

/-! ### Steps of the machine -/

section Steps

variable [DecidableEq K]

theorem internal (h : Tracks obj r points) : Tracks obj (r.note .internal) points where
  keys := h.keys
  called call hmem := Nat.lt_succ_of_lt (h.called call hmem)
  distinct := h.distinct
  rising := h.rising
  past point hmem := Nat.le_succ_of_le (h.past point hmem)
  fits := h.fits
  answered := h.answered
  legal := h.legal

theorem invoke (h : Tracks obj r points) {key : K} (hnew : key ∉ r.calls.map CallRecord.key)
    (input : I) : Tracks obj (r.note (.invoke key input)) points where
  keys := by
    simp only [Record.note, List.map_append, List.map_cons, List.map_nil]
    exact List.nodup_append.mpr ⟨h.keys, List.nodup_singleton _, fun _ hold _ hin heq =>
      hnew (List.mem_singleton.mp hin ▸ heq ▸ hold)⟩
  called call hmem := by
    rcases List.mem_append.mp hmem with hold | hin
    · exact Nat.lt_succ_of_lt (h.called call hold)
    · rw [List.mem_singleton.mp hin]
      exact Nat.lt_succ_self r.clock
  distinct := h.distinct
  rising := h.rising
  past point hmem := Nat.le_succ_of_le (h.past point hmem)
  fits point hmem := by
    obtain ⟨call, hcall, hfits⟩ := h.fits point hmem
    exact ⟨call, List.mem_append_left _ hcall, hfits⟩
  answered call hmem hanswer := by
    rcases List.mem_append.mp hmem with hold | hin
    · exact h.answered call hold hanswer
    · rw [List.mem_singleton.mp hin] at hanswer
      exact absurd rfl hanswer
  legal := h.legal

/-- A call is answered with the output it has at its point. -/
theorem respond (h : Tracks obj r points) {key : K} {output : O} {point : Point K I O}
    (hpoint : point ∈ points) (hkey : point.key = key) (houtput : point.output = output) :
    Tracks obj (r.note (.respond key output)) points := by
  refine ⟨?_, ?_, h.distinct, h.rising, fun p hmem => Nat.le_succ_of_le (h.past p hmem), ?_, ?_,
    h.legal⟩
  · simp only [Record.note, List.map_map, Function.comp_def, CallRecord.respond_key]
    exact h.keys
  · intro call hmem
    obtain ⟨old, hold, rfl⟩ := List.mem_map.mp hmem
    rw [CallRecord.respond_call]
    exact Nat.lt_succ_of_lt (h.called old hold)
  · intro p hmem
    obtain ⟨call, hcall, hfits⟩ := h.fits p hmem
    refine ⟨_, List.mem_map_of_mem hcall, (call.respond_key ..).trans hfits.key,
      (call.respond_input ..).trans hfits.input,
      Nat.le_trans (Nat.le_of_eq (call.respond_call ..)) hfits.called, ?_⟩
    · by_cases hown : call.key = key
      · have hsame : p = point :=
          List.inj_on_of_nodup_map h.distinct hmem hpoint
            (hfits.key.symm.trans (hown.trans hkey.symm))
        intro answer hanswer
        rw [CallRecord.respond, if_pos hown] at hanswer
        obtain rfl := Option.some.inj hanswer
        exact ⟨hsame ▸ houtput.symm, h.past p hmem⟩
      · rw [CallRecord.respond, if_neg hown]
        exact hfits.answered
  · intro call hmem hanswer
    obtain ⟨old, hold, rfl⟩ := List.mem_map.mp hmem
    rw [CallRecord.respond_key]
    by_cases hown : old.key = key
    · rw [hown, ← hkey]
      exact List.mem_map_of_mem hpoint
    · rw [CallRecord.respond, if_neg hown] at hanswer
      exact h.answered old hold hanswer

end Steps

/-! ### Effects -/

/-- A call without an answer takes effect. -/
theorem linearize (h : Tracks obj r points) {call : CallRecord K I O} (hcall : call ∈ r.calls)
    (hopen : call.answer = none) (hnew : call.key ∉ points.map Point.key) {output : O}
    {state next : S} (hrun : obj.run obj.init (points.map Point.io) = some state)
    (hstep : obj.step state call.input output = some next) :
    Tracks obj r (points ++ [⟨call.key, call.input, output, r.clock⟩]) where
  keys := h.keys
  called := h.called
  distinct := by
    simp only [List.map_append, List.map_cons, List.map_nil]
    exact List.nodup_append.mpr ⟨h.distinct, List.nodup_singleton _, fun _ hold _ hin heq =>
      hnew (List.mem_singleton.mp hin ▸ heq ▸ hold)⟩
  rising := by
    refine List.pairwise_append.mpr ⟨h.rising, List.pairwise_singleton _ _, ?_⟩
    intro point hmem new hnew
    rw [List.mem_singleton.mp hnew]
    exact h.past point hmem
  past point hmem := by
    rcases List.mem_append.mp hmem with hold | hin
    · exact h.past point hold
    · obtain rfl := List.mem_singleton.mp hin
      exact Nat.le_refl r.clock
  fits point hmem := by
    rcases List.mem_append.mp hmem with hold | hin
    · exact h.fits point hold
    · rw [List.mem_singleton.mp hin]
      exact ⟨call, hcall, rfl, rfl, Nat.le_of_lt (h.called call hcall), fun answer hanswer => by
        rw [hopen] at hanswer
        cases hanswer⟩
  answered other hmem hanswer := by
    rw [List.map_append]
    exact List.mem_append_left _ (h.answered other hmem hanswer)
  legal := by
    refine ⟨next, ?_⟩
    rw [List.map_append, List.map_singleton, obj.run_concat hrun]
    exact hstep

/-- The effect of a call without an answer is taken back, if it has not changed the object. -/
theorem drop (h : Tracks obj r points) {front back : List (Point K I O)} {point : Point K I O}
    (hsplit : points = front ++ point :: back)
    (hreads : ∀ {state next}, obj.step state point.input point.output = some next → next = state)
    (hopen : ∀ call ∈ r.calls, call.key = point.key → call.answer = none) :
    Tracks obj r (front ++ back) := by
  subst hsplit
  have hsub : (front ++ back).Sublist (front ++ point :: back) :=
    (List.Sublist.refl front).append (List.sublist_cons_self point back)
  refine ⟨h.keys, h.called, h.distinct.sublist (hsub.map _), h.rising.sublist hsub,
    fun p hmem => h.past p (hsub.subset hmem), fun p hmem => h.fits p (hsub.subset hmem), ?_, ?_⟩
  · intro call hmem hanswer
    have hin := h.answered call hmem hanswer
    have hne : call.key ≠ point.key := fun heq => hanswer (hopen call hmem heq)
    simp only [List.map_append, List.map_cons, List.mem_append, List.mem_cons] at hin ⊢
    rcases hin with hfront | heq | hback
    · exact Or.inl hfront
    · exact absurd heq hne
    · exact Or.inr hback
  · obtain ⟨final, hrun⟩ := h.legal
    rw [List.map_append, List.map_cons] at hrun
    rw [List.map_append]
    exact ⟨final, obj.run_drop hrun hreads⟩

/-! ### The recorded history -/

variable [DecidableEq K]

theorem find?_of_nodup {α : Type} {keyOf : α → K} {items : List α} (hkeys : (items.map keyOf).Nodup)
    {item : α} (hmem : item ∈ items) :
    items.find? (fun other => keyOf other = keyOf item) = some item := by
  cases hfound : items.find? fun other => decide (keyOf other = keyOf item) with
  | none => exact absurd (decide_eq_true rfl) (List.find?_eq_none.mp hfound item hmem)
  | some other =>
      have hkey := List.find?_some hfound
      rw [List.inj_on_of_nodup_map hkeys (List.mem_of_find?_eq_some hfound) hmem
        (of_decide_eq_true hkey)]

/-- The output a call has at its point. -/
def outputs (points : List (Point K I O)) (key : K) : Option O :=
  (points.find? fun point => point.key = key).map Point.output

theorem outputs_eq (h : Tracks obj r points) {point : Point K I O} (hmem : point ∈ points) :
    outputs points point.key = some point.output := by
  rw [outputs, find?_of_nodup h.distinct hmem, Option.map_some]

theorem mem_of_outputs {key : K} {output : O} (h : outputs points key = some output) :
    ∃ point ∈ points, point.key = key ∧ point.output = output := by
  obtain ⟨point, hfound, houtput⟩ := Option.map_eq_some_iff.mp h
  have hkey := List.find?_some hfound
  exact ⟨point, List.mem_of_find?_eq_some hfound, of_decide_eq_true hkey, houtput⟩

/-- When the answer to a call came or would come. -/
def answerTime (r : Record K I O) (call : CallRecord K I O) : Nat :=
  (call.answer.map Prod.snd).getD r.clock

/-- The operation of a key. -/
def operationAt (r : Record K I O) (key : K) (output : O) : Option (Operation Nat I O) :=
  (r.calls.find? fun call => call.key = key).map fun call =>
    call.operation (output, answerTime r call)

theorem operationAt_eq (h : Tracks obj r points) {call : CallRecord K I O} (hmem : call ∈ r.calls)
    (output : O) :
    operationAt r call.key output = some (call.operation (output, answerTime r call)) := by
  rw [operationAt, find?_of_nodup h.keys hmem, Option.map_some]

/-- The completed history, call by call. -/
theorem complete_eq (h : Tracks obj r points) :
    r.complete (outputs points) = ((r.calls.map CallRecord.key).filterMap fun key =>
      (outputs points key).map fun output => (key, output)).filterMap fun keyed =>
        operationAt r keyed.1 keyed.2 := by
  rw [List.filterMap_map, List.filterMap_filterMap]
  refine List.filterMap_congr fun call hmem => ?_
  simp only [Function.comp_apply]
  cases hanswer : call.answer with
  | none =>
      cases outputs points call.key with
      | none => rfl
      | some output =>
          simp only [Option.map_some, Option.bind_some]
          rw [h.operationAt_eq hmem, answerTime, hanswer]
          rfl
  | some answer =>
      have hkey := h.answered call hmem (by rw [hanswer]; exact Option.some_ne_none _)
      obtain ⟨point, hpoint, hsame⟩ := List.mem_map.mp hkey
      obtain ⟨call', hcall', hfits⟩ := h.fits point hpoint
      obtain rfl := h.unique hcall' hmem (hfits.key.trans hsame)
      obtain ⟨houtput, _⟩ := hfits.answered answer hanswer
      have hfound : outputs points call'.key = some point.output := hsame ▸ h.outputs_eq hpoint
      rw [hfound]
      simp only [Option.map_some, Option.bind_some]
      rw [h.operationAt_eq hmem, answerTime, hanswer, ← houtput]
      rfl

/-- The calls with a point are the points. -/
theorem keyed_perm (h : Tracks obj r points) :
    (points.map fun point => (point.key, point.output)).Perm
      ((r.calls.map CallRecord.key).filterMap fun key =>
        (outputs points key).map fun output => (key, output)) := by
  refine (List.perm_ext_iff_of_nodup ?_ ?_).mpr ?_
  · refine List.Nodup.of_map Prod.fst ?_
    rw [List.map_map]
    exact h.distinct
  · refine h.keys.filterMap fun key key' keyed hkey hkey' => ?_
    obtain ⟨_, _, rfl⟩ := Option.map_eq_some_iff.mp hkey
    obtain ⟨_, _, heq⟩ := Option.map_eq_some_iff.mp hkey'
    exact (Prod.mk.inj heq).1.symm
  · rintro ⟨key, output⟩
    simp only [List.mem_map, List.mem_filterMap, Option.map_eq_some_iff, Prod.mk.injEq]
    constructor
    · rintro ⟨point, hpoint, rfl, rfl⟩
      obtain ⟨call, hcall, hfits⟩ := h.fits point hpoint
      exact ⟨point.key, ⟨call, hcall, hfits.key⟩, point.output, h.outputs_eq hpoint, rfl, rfl⟩
    · rintro ⟨_, _, found, hfound, rfl, rfl⟩
      obtain ⟨point, hpoint, hkey, houtput⟩ := mem_of_outputs hfound
      exact ⟨point, hpoint, hkey, houtput⟩

/-- A call with a point, as an operation. -/
theorem exists_operationAt (h : Tracks obj r points) {point : Point K I O} (hmem : point ∈ points) :
    ∃ op, operationAt r point.key point.output = some op ∧ op.io = point.io ∧
      op.call ≤ point.time ∧ point.time ≤ op.ret := by
  obtain ⟨call, hcall, hfits⟩ := h.fits point hmem
  refine ⟨_, hfits.key ▸ h.operationAt_eq hcall point.output, ?_, hfits.called, ?_⟩
  · show (call.input, point.output) = (point.input, point.output)
    rw [hfits.input]
  · show point.time ≤ answerTime r call
    unfold answerTime
    cases hanswer : call.answer with
    | none => exact h.past point hmem
    | some answer => exact (hfits.answered answer hanswer).2

/-- The object carries out the calls in the order of their points. -/
theorem linearizableTo (h : Tracks obj r points) : r.LinearizableTo obj := by
  refine ⟨outputs points, points.filterMap fun point => operationAt r point.key point.output,
    ?_, ?_, ?_⟩
  · rw [h.complete_eq]
    have hperm := h.keyed_perm.filterMap fun keyed => operationAt r keyed.1 keyed.2
    rwa [List.filterMap_map] at hperm
  · rw [List.pairwise_filterMap]
    refine h.rising.imp_of_mem fun {before after} hbefore hafter hle => ?_
    intro op hop op' hop'
    obtain ⟨_, hfound, _, hcall, _⟩ := h.exists_operationAt hbefore
    obtain ⟨_, hfound', _, _, hret⟩ := h.exists_operationAt hafter
    obtain rfl := Option.some.inj (hfound.symm.trans hop)
    obtain rfl := Option.some.inj (hfound'.symm.trans hop')
    exact Nat.not_lt.mpr (Nat.le_trans hcall (Nat.le_trans hle hret))
  · have hios : (points.filterMap fun point =>
        operationAt r point.key point.output).map Operation.io = points.map Point.io := by
      rw [List.map_filterMap, ← List.filterMap_eq_map]
      refine List.filterMap_congr fun point hmem => ?_
      obtain ⟨op, hop, hio, _⟩ := h.exists_operationAt hmem
      rw [hop, Option.map_some, hio]
      rfl
    rw [hios]
    exact h.legal

end Tracks

end DistributedLabs.Library
