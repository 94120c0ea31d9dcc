import DistributedLabs.Library.Links
import DistributedLabs.Library.Loop
import DistributedLabs.Porcupine.Bitset
import DistributedLabs.Porcupine.Model
import Mathlib.Data.List.Sort

/-!
# The checker of one history

The calls and returns of a history become the nodes of a doubly linked list in the order of
their times.  The checker places one operation after the other: it lifts the call and the
return of an operation that may come next out of the list, and puts them back if that leads
nowhere.  What it has placed, with the state behind it, is cached.

A nil pointer that is followed, an index out of range and a value of the wrong type make the
program panic.
-/

namespace DistributedLabs.Porcupine

open DistributedLabs.Library

variable {S I O : Type}

/-! ## Entries -/

/-- The kind of an entry with its value. -/
inductive EntryValue (I O : Type) where
  | callEntry (input : I)
  | returnEntry (output : O)
  deriving DecidableEq

structure Entry (I O : Type) where
  value : EntryValue I O
  id : Nat
  time : Int
  clientId : Int
  deriving DecidableEq

def Entry.isReturn (e : Entry I O) : Bool :=
  match e.value with
  | .callEntry _ => false
  | .returnEntry _ => true

/-- The order `byTime`. -/
def Entry.less (a b : Entry I O) : Bool :=
  if a.time ≠ b.time then a.time < b.time
  else !a.isReturn && b.isReturn

def callEntry (elem : Operation I O) (id : Nat) : Entry I O :=
  ⟨.callEntry elem.input, id, elem.call, elem.clientId⟩

def returnEntry (elem : Operation I O) (id : Nat) : Entry I O :=
  ⟨.returnEntry elem.output, id, elem.ret, elem.clientId⟩

/-- The entries as they are appended. -/
def appendEntries (history : List (Operation I O)) : List (Entry I O) :=
  history.zipIdx.flatMap fun (elem, id) => [callEntry elem id, returnEntry elem id]

/-- What `makeEntries` may return.  Sorting leaves open where entries of the same kind and
time go. -/
structure MakesEntries (history : List (Operation I O)) (entries : List (Entry I O)) : Prop where
  perm : entries.Perm (appendEntries history)
  sorted : entries.Pairwise fun before after => after.less before = false

def makeEntries (history : List (Operation I O)) : List (Entry I O) :=
  (appendEntries history).insertionSort fun a b => b.less a = false

/-! ## Nodes -/

structure Node (I O : Type) where
  value : Option (EntryValue I O) := none
  /-- The node of the return; there is none for a return. -/
  matching : Option Nat := none
  id : Int := 0

/-- The number of the operation as an index. -/
def Node.index (node : Node I O) : Option Nat :=
  node.id.toNat?

structure Heap (I O : Type) where
  nodes : Nat → Node I O := fun _ => {}
  links : Links Nat := ⟨fun _ => none, fun _ => none⟩

def insertBefore (links : Links Nat) (n : Nat) (mark : Option Nat) : Links Nat :=
  match mark with
  | none => links
  | some mark =>
      let beforeMark := links.prev mark
      let links : Links Nat :=
        ⟨Function.update links.next n (some mark), Function.update links.prev mark (some n)⟩
      match beforeMark with
      | none => links
      | some before =>
          ⟨Function.update links.next before (some n), Function.update links.prev n (some before)⟩

/-- A new node, put before the mark. -/
def Heap.insert (heap : Heap I O) (n : Nat) (node : Node I O) (mark : Option Nat) : Heap I O where
  nodes := Function.update heap.nodes n node
  links := insertBefore heap.links n mark

def length (links : Links Nat) : Nat → Option Nat → Outcome Nat
  | _, none => .ok 0
  | 0, some _ => .blocked
  | fuel + 1, some n => (length links fuel (links.next n)).map (· + 1)

/-- The variables of `makeLinkedEntries`.  The node of an entry has the index of the entry as
its address. -/
structure Linked (I O : Type) where
  heap : Heap I O := {}
  root : Option Nat := none
  returnOf : Nat → Option Nat := fun _ => none

def Linked.insert (made : Linked I O) (elem : Entry I O) (i : Nat) : Linked I O :=
  if elem.isReturn then
    { heap := made.heap.insert i ⟨some elem.value, none, elem.id⟩ made.root
      root := some i
      returnOf := Function.update made.returnOf elem.id (some i) }
  else
    { made with
      heap := made.heap.insert i ⟨some elem.value, made.returnOf elem.id, elem.id⟩ made.root
      root := some i }

def makeLinkedEntries (entries : List (Entry I O)) : Linked I O :=
  entries.zipIdx.foldr (fun (elem, i) made => made.insert elem i) {}

def Heap.lift (heap : Heap I O) (entry : Nat) : Option (Heap I O) := do
  let _ ← heap.links.next entry
  let links ← heap.links.unlink entry
  let matching ← (heap.nodes entry).matching
  let links ← links.unlink matching
  some { heap with links := links }

def Heap.unlift (heap : Heap I O) (entry : Nat) : Option (Heap I O) := do
  let matching ← (heap.nodes entry).matching
  let links ← heap.links.relink matching
  let _ ← links.next entry
  let links ← links.relink entry
  some { heap with links := links }

/-! ## The search -/

structure CacheEntry (S : Type) where
  linearized : Bitset
  state : S

def cacheContains (model : Filled S I O) (cache : BitVec 64 → List (CacheEntry S))
    (entry : CacheEntry S) : Bool :=
  (cache entry.linearized.hash).any fun elem =>
    entry.linearized.equals elem.linearized && model.equal entry.state elem.state

structure CallsEntry (S : Type) where
  entry : Nat
  state : S

/-- For each operation a pointer to a sequence of operations, and the sequences. -/
structure Longest where
  seqs : List (List Int) := []
  refs : List (Option Nat)
  deriving DecidableEq

/-- Point to the new sequence from the operation, if it is longer than what is there. -/
def Longest.point (seqs : List (List Int)) (new callsLen : Nat) (refs : List (Option Nat))
    (id : Int) : Option (List (Option Nat)) := do
  let k ← id.toNat?
  let old ← refs[k]?
  match old with
  | none => some (refs.set k (some new))
  | some ref =>
      let found ← seqs[ref]?
      if callsLen > found.length then some (refs.set k (some new)) else some refs

/-- Point to the sequence from its operations. -/
def Longest.note (longest : Longest) (seq : List Int) : Option Longest := do
  let seqs := longest.seqs ++ [seq]
  let refs ← seq.foldlM (Longest.point seqs longest.seqs.length seq.length) longest.refs
  some ⟨seqs, refs⟩

/-- Point to the sequence from all operations. -/
def Longest.fill (longest : Longest) (seq : List Int) : Longest where
  seqs := longest.seqs ++ [seq]
  refs := longest.refs.map fun _ => some longest.seqs.length

/-- The variables of `checkSingle`. -/
structure Search (S I O : Type) where
  heap : Heap I O
  entry : Option Nat
  linearized : Bitset
  cache : BitVec 64 → List (CacheEntry S) := fun _ => []
  calls : List (CallsEntry S) := []
  longest : Longest
  state : S
  headEntry : Nat

namespace Search

/-- The operations that have been placed. -/
def seq (t : Search S I O) : List Int :=
  t.calls.map fun v => (t.heap.nodes v.entry).id

def step (model : Filled S I O) (t : Search S I O) (entry matching : Nat) : Option (Bool × S) :=
  match (t.heap.nodes entry).value, (t.heap.nodes matching).value with
  | some (.callEntry input), some (.returnEntry output) => some (model.step t.state input output)
  | _, _ => none

/-- Go on to the next entry. -/
def advance (t : Search S I O) (entry : Nat) : Search S I O :=
  { t with entry := t.heap.links.next entry }

/-- Place the operation. -/
def push (t : Search S I O) (entry : Nat) (newEntry : CacheEntry S) : Option (Search S I O) := do
  let hash := newEntry.linearized.hash
  let heap ← t.heap.lift entry
  some { t with
    heap := heap
    entry := heap.links.next t.headEntry
    linearized := newEntry.linearized
    cache := Function.update t.cache hash (t.cache hash ++ [newEntry])
    calls := t.calls ++ [⟨entry, t.state⟩]
    state := newEntry.state }

def notePartial (computePartial : Bool) (t : Search S I O) : Option Longest :=
  if computePartial then t.longest.note t.seq else some t.longest

/-- Take back the operation that was placed last. -/
def pop (computePartial : Bool) (t : Search S I O) (callsTop : CallsEntry S) :
    Option (Search S I O) := do
  let longest ← t.notePartial computePartial
  let id ← (t.heap.nodes callsTop.entry).index
  let linearized ← t.linearized.clear id
  let heap ← t.heap.unlift callsTop.entry
  some { t with
    heap := heap
    entry := heap.links.next callsTop.entry
    linearized := linearized
    calls := t.calls.dropLast
    longest := longest
    state := callsTop.state }

/-- One turn of the loop. -/
def turn (model : Filled S I O) (computePartial kill : Bool) (t : Search S I O) :
    Option (Turn (Search S I O) (Bool × Longest)) :=
  if t.heap.links.next t.headEntry = none then some (.stop (true, t.longest.fill t.seq))
  else if kill then some (.stop (false, t.longest))
  else do
    let entry ← t.entry
    match (t.heap.nodes entry).matching with
    | some matching =>
        let (ok, newState) ← t.step model entry matching
        if ok then
          let id ← (t.heap.nodes entry).index
          let newLinearized ← t.linearized.set id
          if cacheContains model t.cache ⟨newLinearized, newState⟩ then
            some (.again (t.advance entry))
          else (t.push entry ⟨newLinearized, newState⟩).map .again
        else some (.again (t.advance entry))
    | none =>
        match t.calls.getLast? with
        | none => some (.stop (false, t.longest))
        | some callsTop => (t.pop computePartial callsTop).map .again

def initial (model : Filled S I O) (history : List (Entry I O)) (n : Nat) : Search S I O :=
  let made := makeLinkedEntries history
  { heap := made.heap.insert history.length ⟨none, none, -1⟩ made.root
    entry := made.root
    linearized := Bitset.newBitset n
    longest := { refs := List.replicate n none }
    state := model.init
    headEntry := history.length }

end Search

/-- The fuel bounds the turns of both loops. -/
def checkSingle (model : Filled S I O) (history : List (Entry I O)) (computePartial : Bool)
    (fuel : Nat) : Outcome (Bool × Longest) :=
  let made := makeLinkedEntries history
  match length made.heap.links fuel made.root with
  | .ok l => loop (Search.turn model computePartial false) fuel
      (Search.initial model history (l / 2))
  | .blocked => .blocked
  | .panic => .panic

end DistributedLabs.Porcupine
