import DistributedLabs.Library.Locality
import DistributedLabs.Porcupine.Model
import Mathlib.Data.List.AList
import Mathlib.Data.List.Sort

/-!
# The model of a key/value store

The harness checks the histories of both services against this model.  It is a model of
one key, and histories are cut into one part for each key.
-/

namespace DistributedLabs.Models

open DistributedLabs.Library

structure KvInput where
  op : UInt8
  key : String
  value : String := ""
  deriving DecidableEq

structure KvOutput where
  value : String := ""
  deriving DecidableEq

namespace KvModel

/-- The operations of each key, in the order of the history. -/
def byKey (history : List (Porcupine.Operation KvInput KvOutput)) :
    AList fun _ : String => List (Porcupine.Operation KvInput KvOutput) :=
  history.foldl (fun m v => m.insert v.input.key ((m.lookup v.input.key).getD [] ++ [v])) ∅

def partition (history : List (Porcupine.Operation KvInput KvOutput)) :
    List (List (Porcupine.Operation KvInput KvOutput)) :=
  let m := byKey history
  (m.keys.insertionSort (· ≤ ·)).map fun k => (m.lookup k).getD []

def step (st : String) (inp : KvInput) (out : KvOutput) : Bool × String :=
  if inp.op = 0 then (out.value = st, st)
  else if inp.op = 1 then (true, inp.value)
  else if inp.op = 2 then (true, st ++ inp.value)
  else (out.value = st, st ++ inp.value)

end KvModel

def kvModel : Porcupine.Model String KvInput KvOutput where
  partition := some KvModel.partition
  init := ""
  step := KvModel.step

/-- A store that holds the empty string where nothing was written. -/
def kvObject : SeqObject (String → String) KvInput KvOutput :=
  kvModel.object.keyed KvInput.key

/-- What such a store holds when a map is behind it. -/
def contents (store : AList fun _ : String => String) (key : String) : String :=
  (store.lookup key).getD ""

theorem contents_insert (store : AList fun _ : String => String) (key value : String) :
    contents (store.insert key value) = Function.update (contents store) key value := by
  funext other
  by_cases hother : other = key
  · subst hother
    simp [contents]
  · simp [contents, AList.lookup_insert_ne hother, Function.update_of_ne hother]

end DistributedLabs.Models
