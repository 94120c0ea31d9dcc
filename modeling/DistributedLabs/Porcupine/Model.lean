import DistributedLabs.Library.Linearizability

/-!
# Models and operations

What the checker is given: a model of the system and the operations of a history.
Functions of a model may be nil, and `fillDefault` replaces those that are.
-/

namespace DistributedLabs.Porcupine

open DistributedLabs.Library (SeqObject)

structure Operation (I O : Type) extends Library.Operation Int I O where
  clientId : Int := 0
  deriving DecidableEq

structure Model (S I O : Type) where
  partition : Option (List (Operation I O) → List (List (Operation I O))) := none
  init : S
  step : S → I → O → Bool × S
  equal : Option (S → S → Bool) := none

variable {S I O : Type}

def noPartition (history : List (Operation I O)) : List (List (Operation I O)) :=
  [history]

def shallowEqual [DecidableEq S] (state1 state2 : S) : Bool :=
  state1 = state2

/-- A model with all functions set. -/
structure Filled (S I O : Type) where
  partition : List (Operation I O) → List (List (Operation I O))
  init : S
  step : S → I → O → Bool × S
  equal : S → S → Bool

def Model.fillDefault [DecidableEq S] (model : Model S I O) : Filled S I O where
  partition := model.partition.getD noPartition
  init := model.init
  step := model.step
  equal := model.equal.getD shallowEqual

/-- The object that takes the steps of the model. -/
def Model.object (model : Model S I O) : SeqObject S I O where
  init := model.init
  step state input output :=
    if (model.step state input output).1 then some (model.step state input output).2 else none

end DistributedLabs.Porcupine
