import DistributedLabs.Library.Backing
import DistributedLabs.Raft.Cluster

/-!
# Requests that share the array of a log

`sendLogTicketCore` does not copy what it sends: `Entries` is a slice of `rf.log`, and the
request and the log have one array.  The array is read when the goroutine of the call
encodes the request.  That goroutine does not hold the lock, and until it runs
`RequestSendLog` and `Start` may have written other entries into the slots.

`Shared` puts the arrays beside a machine that has a cluster in it.  A request is in the
network from the moment it is built, with the entries it was built with; it cannot be
executed before it has been encoded, and encoding gives it the entries that its slots hold
by then.  The number of the entries, and the rest of the request, are copies.  A machine in
which every request is encoded as it was built takes the steps that it takes without the
arrays.
-/

namespace DistributedLabs

open DistributedLabs.Library

variable {n : Nat} {C H A : Type}

/-- The array of a log after a step.  `Make`, `Snapshot` and `RequestInstallSnapShot` build a
log in a new array, and they are told by the incarnation or the first index; what `Start` and
`RequestSendLog` do to a log is to append to a part of it. -/
def Raft.followLog (before after : Raft n C) (full : Bool) (array : Backing (LogEntry C)) :
    Backing (LogEntry C) :=
  if after.incarnation = before.incarnation ∧
      after.log.head?.map LogEntry.index = before.log.head?.map LogEntry.index then
    array.append after.log full
  else array.allocate after.log

/-- The slice that a new request has taken of the log of its sender. -/
def Flight.view (peers : Fin n → Raft n C) (arrays : Fin n → Backing (LogEntry C))
    (flight : Flight n C) : Option View :=
  match flight.msg with
  | .logRequest _ recodeNextIndex => (peers flight.src).getFirstLog.map fun first =>
      (arrays flight.src).view (recodeNextIndex - first.index).toNat
  | _ => none

/-- A machine that has a cluster in it, and what its actions ask of the cluster's network. -/
structure Host (n : Nat) (C H A : Type) where
  step : H → A → Outcome H
  cluster : H → Cluster n C
  setNet : H → List (Flight n C) → H
  setNet_self : ∀ state, setNet state (cluster state).net = state
  asked : A → Option (Action n C)

/-- The machine with the arrays of the logs and, for every call in the network, the slice of
a request that has not been encoded yet. -/
structure Shared (n : Nat) (C H : Type) where
  base : H
  arrays : Fin n → Backing (LogEntry C)
  views : List (Option View)

/-- An action of the machine itself, or the encoding of a request.  If an append needs more
room than was ever used, `full` says that the array has none. -/
inductive SharedAction (A : Type) where
  | own (action : A) (full : Bool)
  | encode (k : Nat)

/-- What the machine without the arrays sees of an action. -/
def SharedAction.seen : SharedAction A → Option A
  | .own action _ => some action
  | .encode _ => none

namespace Shared

section

variable (host : Host n C H A)

def start (base : H) : Shared n C H where
  base := base
  arrays := fun p => ⟨[], ((host.cluster base).peers p).log⟩
  views := (host.cluster base).net.map fun _ => none

/-- The call has a request that has not been encoded. -/
def unencoded (s : Shared n C H) (k : Nat) : Bool :=
  s.views[k]?.join.isSome

/-- The network cannot execute a request, or give up on it, before it has been encoded. -/
def awaits (s : Shared n C H) : Option (Action n C) → Bool
  | some (.deliver k) | some (.fail k) => s.unencoded k
  | _ => false

/-- The slices of the calls after an action: a call that has ended is gone, and new calls are
at the end of the network. -/
def followViews (s : Shared n C H) (asked : Option (Action n C)) (after : Cluster n C)
    (arrays : Fin n → Backing (LogEntry C)) : List (Option View) :=
  match asked with
  | some (.answer k) | some (.fail k) => s.views.eraseIdx k
  | _ => s.views ++
      (after.net.drop (host.cluster s.base).net.length).map (Flight.view after.peers arrays)

def follow (s : Shared n C H) (action : A) (full : Bool) (after : H) : Shared n C H :=
  let arrays := fun p => ((host.cluster s.base).peers p).followLog
    ((host.cluster after).peers p) full (s.arrays p)
  { base := after
    arrays := arrays
    views := s.followViews host (host.asked action) (host.cluster after) arrays }

/-- The request of the call with the entries that its slots hold now. -/
def encoded (s : Shared n C H) (k : Nat) : Option (Flight n C) := do
  let flight ← (host.cluster s.base).net[k]?
  let view ← s.views[k]?.join
  match flight.msg with
  | .logRequest args recodeNextIndex =>
      let entries := (s.arrays flight.src).read view args.entries.length
      some { flight with msg := .logRequest { args with entries := entries } recodeNextIndex }
  | _ => none

def encode (s : Shared n C H) (k : Nat) : Outcome (Shared n C H) :=
  match s.encoded host k with
  | some flight => .ok { s with
      base := host.setNet s.base ((host.cluster s.base).net.set k flight)
      views := s.views.set k none }
  | none => .blocked

def step (s : Shared n C H) : SharedAction A → Outcome (Shared n C H)
  | .own action full =>
      if s.awaits (host.asked action) = true then .blocked
      else (host.step s.base action).map (s.follow host action full)
  | .encode k => s.encode host k

/-- Every log request is encoded as it was built, and the machine's own actions meet the
condition. -/
def Meets (allowed : H → A → Prop) (s : Shared n C H) : SharedAction A → Prop
  | .own action _ => allowed s.base action
  | .encode k => ∀ flight ∈ s.encoded host k, (host.cluster s.base).net[k]? = some flight

instance [DecidableEq C] (allowed : H → A → Prop) [∀ s a, Decidable (allowed s a)]
    (s : Shared n C H) (action : SharedAction A) : Decidable (s.Meets host allowed action) :=
  match action with
  | .own action _ => inferInstanceAs (Decidable (allowed s.base action))
  | .encode k => inferInstanceAs (Decidable (∀ flight ∈ s.encoded host k, _))

end

/-- The actions, with every request encoded right before it is executed. -/
def promptly (host : Host n C H A) (actions : List A) : List (SharedAction A) :=
  actions.flatMap fun action =>
    match host.asked action with
    | some (.deliver k) => [.encode k, .own action false]
    | _ => [.own action false]

variable {host : Host n C H A} {s s' : Shared n C H}

/-- An encoding that changes nothing cannot be seen. -/
theorem encode_asBuilt {k : Nat} (hstep : s.encode host k = .ok s')
    (hbuilt : ∀ flight ∈ s.encoded host k, (host.cluster s.base).net[k]? = some flight) :
    s'.base = s.base := by
  unfold encode at hstep
  split at hstep
  · next flight hencoded =>
      cases hstep
      have hsame : (host.cluster s.base).net.set k flight = (host.cluster s.base).net := by
        obtain ⟨hk, hget⟩ := List.getElem?_eq_some_iff.mp (hbuilt flight hencoded)
        rw [← hget]
        exact List.set_getElem_self hk
      show host.setNet s.base _ = s.base
      rw [hsame]
      exact host.setNet_self s.base
  · cases hstep

theorem step_own {action : A} {full : Bool} (hstep : s.step host (.own action full) = .ok s') :
    host.step s.base action = .ok s'.base := by
  simp only [step] at hstep
  split at hstep
  · cases hstep
  · obtain ⟨after, hafter, rfl⟩ := Outcome.map_eq_ok.mp hstep
    exact hafter

/-- Without its arrays the run is a run of the machine. -/
theorem runsIf_base {allowed : H → A → Prop} {actions : List (SharedAction A)}
    (hrun : RunsIf (step host) (Meets host allowed) s actions s') :
    RunsIf host.step allowed s.base (actions.filterMap SharedAction.seen) s'.base := by
  refine RunsIf.project base (fun {t a t'} hmeets hstep => ?_) hrun
  cases a with
  | own action full => exact Or.inl ⟨action, rfl, hmeets, step_own hstep⟩
  | encode k => exact Or.inr ⟨rfl, encode_asBuilt hstep hmeets⟩

end Shared

/-! ## A cluster and its arrays -/

namespace Cluster

/-- A cluster on its own. -/
def host : Host n C (Cluster n C) (Action n C) where
  step := step
  cluster := id
  setNet := fun s net => { s with net := net }
  setNet_self := fun _ => rfl
  asked := some

end Cluster

abbrev SharedCluster (n : Nat) (C : Type) := Shared n C (Cluster n C)

namespace SharedCluster

def step (s : SharedCluster n C) : SharedAction (Action n C) → Outcome (SharedCluster n C) :=
  Shared.step Cluster.host s

def initial : SharedCluster n C :=
  Shared.start Cluster.host Cluster.initial

/-- Every log request is encoded as it was built. -/
def EncodedAsBuilt (s : SharedCluster n C) : SharedAction (Action n C) → Prop :=
  s.Meets Cluster.host fun _ _ => True

instance [DecidableEq C] (s : SharedCluster n C) (action : SharedAction (Action n C)) :
    Decidable (EncodedAsBuilt s action) :=
  inferInstanceAs (Decidable (s.Meets Cluster.host _ action))

/-- A run in which every log request is encoded as it was built. -/
def BuiltRun (s s' : SharedCluster n C) : Prop :=
  ∃ actions, RunsIf step EncodedAsBuilt s actions s'

def BuiltReachable (s : SharedCluster n C) : Prop :=
  BuiltRun initial s

variable {s t s' : SharedCluster n C}

theorem runs_base {actions : List (SharedAction (Action n C))}
    (hrun : RunsIf step EncodedAsBuilt s actions s') :
    Runs Cluster.step s.base (actions.filterMap SharedAction.seen) s'.base := by
  have hshared : RunsIf (Shared.step Cluster.host) (Shared.Meets Cluster.host fun _ _ => True)
      s actions s' := hrun
  exact Shared.runsIf_base hshared

theorem BuiltRun.reaches (h : BuiltRun s s') : Reaches Cluster.step s.base s'.base := by
  obtain ⟨actions, hrun⟩ := h
  exact (runs_base hrun).reaches

theorem BuiltReachable.reachable (h : BuiltReachable s) : Cluster.Reachable s.base :=
  BuiltRun.reaches h

theorem BuiltRun.trans (h : BuiltRun s t) (h' : BuiltRun t s') : BuiltRun s s' := by
  obtain ⟨front, hfront⟩ := h
  obtain ⟨back, hback⟩ := h'
  exact ⟨front ++ back, hfront.append hback⟩

theorem step_eq_follow {action : Action n C} {base : Cluster n C} (full : Bool)
    (hfree : s.awaits (some action) = false) (hstep : s.base.step action = .ok base) :
    step s (.own action full) = .ok (s.follow Cluster.host action full base) := by
  show (if s.awaits (some action) = true then _ else _) = _
  rw [hfree, if_neg Bool.false_ne_true]
  exact Outcome.map_eq_ok.mpr ⟨base, hstep, rfl⟩

theorem BuiltRun.own {action : Action n C} {full : Bool} (h : BuiltRun s t)
    (hstep : step t (.own action full) = .ok s') : BuiltRun s s' := by
  obtain ⟨actions, hrun⟩ := h
  have hallowed : EncodedAsBuilt t (.own action full) := trivial
  exact ⟨actions ++ [.own action full], hrun.tail hallowed hstep⟩

/-! ## Runs with a late encoding -/

/-- The peers of a cluster of seven are written as numerals. -/
instance neZeroSeven : @NeZero Nat Zero.ofOfNat0 7 :=
  ⟨Nat.succ_ne_zero 6⟩

/-- Actions of the cluster for which the arrays have room. -/
def own (actions : List (Action n C)) : List (SharedAction (Action n C)) :=
  actions.map (.own · false)

/-- A request is encoded, executed and answered. -/
def call (k : Nat) : List (SharedAction (Action n C)) :=
  [.encode k, .own (.deliver k) false, .own (.answer k) false]

/-- Peer 0 of seven wins the first term with the votes of 1, 2 and 3 and takes two commands.
Its array doubles for each of them and then has a free slot. -/
def leadFirst : List (SharedAction (Action 7 Nat)) :=
  own [.ticker 0, .deliver 0, .answer 0, .deliver 0, .answer 0, .deliver 0, .answer 0, .fail 0,
    .fail 0, .fail 0, .concludeElection 0 0] ++
  [.own (.start 0 (some 11)) true, .own (.start 0 (some 12)) true]

/-- Peer 0 builds requests with both entries.  The one for 3 is encoded at once.  Peer 1 wins
the second term with the votes of 4, 5 and 6, and its entry goes into the first slot of the
entries that 0 has sent.  Then the request for 2 is encoded and executed. -/
def encodeLate : List (SharedAction (Action 7 Nat)) :=
  leadFirst ++ own [.sendLogTicketCore 0] ++ [.encode 2, .own (.deliver 2) false] ++
  own [.ticker 1, .deliver 9, .deliver 10, .deliver 11, .answer 9, .answer 9, .answer 9,
    .concludeElection 1 0, .start 1 (some 21), .sendLogTicketCore 1] ++
  [.encode 9, .own (.deliver 9) false, .encode 1, .own (.deliver 1) false]

/-- Peer 3 wins the third term with the votes of 4, 5 and 6.  It commits an entry with the
help of 2, whose log agrees with its own at index 2, and of 4 and 5, which get the whole log. -/
def commitOver : List (SharedAction (Action 7 Nat)) :=
  encodeLate ++ own [.ticker 3, .ticker 3, .deliver 24, .deliver 25, .deliver 26, .answer 24,
    .answer 24, .answer 24, .concludeElection 3 1, .start 3 (some 31), .sendLogTicketCore 3] ++
  call 26 ++ call 26 ++ call 26 ++ own [.sendLogTicketCore 3] ++ call 30 ++ call 30

/-- Peer 2 hears of the commit index. -/
def followOver : List (SharedAction (Action 7 Nat)) :=
  commitOver ++ own [.sendLogTicketCore 3] ++ [.encode 33, .own (.deliver 33) false]

/-- Peer 0 builds a request with three entries for 2, and peer 3 takes a command in term 2.
Peer 1 wins term 3 and writes two entries over those of 0 before the request is encoded: 2
has the two entries of term 3 and behind them the third one of term 1.  It acknowledges the
two, with 0 and 4, and 4 hears that they are committed.  But the last term of 2 is 1, and so
it votes for 3 in term 4. -/
def voteBehind : List (SharedAction (Action 7 Nat)) :=
  leadFirst ++ own [.start 0 (some 13), .sendLogTicketCore 0, .ticker 3, .deliver 9, .deliver 10,
    .deliver 11, .answer 9, .answer 9, .answer 9, .concludeElection 3 0, .start 3 (some 21),
    .ticker 1, .ticker 1, .deliver 18, .deliver 19, .deliver 20, .answer 18, .answer 18,
    .answer 18, .concludeElection 1 1, .start 1 (some 31), .start 1 (some 32),
    .sendLogTicketCore 1] ++
  call 18 ++ [.encode 1, .own (.deliver 1) false] ++ call 18 ++ call 19 ++
  own [.sendLogTicketCore 1] ++ [.encode 24, .own (.deliver 24) false] ++
  own [.deliver 17, .ticker 3, .deliver 29, .deliver 31, .deliver 32, .answer 29, .answer 30,
    .answer 30, .concludeElection 3 0, .sendLogTicketCore 3] ++
  call 33 ++ own [.sendLogTicketCore 3] ++ [.encode 38]

end SharedCluster

end DistributedLabs
