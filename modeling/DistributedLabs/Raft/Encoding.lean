import DistributedLabs.Raft.Moves
import DistributedLabs.Raft.Sharing

/-!
# Requests that are encoded as they were built

A request is encoded as it was built if it is encoded before its sender's log has changed.
Encoding every request at once turns each run of a cluster without the arrays into a run
with them.  A cluster whose requests carry copies therefore has exactly the runs in which
every log request is encoded as it was built.
-/

namespace DistributedLabs

open DistributedLabs.Library

variable {n : Nat} {C : Type}

namespace Cluster

variable {s s' : Cluster n C} {action : Action n C}

theorem step_ends {k : Nat} (hends : action = .answer k ∨ action = .fail k)
    (h : s.step action = .ok s') : s'.net = s.net.eraseIdx k := by
  rcases hends with rfl | rfl
  · simp only [step, answer] at h
    split at h
    · split at h
      · obtain ⟨after, _, rfl⟩ := Outcome.map_eq_ok.mp h
        rfl
      · cases h
        rfl
    · cases h
  · simp only [step, fail] at h
    split at h
    · split at h
      · cases h
        rfl
      · cases h
        rfl
    · cases h

/-- An action that ends no call leaves all calls in their places. -/
theorem step_grows (hgoes : ∀ k, ¬ (action = .answer k ∨ action = .fail k))
    (h : s.step action = .ok s') : s.net.length ≤ s'.net.length ∧
      ∀ flight ∈ s'.net.drop s.net.length, s.Sent action flight := by
  cases step_effect h with
  | moved _ | crashed _ => simp [setPeer]
  | sent _ sent => simpa using sent
  | @executed k flight rf msg _ _ =>
      have hnil : (s.net.set k { flight with msg := msg }).drop s.net.length = [] :=
        List.drop_eq_nil_of_le (Nat.le_of_eq List.length_set)
      simp [hnil]
  | returned ended _ | dropped ended => exact absurd ended (hgoes _)

/-- A slice that a request has just taken holds the entries of the request. -/
theorem read_sent {arrays : Fin n → Backing (LogEntry C)} {flight : Flight n C}
    {args : SendLogArgs n C} {recodeNextIndex : Int} {view : View}
    (h : s.step action = .ok s') (hsent : s.Sent action flight)
    (hmsg : flight.msg = .logRequest args recodeNextIndex)
    (hbacked : ∀ p, (s'.peers p).log <+: (arrays p).present)
    (hview : flight.view s'.peers arrays = some view) :
    (arrays flight.src).read view args.entries.length = args.entries := by
  rcases hsent with ⟨_, hvote⟩ | ⟨request, recode, prepared, jobs, rfl, hrun, hjob, hrequest⟩ |
    ⟨_, _, _, _, _, hinstall⟩
  · rw [hmsg] at hvote
    cases hvote
  · rw [hmsg] at hrequest
    cases hrequest
    obtain ⟨_, _, first, preLog, entries, hfirst, _, hlow, rfl⟩ := Raft.job_builds hrun hjob
    have hsame : (s'.peers flight.src).log = (s.peers flight.src).log := by
      simp only [step, sendLogTicketCore, hrun] at h
      cases h
      rw [setPeer_self, (Raft.sendLogTicketCore_cases hrun).1.eq]
    have hentries :
        entries = (s.peers flight.src).log.drop (recodeNextIndex - first.index).toNat := by
      unfold Slice.low at hlow
      split at hlow
      · exact (Option.some.inj hlow).symm
      · cases hlow
    have hfirst' : (s'.peers flight.src).getFirstLog = some first := by
      rw [Raft.getFirstLog, hsame]
      exact hfirst
    rw [Flight.view, hmsg] at hview
    simp only [hfirst', Option.map_some, Option.some.injEq] at hview
    subst hview
    subst hentries
    have hback := hbacked flight.src
    rw [hsame] at hback
    exact Backing.read_view hback _
  · rw [hmsg] at hinstall
    cases hinstall

end Cluster

namespace SharedCluster

variable {s s' : SharedCluster n C}

/-- Every request that waits to be encoded is as it was built. -/
structure AsBuilt (s : SharedCluster n C) : Prop where
  backed : ∀ p, (s.base.peers p).log <+: (s.arrays p).present
  aligned : s.views.length = s.base.net.length
  unchanged : ∀ k view, s.views[k]? = some (some view) →
    s.encoded Cluster.host k = s.base.net[k]?

/-- No request waits to be encoded. -/
structure Settled (s : SharedCluster n C) : Prop extends AsBuilt s where
  encoded : ∀ view ∈ s.views, view = none

theorem settled_initial : Settled (initial : SharedCluster n C) where
  backed := fun _ => List.prefix_refl _
  aligned := rfl
  unchanged := by
    intro k view hview
    cases hview
  encoded := by
    intro view hmem
    cases hmem

/-- Nothing but encodings, each of a request as it was built. -/
def Encodes (s s' : SharedCluster n C) : Prop :=
  ∃ actions, RunsIf step EncodedAsBuilt s actions s' ∧
    actions.filterMap SharedAction.seen = [] ∧ s'.base = s.base

theorem Encodes.trans {t : SharedCluster n C} (h : Encodes s t) (h' : Encodes t s') :
    Encodes s s' := by
  obtain ⟨front, hfront, hnone, hbase⟩ := h
  obtain ⟨back, hback, hnone', hbase'⟩ := h'
  refine ⟨front ++ back, hfront.append hback, ?_, hbase'.trans hbase⟩
  rw [List.filterMap_append, hnone, hnone', List.append_nil]

/-- Encode one request. -/
theorem AsBuilt.encode (h : AsBuilt s) {k : Nat} {view : View}
    (hview : s.views[k]? = some (some view)) :
    ∃ s', Encodes s s' ∧ s'.views = s.views.set k none ∧ AsBuilt s' := by
  have hlength : k < s.base.net.length := by
    rw [← h.aligned]
    exact (List.getElem?_eq_some_iff.mp hview).1
  have hencoded := (h.unchanged k view hview).trans (List.getElem?_eq_getElem hlength)
  let after : SharedCluster n C := { s with views := s.views.set k none }
  have hstep : step s (.encode k) = .ok after := by
    show s.encode Cluster.host k = .ok after
    rw [Shared.encode, hencoded]
    show Outcome.ok { s with
      base := { s.base with net := s.base.net.set k s.base.net[k] }
      views := s.views.set k none } = .ok after
    rw [List.set_getElem_self hlength]
  have hbuilt : EncodedAsBuilt s (.encode k) := by
    intro flight hflight
    rw [Option.mem_def, hencoded] at hflight
    exact (List.getElem?_eq_getElem hlength).trans hflight
  refine ⟨after, ⟨[.encode k], RunsIf.refl.tail hbuilt hstep, rfl, rfl⟩, rfl, h.backed, ?_, ?_⟩
  · rw [← h.aligned]
    exact List.length_set
  · intro j other hother
    by_cases hj : k = j
    · subst hj
      rw [List.getElem?_set_self (by rw [h.aligned]; exact hlength)] at hother
      cases hother
    · have hsame : after.views[j]? = s.views[j]? := List.getElem?_set_ne hj
      rw [hsame] at hother
      rw [← h.unchanged j other hother]
      simp only [Shared.encoded, hsame]
      rfl

/-- Encode all requests that wait for it. -/
theorem AsBuilt.settle (h : AsBuilt s) : ∃ s', Encodes s s' ∧ Settled s' := by
  induction hcount : s.views.countP Option.isSome generalizing s with
  | zero =>
      refine ⟨s, ⟨[], RunsIf.refl, rfl, rfl⟩, h, fun view hmem => ?_⟩
      have hnone := List.countP_eq_zero.mp hcount view hmem
      simpa using hnone
  | succ m ih =>
      have hpos : 0 < s.views.countP Option.isSome := by omega
      obtain ⟨view, hmem, hsome⟩ := List.countP_pos_iff.mp hpos
      obtain ⟨slice, rfl⟩ := Option.isSome_iff_exists.mp hsome
      obtain ⟨k, hk⟩ := List.mem_iff_getElem?.mp hmem
      obtain ⟨t, hencodes, hviews, ht⟩ := h.encode hk
      have hless : t.views.countP Option.isSome = m := by
        rw [hviews, List.countP_set (List.getElem?_eq_some_iff.mp hk).1,
          (List.getElem?_eq_some_iff.mp hk).2, hcount]
        rfl
      obtain ⟨s', hencodes', hs'⟩ := ih ht hless
      exact ⟨s', hencodes.trans hencodes', hs'⟩

theorem followViews_ends {action : Action n C} {t : Cluster n C}
    {arrays : Fin n → Backing (LogEntry C)} {k : Nat}
    (hends : action = .answer k ∨ action = .fail k) :
    s.followViews Cluster.host (some action) t arrays = s.views.eraseIdx k := by
  rcases hends with rfl | rfl
  · rfl
  · rfl

theorem followViews_goes {action : Action n C} {t : Cluster n C}
    {arrays : Fin n → Backing (LogEntry C)}
    (hgoes : ∀ k, ¬ (action = .answer k ∨ action = .fail k)) :
    s.followViews Cluster.host (some action) t arrays =
      s.views ++ (t.net.drop s.base.net.length).map (Flight.view t.peers arrays) := by
  cases action with
  | answer k => exact absurd (Or.inl rfl) (hgoes k)
  | fail k => exact absurd (Or.inr rfl) (hgoes k)
  | _ => rfl

/-- What is read for a request that has just been sent is the request. -/
theorem encoded_sent {action : Action n C} {flight : Flight n C} {view : View} {k : Nat}
    (hstep : s.base.step action = .ok s'.base) (hsent : s.base.Sent action flight)
    (hbacked : ∀ p, (s'.base.peers p).log <+: (s'.arrays p).present)
    (hslice : flight.view s'.base.peers s'.arrays = some view)
    (hflight : s'.base.net[k]? = some flight) (hview : s'.views[k]? = some (some view)) :
    s'.encoded Cluster.host k = some flight := by
  have hnet : (Cluster.host.cluster s'.base).net[k]? = some flight := hflight
  cases hmsg : flight.msg with
  | logRequest args recodeNextIndex =>
      have hread := Cluster.read_sent hstep hsent hmsg hbacked hslice
      simp only [Shared.encoded, hnet, hview, hmsg, Option.bind_eq_bind, Option.bind_some,
        Option.join_some, hread, Option.some.injEq]
      rw [← hmsg]
  | _ =>
      rw [Flight.view, hmsg] at hslice
      cases hslice

/-- An action of the cluster keeps the slices beside the calls, and a new slice is as it was
built. -/
theorem Settled.follow (h : Settled s) {action : Action n C} {t : Cluster n C}
    (hstep : s.base.step action = .ok t) (full : Bool) :
    AsBuilt (s.follow Cluster.host action full t) := by
  have hbacked : ∀ p, (t.peers p).log <+:
      ((s.base.peers p).followLog (t.peers p) full (s.arrays p)).present := by
    intro p
    unfold Raft.followLog
    split
    · exact Backing.prefix_append _ _ _
    · exact List.prefix_refl _
  by_cases hends : ∃ k, action = .answer k ∨ action = .fail k
  · obtain ⟨k, hends⟩ := hends
    have hviews : (s.follow Cluster.host action full t).views = s.views.eraseIdx k :=
      followViews_ends hends
    refine ⟨hbacked, ?_, fun j view hview => ?_⟩
    · show (s.follow Cluster.host action full t).views.length = t.net.length
      rw [hviews, Cluster.step_ends hends hstep, List.length_eraseIdx, List.length_eraseIdx,
        h.aligned]
    · rw [hviews] at hview
      cases h.encoded _ (List.mem_of_mem_eraseIdx (List.mem_of_getElem? hview))
  · have hgoes : ∀ k, ¬ (action = .answer k ∨ action = .fail k) := fun k hk => hends ⟨k, hk⟩
    obtain ⟨hlength, hsent⟩ := Cluster.step_grows hgoes hstep
    have hviews : (s.follow Cluster.host action full t).views = _ := followViews_goes hgoes
    refine ⟨hbacked, ?_, fun j view hview => ?_⟩
    · show (s.follow Cluster.host action full t).views.length = t.net.length
      rw [hviews, List.length_append, List.length_map, List.length_drop, h.aligned]
      exact Nat.add_sub_cancel' hlength
    · have hfound := hview
      rw [hviews] at hview
      rcases Nat.lt_or_ge j s.views.length with hj | hj
      · rw [List.getElem?_append_left hj] at hview
        cases h.encoded _ (List.mem_of_getElem? hview)
      · rw [List.getElem?_append_right hj, List.getElem?_map, h.aligned] at hview
        obtain ⟨flight, hflight, hslice⟩ := Option.map_eq_some_iff.mp hview
        have hnew := hsent flight (List.mem_of_getElem? hflight)
        rw [List.getElem?_drop, Nat.add_sub_cancel' (h.aligned ▸ hj)] at hflight
        have hencoded :
            (s.follow Cluster.host action full t).encoded Cluster.host j = some flight :=
          encoded_sent hstep hnew hbacked hslice hflight hfound
        exact hencoded.trans hflight.symm

/-- An action of the cluster can be taken when all requests have been encoded. -/
theorem Settled.own (h : Settled s) {action : Action n C} {t : Cluster n C}
    (hstep : s.base.step action = .ok t) :
    ∃ s', step s (.own action false) = .ok s' ∧ s'.base = t ∧ AsBuilt s' := by
  have hnone : ∀ k : Nat, s.views[k]?.join = none := by
    intro k
    cases hk : s.views[k]? with
    | none => rfl
    | some view => exact h.encoded view (List.mem_of_getElem? hk)
  have hfree : s.awaits (some action) = false := by
    unfold Shared.awaits
    split
    · simp [Shared.unencoded, hnone]
    · simp [Shared.unencoded, hnone]
    · rfl
  exact ⟨_, step_eq_follow false hfree hstep, rfl, h.follow hstep false⟩

/-- A run of the cluster goes on with every request encoded as soon as it is built. -/
theorem Settled.exists_runs (h : Settled s) {actions : List (Action n C)} {t : Cluster n C}
    (hrun : Runs Cluster.step s.base actions t) : ∃ shared s',
      RunsIf step EncodedAsBuilt s shared s' ∧ shared.filterMap SharedAction.seen = actions ∧
        s'.base = t ∧ Settled s' := by
  generalize hstart : s.base = start at hrun
  induction hrun with
  | refl => exact ⟨[], s, RunsIf.refl, rfl, hstart, h⟩
  | @tail _ _ _ action _ _ taken ih =>
      obtain ⟨shared, u, hshared, hseen, rfl, hu⟩ := ih
      obtain ⟨u', hstep, hbase, hbuilt⟩ := hu.own taken
      have hallowed : EncodedAsBuilt u (.own action false) := trivial
      obtain ⟨s', ⟨encodings, hencodings, hnone, hsame⟩, hs'⟩ := hbuilt.settle
      refine ⟨shared ++ [.own action false] ++ encodings, s',
        (hshared.tail hallowed hstep).append hencodings, ?_, hsame.trans hbase, hs'⟩
      rw [List.filterMap_append, List.filterMap_append, hseen, hnone, List.append_nil]
      rfl

/-- The states of a cluster whose requests carry copies are those that are reached when every
log request is encoded as it was built. -/
theorem reachable_iff {t : Cluster n C} :
    Cluster.Reachable t ↔ ∃ s, BuiltReachable s ∧ s.base = t := by
  constructor
  · intro hreach
    obtain ⟨actions, hrun⟩ := Reaches.exists_runs hreach
    obtain ⟨shared, s, hshared, _, hbase, _⟩ := settled_initial.exists_runs hrun
    exact ⟨s, ⟨shared, hshared⟩, hbase⟩
  · rintro ⟨s, hbuilt, rfl⟩
    exact hbuilt.reachable

end SharedCluster

end DistributedLabs
