import DistributedLabs.Raft.Refinement.Delivery

/-!
# Counting votes

A vote request is answered at most once and its answer is counted at most once:
the calls of one election to one peer are never more than one, and a call leaves
the network when its answer is taken.
-/

namespace DistributedLabs

open DistributedLabs.Library
open DistributedLabs.Library.Replication

variable {n : Nat} {C : Type} {A A' : Protocol n C} {p : Fin n} {rf rf' : Raft n C}
  {net net' : List (Flight n C)}

/-! ## Lists with one element taken out or replaced -/

section Lists

variable {α β : Type} {items : List α} {k : Nat} {item : α}

theorem split_at (h : items[k]? = some item) :
    items = items.take k ++ item :: items.drop (k + 1) := by
  obtain ⟨hk, rfl⟩ := List.getElem?_eq_some_iff.mp h
  rw [List.getElem_cons_drop, List.take_append_drop]

theorem filterMap_split (g : α → Option β) (h : items[k]? = some item) :
    items.filterMap g = (items.take k).filterMap g ++ ((g item).toList ++
      (items.drop (k + 1)).filterMap g) := by
  conv_lhs => rw [split_at h]
  rw [List.filterMap_append, List.filterMap_cons]
  cases g item <;> rfl

theorem filterMap_eraseIdx (g : α → Option β) :
    (items.eraseIdx k).filterMap g =
      (items.take k).filterMap g ++ (items.drop (k + 1)).filterMap g := by
  rw [List.eraseIdx_eq_take_drop_succ, List.filterMap_append]

theorem filterMap_eraseIdx_sublist (g : α → Option β) :
    List.Sublist ((items.eraseIdx k).filterMap g) (items.filterMap g) :=
  (List.eraseIdx_sublist items k).filterMap g

/-- An element of a duplicate-free image is gone once its source is taken out. -/
theorem notMem_filterMap_eraseIdx {g : α → Option β} {value : β}
    (hnodup : (items.filterMap g).Nodup) (h : items[k]? = some item) (hg : g item = some value) :
    value ∉ (items.eraseIdx k).filterMap g := by
  rw [filterMap_split g h, hg, Option.toList_some, List.singleton_append] at hnodup
  rw [filterMap_eraseIdx]
  exact (List.nodup_middle.mp hnodup).notMem

theorem filterMap_set_of_eq (g : α → Option β) {item' : α} (h : items[k]? = some item)
    (hg : g item' = g item) : (items.set k item').filterMap g = items.filterMap g := by
  obtain ⟨hk, _⟩ := List.getElem?_eq_some_iff.mp h
  rw [filterMap_split g h, List.set_eq_take_append_cons_drop, if_pos hk,
    List.filterMap_append, List.filterMap_cons, hg]
  cases g item <;> rfl

end Lists

/-! ## Keys -/

theorem mem_castVotes {term : Int} {v : Fin n} :
    v ∈ castVotes A net p term ↔
      (∃ l, A.ballot term v = some (p, l)) ∧ (p, v, term) ∉ voteKeys net := by
  simp [castVotes]

theorem castVotes_subset {term : Int} (grows : Grows A A')
    (hkeys : ∀ v, (p, v, term) ∈ voteKeys net' → (p, v, term) ∈ voteKeys net) :
    castVotes A net p term ⊆ castVotes A' net' p term := by
  intro v hv
  obtain ⟨⟨l, hl⟩, hkey⟩ := mem_castVotes.mp hv
  exact mem_castVotes.mpr ⟨⟨l, grows.ballot hl⟩, fun hin => hkey (hkeys v hin)⟩

theorem Counted.mono {election : Election} (grows : Grows A A')
    (hkeys : ∀ v, (p, v, election.term) ∈ voteKeys net' → (p, v, election.term) ∈ voteKeys net)
    (h : Counted A net p election) : Counted A' net' p election :=
  ⟨Int.le_trans h.past (grows.term p),
    Nat.le_trans h.votes (Finset.card_le_card (castVotes_subset grows hkeys))⟩

/-- A call for a vote belongs to a term its candidate has reached. -/
theorem FlightRel.key_le (valid : Valid A) {flight : Flight n C} (h : FlightRel A flight)
    {v : Fin n} {term : Int} (hkey : flight.voteKey = some (p, v, term)) :
    p ≠ v ∧ term ≤ A.term p := by
  obtain ⟨hdistinct, hmsg⟩ := h
  unfold Flight.voteKey at hkey
  split at hkey
  · next args hargs =>
      rw [hargs] at hmsg
      obtain ⟨l, hl⟩ := hmsg
      simp only [Option.some.injEq, Prod.mk.injEq] at hkey
      obtain ⟨rfl, rfl, rfl⟩ := hkey
      exact ⟨hdistinct, (valid.stood_le hl.stood).2⟩
  · next args reply hargs =>
      rw [hargs] at hmsg
      obtain ⟨⟨l, hl⟩, _⟩ := hmsg
      simp only [Option.some.injEq, Prod.mk.injEq] at hkey
      obtain ⟨rfl, rfl, rfl⟩ := hkey
      exact ⟨hdistinct, (valid.stood_le hl.stood).2⟩
  · cases hkey

theorem voteKeys_le (valid : Valid A) (hflights : ∀ flight ∈ net, FlightRel A flight)
    {v : Fin n} {term : Int} (hmem : (p, v, term) ∈ voteKeys net) :
    p ≠ v ∧ term ≤ A.term p := by
  obtain ⟨flight, hin, hkey⟩ := List.mem_filterMap.mp hmem
  exact (hflights flight hin).key_le valid hkey

theorem voteKeys_voteFlights (p : Fin n) (incarnation : Nat) (args : RequestVoteArgs n) :
    voteKeys (Cluster.voteFlights (C := C) p incarnation args) =
      ((List.finRange n).filter (· ≠ p)).map fun dst => (p, dst, args.term) := by
  simp only [voteKeys, Cluster.voteFlights, List.filterMap_map]
  exact congrFun List.filterMap_eq_map _

theorem voteKeys_logFlights (p : Fin n) (incarnation : Nat) (jobs : List (SendJob n C)) :
    voteKeys (Cluster.logFlights p incarnation jobs) = [] := by
  refine List.filterMap_eq_nil_iff.mpr fun flight hmem => ?_
  obtain ⟨job, _, hjob⟩ := List.mem_filterMap.mp hmem
  cases job with
  | log dst args recodeNextIndex =>
      obtain rfl := Option.some.inj hjob
      rfl
  | snapShot dst => cases hjob

/-! ## The three moments of an election -/

/-- Standing for election sends one call to each other peer and counts the own vote. -/
theorem counted_stand (valid : Valid A) (grows : Grows A A')
    (hflights : ∀ flight ∈ net, FlightRel A flight) {args : RequestVoteArgs n}
    {incarnation : Nat} (hlt : A.term p < args.term) (hterm : A'.term p = args.term)
    (hballot : ∃ l, A'.ballot args.term p = some (p, l))
    (hvotes : ∀ election ∈ rf.elections, Counted A net p election) :
    ∀ election ∈ rf.elections ++ [({ term := args.term } : Election)],
      Counted A' (net ++ Cluster.voteFlights p incarnation args) p election := by
  intro election hmem
  have hsplit : ∀ {v term},
      (p, v, term) ∈ voteKeys (net ++ Cluster.voteFlights p incarnation args) →
      (p, v, term) ∈ voteKeys net ∨ (term = args.term ∧ v ≠ p) := by
    intro v term hin
    rw [voteKeys, List.filterMap_append, List.mem_append] at hin
    rcases hin with hold | hnew
    · exact Or.inl hold
    · rw [← voteKeys, voteKeys_voteFlights] at hnew
      obtain ⟨dst, hdst, heq⟩ := List.mem_map.mp hnew
      simp only [Prod.mk.injEq, true_and] at heq
      obtain ⟨rfl, rfl⟩ := heq
      exact Or.inr ⟨rfl, by simpa using (List.mem_filter.mp hdst).2⟩
  rcases List.mem_append.mp hmem with hold | hnew
  · refine Counted.mono grows (fun v hin => ?_) (hvotes election hold)
    rcases hsplit hin with hin | ⟨heq, _⟩
    · exact hin
    · have hpast := (hvotes election hold).past
      omega
  · rw [List.mem_singleton.mp hnew]
    refine ⟨Int.le_of_eq hterm.symm, Finset.card_pos.mpr ⟨p, mem_castVotes.mpr ⟨hballot, ?_⟩⟩⟩
    intro hin
    rcases hsplit hin with hold | ⟨_, hne⟩
    · exact absurd (voteKeys_le valid hflights hold).2 (Int.not_le.mpr hlt)
    · exact hne rfl

/-- Taking an answer out of the network and counting it. -/
theorem counted_answer (grows : Grows A A') (hnodup : (voteKeys net).Nodup) {k : Nat}
    {flight : Flight n C} {v : Fin n} {args : RequestVoteArgs n}
    {reply : Option RequestVoteReply} (hflight : net[k]? = some flight)
    (hkey : flight.voteKey = some (p, v, args.term))
    (hgranted : ∀ answer, reply = some answer → answer.voteGranted = true →
      ∃ l, A'.ballot args.term v = some (p, l))
    (hvotes : ∀ election ∈ rf.elections, Counted A net p election) :
    ∀ election ∈ (rf.countVote args reply).elections,
      Counted A' (net.eraseIdx k) p election := by
  intro election hmem
  obtain ⟨old, hold, rfl⟩ := List.mem_map.mp hmem
  have hcounted := hvotes old hold
  have hmono : Counted A' (net.eraseIdx k) p old :=
    Counted.mono grows (fun w hin => (filterMap_eraseIdx_sublist _).subset hin) hcounted
  split
  · next hterm =>
      refine ⟨hmono.past, ?_⟩
      unfold Election.count
      split
      · next term =>
          have hnew : v ∈ castVotes A' (net.eraseIdx k) p old.term := by
            rw [hterm]
            exact mem_castVotes.mpr ⟨hgranted _ rfl rfl,
              notMem_filterMap_eraseIdx hnodup hflight hkey⟩
          have hpending : v ∉ castVotes A net p old.term := by
            rw [hterm]
            intro hin
            exact (mem_castVotes.mp hin).2
              (List.mem_filterMap.mpr ⟨flight, List.mem_of_getElem? hflight, hkey⟩)
          have hsubset : insert v (castVotes A net p old.term) ⊆
              castVotes A' (net.eraseIdx k) p old.term :=
            Finset.insert_subset hnew (castVotes_subset grows
              fun w hin => (filterMap_eraseIdx_sublist _).subset hin)
          have hcard := Finset.card_le_card hsubset
          rw [Finset.card_insert_of_notMem hpending] at hcard
          exact Nat.le_trans (Nat.succ_le_succ hcounted.votes) hcard
      · exact hmono.votes
  · exact hmono

/-- More than half of the votes counted is more than half of the votes cast. -/
theorem Counted.majority {election : Election} (h : Counted A net p election)
    (hcount : n / 2 < election.voteCount) : ∃ quorum : Finset (Fin n), Majority quorum ∧
      ∀ v ∈ quorum, ∃ l, A.ballot election.term v = some (p, l) := by
  refine ⟨castVotes A net p election.term, ?_, fun v hv => (mem_castVotes.mp hv).1⟩
  have hvotes := h.votes
  unfold Majority
  rw [Fintype.card_fin]
  omega

end DistributedLabs
