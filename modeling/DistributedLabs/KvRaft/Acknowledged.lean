import DistributedLabs.KvRaft.History

/-!
# Acknowledged means applied

A handler waits for its index, and whatever is applied there by a leader answers it.
If the leader still has, at that index, the entry of the term in which the handler
called `Start`, then the answer is the right one: the command was written once in that
term, and the committed log keeps it.  Otherwise another client's command may have taken
the index, and the handler acknowledges a request that is lost.
-/

namespace DistributedLabs.KvRaft

open DistributedLabs.Library
open DistributedLabs.Library.Replication

variable {n : Nat}

namespace System

variable {codec : Codec} {s s' : System n} {action : SystemAction n}

/-! ## Handlers and the log -/

/-- Every handler waits for what it had written to the log. -/
structure Placed (A : Protocol n Op) (s : System n) : Prop where
  refines : Refines A s.raft
  living : ∀ call ∈ s.calls, call.incarnation ≤ (s.raft.peers call.server).incarnation
  written : ∀ call ∈ s.calls, s.Alive call → ∀ index term,
    call.phase.open = some (index, term) → WrittenAt A index term (some call.args.opLog)

namespace Placed

variable {A : Protocol n Op}

theorem layer (h : Placed A s) (hreach : Cluster.Reachable s.raft) {action : Action n Op}
    {raft : Cluster n Op} (hrun : s.raft.step action = .ok raft) :
    ∃ A', Placed A' { s with raft := raft } := by
  obtain ⟨A', hsteps, hrefines⟩ := h.refines.step (Cluster.durable_of_reachable hreach) hrun
  refine ⟨A', hrefines, fun call hmem => ?_, fun call hmem halive index term hopen => ?_⟩
  · have hold := h.living call hmem
    rcases Cluster.channel_of_step hreach hrun call.server with ⟨hsame, _⟩ | ⟨_, hnext⟩
    · exact hsame ▸ hold
    · exact hnext ▸ Nat.le_succ_of_le hold
  · have hold := h.living call hmem
    have halive : call.incarnation = (raft.peers call.server).incarnation := halive
    rcases Cluster.channel_of_step hreach hrun call.server with ⟨hsame, _⟩ | ⟨_, hnext⟩
    · exact (h.written call hmem (halive.trans hsame) index term hopen).grows
        (hsteps.grows h.refines.valid)
    · omega

theorem call (h : Placed A s) {k : Nat} {call' : Call n} {servers : Fin n → KVServer}
    (hliving : call'.incarnation ≤ (s.raft.peers call'.server).incarnation)
    (hwritten : s.Alive call' → ∀ index term, call'.phase.open = some (index, term) →
      WrittenAt A index term (some call'.args.opLog)) :
    Placed A { s with servers := servers, calls := s.calls.set k call' } := by
  refine ⟨h.refines, fun other hmem => ?_, fun other hmem => ?_⟩
  · rcases List.mem_or_eq_of_mem_set hmem with hold | rfl
    · exact h.living other hold
    · exact hliving
  · rcases List.mem_or_eq_of_mem_set hmem with hold | rfl
    · exact h.written other hold
    · exact hwritten

theorem handler (h : Placed A s) (hreach : Cluster.Reachable s.raft) {k : Nat}
    {call call' : Call n} {kv : KVServer} {raft : Cluster n Op} (found : s.calls[k]? = some call)
    (turn : HandlerTurn s call call' kv raft) : ∃ A', Placed A' { s with
      raft := raft
      servers := Function.update s.servers call.server kv
      calls := s.calls.set k call' } := by
  have hmem := List.mem_of_getElem? found
  cases turn with
  | duplicate sent seen => exact ⟨A, h.call (Nat.le_refl _) fun _ _ _ hopen => by cases hopen⟩
  | checked sent => exact ⟨A, h.call (Nat.le_refl _) fun _ _ _ hopen => by cases hopen⟩
  | refused alive run =>
      obtain ⟨A', h'⟩ := h.layer hreach (Cluster.step_start run)
      exact ⟨A', h'.call (h'.living call hmem) fun _ _ _ hopen => by cases hopen⟩
  | started alive run =>
      obtain ⟨A', h'⟩ := h.layer hreach (Cluster.step_start run)
      refine ⟨A', h'.call (h'.living call hmem) fun _ index term hopen => ?_⟩
      cases hopen
      obtain ⟨f, c, hpeer, _⟩ := h.refines.peers call.server
      obtain ⟨f', c', hpeer', _⟩ := h'.refines.peers call.server
      simp only [Cluster.setPeer, Function.update_self] at hpeer'
      exact hpeer'.written h'.refines.valid (hpeer.start_logAt run)
        (Option.some_ne_none _)
  | await alive started run =>
      refine ⟨A, h.call (h.living call hmem) fun _ index term hopen => ?_⟩
      exact h.written call hmem alive index term (by rw [started]; exact hopen)
  | receive alive waiting run =>
      exact ⟨A, h.call (h.living call hmem) fun _ _ _ hopen => by cases hopen⟩
  | timeOut alive waiting =>
      exact ⟨A, h.call (h.living call hmem) fun _ _ _ hopen => by cases hopen⟩

theorem turn (h : Placed A s) (hreach : Cluster.Reachable s.raft)
    (hturn : Turn codec s action s') : ∃ A', Placed A' s' := by
  cases hturn with
  | raft internal run => exact h.layer hreach run
  | send serves seq pending =>
      refine ⟨A, h.refines, fun call hmem => ?_, fun call hmem halive index term hopen => ?_⟩
      · rcases List.mem_append.mp hmem with hold | hnew
        · exact h.living call hold
        · rw [List.mem_singleton.mp hnew]
          exact Nat.zero_le _
      · rcases List.mem_append.mp hmem with hold | hnew
        · exact h.written call hold halive index term hopen
        · rw [List.mem_singleton.mp hnew] at hopen
          cases hopen
  | returned served seq pending => exact ⟨A, { h with }⟩
  | handler found turn => exact h.handler hreach found turn
  | server turn =>
      cases turn with
      | takeSnapShot encoded run =>
          obtain ⟨A', h'⟩ := h.layer hreach run
          exact ⟨A', { h' with }⟩
      | crash run =>
          obtain ⟨A', h'⟩ := h.layer hreach run
          exact ⟨A', { h' with }⟩
      | _ => exact ⟨A, { h with }⟩

end Placed

theorem raft_reachable (hreach : Reaches (step codec) initial s) : Cluster.Reachable s.raft := by
  obtain ⟨trace, h⟩ := handed_of_reaches hreach
  exact h.run.reaches

theorem placed_of_reaches (hreach : Reaches (step codec) initial s) :
    ∃ A, Placed A s := by
  induction hreach with
  | refl => exact ⟨_, refines_initial, fun _ hmem => (by cases hmem),
      fun _ hmem => by cases hmem⟩
  | tail before last ih =>
      obtain ⟨A, h⟩ := ih
      obtain ⟨action, hstep⟩ := last
      exact h.turn (raft_reachable before) (step_turn hstep)

/-! ## Handlers and their channels -/

/-- What lies on a channel of `index` answers every handler that waits for the index. -/
def Fits (s : System n) (p : Fin n) (index : Int) (content : Option ClientRequestReply) : Prop :=
  (∃ msg ∈ (s.raft.peers p).applyCh.msgs, msg.index = index) ∧
  ∀ call ∈ s.calls, call.server = p → s.Alive call → ∀ term,
    call.phase.open = some (index, term) →
      ∃ reply, content = some reply ∧ Answers s.applied call.args.opLog reply

/-- Nothing has been delivered yet at the index of a command that is just started. -/
theorem not_fits_of_start (hraft : Cluster.Reachable s.raft) {p : Fin n} {command : Option Op}
    {after : Raft n Op} {index term : Int}
    (run : (s.raft.peers p).start p command = some (after, index, term, true))
    (content : Option ClientRequestReply) : ¬ s.Fits p index content := by
  rintro ⟨⟨msg, hmsg, hindex⟩, _⟩
  obtain ⟨A, hrefines⟩ := exists_refines hraft
  have habove := (hrefines.peers p).start_above run hmsg
  omega

/-- The Raft layer may move on while the handlers of the server stay the same. -/
theorem Fits.layer {p : Fin n} {index : Int} {content : Option ClientRequestReply}
    (h : s.Fits p index content) {raft : Cluster n Op}
    (hmsgs : (s.raft.peers p).applyCh.msgs <+: (raft.peers p).applyCh.msgs)
    (halive : ∀ call ∈ s.calls, Alive { s with raft := raft } call → s.Alive call) :
    Fits { s with raft := raft } p index content := by
  obtain ⟨⟨msg, hmsg, hindex⟩, hfits⟩ := h
  exact ⟨⟨msg, hmsgs.subset hmsg, hindex⟩, fun call hmem hserver hcall =>
    hfits call hmem hserver (halive call hmem hcall)⟩

/-- The request was carried out, and the answer to a `Get` was computed then. -/
def Acknowledged (applied : List (Applied n)) (args : ClientRequestArgs)
    (reply : ClientRequestReply) : Prop :=
  ∃ e ∈ applied, e.op.clientId = args.clientId ∧ args.reqSeq ≤ e.op.reqSeq ∧
    (args.op = .opGet → e.reply = reply)

theorem Acknowledged.mono {applied applied' : List (Applied n)} {args : ClientRequestArgs}
    {reply : ClientRequestReply} (h : Acknowledged applied args reply)
    (hsub : applied ⊆ applied') : Acknowledged applied' args reply := by
  obtain ⟨e, hmem, hrest⟩ := h
  exact ⟨e, hsub hmem, hrest⟩

/-- Every handler gets an answer that was computed for it. -/
structure Faithful (s : System n) : Prop where
  wired : ∀ p, (s.servers p).Wired (s.Fits p)
  waiting : ∀ call ∈ s.calls, s.Alive call → ∀ index term channel,
    call.phase = .waiting index term channel → (s.servers call.server).Names channel index
  replied : ∀ call ∈ s.calls, ∀ reply, call.phase = .replied reply →
    reply.err ≠ .wrongLeader → reply.err ≠ .timeOut → Acknowledged s.applied call.args reply

/-- A leader that applies a command has at its index the entry of the term that `Start`
returned to each handler still waiting for the index. -/
def NotifiesOwn (s : System n) : SystemAction n → Prop
  | .apply p => (s.raft.peers p).state = .leader → ∀ msg ∈ s.nextMsg p,
      msg.commandValid = true → (s.servers p).lastApplied < msg.commandIndex →
      ∀ call ∈ s.calls, call.server = p → s.Alive call → ∀ returned ∈ call.phase.open,
        returned.1 = msg.commandIndex →
        ((s.raft.peers p).logAt msg.commandIndex).map LogEntry.term = some returned.2
  | _ => True

instance (s : System n) (action : SystemAction n) : Decidable (s.NotifiesOwn action) :=
  match action with
  | .apply p => inferInstanceAs (Decidable ((s.raft.peers p).state = .leader → _))
  | .raft _ | .request _ _ _ _ | .callFails _ | .callReturns _ | .check _ | .start _ | .await _
  | .receive _ | .timeOut _ | .remove _ _ | .takeSnapShot _ | .crash _ => instDecidableTrue

namespace Faithful

/-- The Raft layer takes a step without a crash. -/
theorem layer (h : Faithful s) (hreach : Cluster.Reachable s.raft) {action : Action n Op}
    {raft : Cluster n Op} (hrun : s.raft.step action = .ok raft)
    (hcrash : ∀ p, action ≠ .crash p) : Faithful { s with raft := raft } := by
  have hkept : ∀ p, (raft.peers p).incarnation = (s.raft.peers p).incarnation ∧
      (s.raft.peers p).applyCh.msgs <+: (raft.peers p).applyCh.msgs := by
    intro p
    rcases Cluster.channel_of_step hreach hrun p with ⟨hsame, _, hmsgs⟩ | ⟨heq, _⟩
    · exact ⟨hsame, hmsgs⟩
    · exact absurd heq (hcrash p)
  have halive : ∀ call ∈ s.calls, Alive { s with raft := raft } call → s.Alive call :=
    fun call _ hcall => hcall.trans (hkept call.server).1
  exact ⟨fun p => (h.wired p).imp fun _ _ hfits => hfits.layer (hkept p).2 halive,
    fun call hmem hcall => h.waiting call hmem (halive call hmem hcall), h.replied⟩

/-- One server changes and keeps its channels. -/
theorem server (h : Faithful s) {p : Fin n} {kv : KVServer} (hwired : kv.Wired (s.Fits p))
    (hkeeps : (s.servers p).KeepsChannels kv) :
    Faithful { s with servers := Function.update s.servers p kv } := by
  refine ⟨fun q => ?_, fun call hmem halive index term channel hphase => ?_, h.replied⟩
  · show (Function.update s.servers p kv q).Wired (s.Fits q)
    by_cases hq : q = p
    · subst hq
      rw [Function.update_self]
      exact hwired
    · rw [Function.update_of_ne hq]
      exact h.wired q
  · have hnames := h.waiting call hmem halive index term channel hphase
    by_cases hserver : call.server = p
    · subst hserver
      simpa using hnames.kept hkeeps
    · simpa [Function.update_of_ne hserver] using hnames

/-- The handler of one call goes on. -/
theorem call (h : Faithful s) (k : Nat) (call' : Call n)
    (hfits : s.Alive call' → ∀ index term content, call'.phase.open = some (index, term) →
      s.Fits call'.server index content →
      ∃ reply, content = some reply ∧ Answers s.applied call'.args.opLog reply)
    (hwaiting : s.Alive call' → ∀ index term channel, call'.phase = .waiting index term channel →
      (s.servers call'.server).Names channel index)
    (hreplied : ∀ reply, call'.phase = .replied reply → reply.err ≠ .wrongLeader →
      reply.err ≠ .timeOut → Acknowledged s.applied call'.args reply) :
    Faithful { s with calls := s.calls.set k call' } := by
  refine ⟨fun p => (h.wired p).imp ?_, fun other hmem => ?_, fun other hmem => ?_⟩
  · rintro index content ⟨hmsg, hold⟩
    refine ⟨hmsg, fun other hmem hserver halive term hopen => ?_⟩
    rcases List.mem_or_eq_of_mem_set hmem with hin | rfl
    · exact hold other hin hserver halive term hopen
    · subst hserver
      exact hfits halive index term content hopen ⟨hmsg, hold⟩
  · rcases List.mem_or_eq_of_mem_set hmem with hin | rfl
    · exact h.waiting other hin
    · exact hwaiting
  · rcases List.mem_or_eq_of_mem_set hmem with hin | rfl
    · exact h.replied other hin
    · exact hreplied

/-- A call that no server has looked at. -/
theorem send (h : Faithful s) (args : ClientRequestArgs) (server : Fin n) {clerks : Int → Clerk} :
    Faithful { s with
      clerks := clerks
      calls := s.calls ++ [({ args := args, server := server } : Call n)] } := by
  have hcases : ∀ call ∈ s.calls ++ [({ args := args, server := server } : Call n)],
      call ∈ s.calls ∨ call.phase = .sent := by
    intro call hmem
    rcases List.mem_append.mp hmem with hold | hnew
    · exact Or.inl hold
    · rw [List.mem_singleton.mp hnew]
      exact Or.inr rfl
  refine ⟨fun p => (h.wired p).imp ?_, fun call hmem halive index term channel hphase => ?_,
    fun call hmem reply hphase => ?_⟩
  · rintro index content ⟨hmsg, hfits⟩
    refine ⟨hmsg, fun call hmem hserver halive term hopen => ?_⟩
    rcases hcases call hmem with hold | hsent
    · exact hfits call hold hserver halive term hopen
    · rw [hsent] at hopen
      cases hopen
  · rcases hcases call hmem with hold | hsent
    · exact h.waiting call hold halive index term channel hphase
    · rw [hsent] at hphase
      cases hphase
  · rcases hcases call hmem with hold | hsent
    · exact h.replied call hold reply hphase
    · rw [hsent] at hphase
      cases hphase

/-- A handler that answers. -/
theorem reply (h : Faithful s) (k : Nat) (call' : Call n) {answer : ClientRequestReply}
    (hphase : call'.phase = .replied answer)
    (hreplied : answer.err ≠ .wrongLeader → answer.err ≠ .timeOut →
      Acknowledged s.applied call'.args answer) :
    Faithful { s with calls := s.calls.set k call' } := by
  refine h.call k call' (fun _ index term content hopen => ?_)
    (fun _ index term channel hwaiting => ?_) fun other hother => ?_
  · rw [hphase] at hopen
    cases hopen
  · rw [hphase] at hwaiting
    cases hwaiting
  · rw [hphase] at hother
    cases hother
    exact hreplied

theorem handler (h : Faithful s) (hreach : Reaches (step codec) initial s) {k : Nat}
    {call call' : Call n} {kv : KVServer} {raft : Cluster n Op} (found : s.calls[k]? = some call)
    (turn : HandlerTurn s call call' kv raft) : Faithful { s with
      raft := raft
      servers := Function.update s.servers call.server kv
      calls := s.calls.set k call' } := by
  have hmem := List.mem_of_getElem? found
  have hraft := raft_reachable hreach
  cases turn with
  | duplicate sent seen =>
      rw [Function.update_eq_self]
      refine h.reply k _ rfl fun _ _ => ?_
      obtain ⟨trace, hhanded⟩ := handed_of_reaches hreach
      have hseen : (s.servers call.server).tables.Seen call.args.opLog.clientId
        call.args.opLog.reqSeq := seen.1
      obtain ⟨reply, _, e, he, hclient, hle, _⟩ := (hhanded.tables call.server).seen hseen
      exact ⟨e, he, hclient, hle, fun hget => absurd hget seen.2⟩
  | checked sent =>
      rw [Function.update_eq_self]
      exact h.call k _ (fun _ _ _ _ hopen => by cases hopen)
        (fun _ _ _ _ hwaiting => by cases hwaiting) fun _ hreply => by cases hreply
  | refused alive run =>
      rw [Function.update_eq_self]
      have hanswered := h.reply k { call with phase := .replied { err := .wrongLeader } } rfl
        fun hne => absurd rfl hne
      exact hanswered.layer hraft (Cluster.step_start run) fun _ hcrash => by cases hcrash
  | @started after index term alive run =>
      rw [Function.update_eq_self]
      have hstarted := h.call k { call with phase := .started index term }
        (fun _ index' term' content hopen hfits => by
          cases hopen
          exact absurd hfits (not_fits_of_start hraft run content))
        (fun _ _ _ _ hwaiting => by cases hwaiting) (fun _ hreply => by cases hreply)
      exact hstarted.layer hraft (Cluster.step_start run) fun _ hcrash => by cases hcrash
  | await alive started run =>
      obtain ⟨hwired, hkeeps, hnames⟩ := (h.wired call.server).getNotifyChannel run
      refine (h.server hwired hkeeps).call k _ (fun _ index term content hopen hfits => ?_)
        (fun _ index term channel hwaiting => ?_) fun _ hreply => by cases hreply
      · exact hfits.2 call hmem rfl alive term (by rw [started]; exact hopen)
      · cases hwaiting
        simpa using hnames
  | @receive index term channel kv answer alive waiting run =>
      have hnames := h.waiting call hmem alive index term channel waiting
      obtain ⟨hwired, hkeeps, _, hfits⟩ := (h.wired call.server).receive hnames run
      obtain ⟨reply, hreply, e, he, hclient, hle, hanswer⟩ :=
        hfits call hmem rfl alive term (by rw [waiting]; rfl)
      obtain rfl := Option.some.inj hreply
      have hwired' : (kv.scheduleRemoval index).Wired (s.Fits call.server) := hwired.congr rfl rfl
      refine (h.server hwired' hkeeps).reply k _ rfl fun _ _ => ?_
      exact ⟨e, he, hclient, hle, fun _ => hanswer⟩
  | @timeOut index term channel alive waiting =>
      have hwired : ((s.servers call.server).scheduleRemoval index).Wired (s.Fits call.server) :=
        (h.wired call.server).congr rfl rfl
      refine (h.server hwired (List.prefix_refl _)).reply k _ rfl fun _ hne => ?_
      exact absurd rfl hne

theorem carries (h : Faithful s) (new : List (Applied n)) :
    Faithful { s with applied := s.applied ++ new } := by
  have hsub : s.applied ⊆ s.applied ++ new := List.subset_append_left _ _
  refine ⟨fun p => (h.wired p).imp ?_, h.waiting, fun call hmem reply hphase hleader htime =>
    (h.replied call hmem reply hphase hleader htime).mono hsub⟩
  rintro index content ⟨hmsg, hfits⟩
  refine ⟨hmsg, fun call hmem hserver halive term hopen => ?_⟩
  obtain ⟨reply, hcontent, hanswers⟩ := hfits call hmem hserver halive term hopen
  exact ⟨reply, hcontent, hanswers.mono hsub⟩

/-- A command of which the leader kept the entry answers those who wait for it. -/
theorem fits_applied (hreach : Reaches (step codec) initial s) {p : Fin n} {msg : ApplyMsg Op}
    {op : Op} (hallowed : s.NotifiesOwn (.apply p)) (hleader : (s.raft.peers p).state = .leader)
    (next : s.nextMsg p = some msg) (hvalid : msg.commandValid = true)
    (hcommand : msg.command = some op) (hlater : (s.servers p).lastApplied < msg.commandIndex) :
    Fits { s with applied := s.applied ++ (s.servers p).carried p msg } p msg.commandIndex
      ((s.servers p).tables.apply op).2 := by
  have hmsg : msg ∈ (s.raft.peers p).applyCh.msgs := List.mem_of_getElem? next
  refine ⟨⟨msg, hmsg, if_pos hvalid⟩, fun call hmem hserver halive term hopen => ?_⟩
  subst hserver
  obtain ⟨trace, hhanded⟩ := handed_of_reaches hreach
  obtain ⟨A, hplaced⟩ := placed_of_reaches hreach
  obtain ⟨entry, hentry, rfl⟩ := Option.map_eq_some_iff.mp
    (hallowed hleader msg next hvalid hlater call hmem rfl halive _ hopen rfl)
  have hown := (hplaced.refines.peers call.server).delivered_eq hplaced.refines.valid hmsg hvalid
    hentry (hplaced.written call hmem halive _ _ hopen)
  rw [hcommand] at hown
  obtain rfl := Option.some.inj hown
  exact (KVServer.known_applied (hhanded.tables call.server) _ hvalid hcommand hlater).2

theorem apply (h : Faithful s) (hreach : Reaches (step codec) initial s) {p : Fin n}
    {msg : ApplyMsg Op} {after : KVServer} (hallowed : s.NotifiesOwn (.apply p))
    (next : s.nextMsg p = some msg)
    (run : (s.servers p).applyMsg codec msg (decide ((s.raft.peers p).state = .leader)) =
      .ok after) :
    Faithful { s with
      servers := Function.update s.servers p after
      applied := s.applied ++ (s.servers p).carried p msg } := by
  have hcarried := h.carries ((s.servers p).carried p msg)
  have hwired := hcarried.wired p
  rcases KVServer.applyMsg_cases run with
    ⟨op, applied, hvalid, hcommand, hlater, _, hmap, hchannels, _, hafter⟩ | ⟨hmap, hchannels, _⟩
  · have hwired' := hwired.congr hmap hchannels
    have hkeeps : (s.servers p).KeepsChannels applied := by
      rw [KVServer.KeepsChannels, hchannels]
    rcases hafter with rfl | ⟨hleader, hnotify⟩
    · exact hcarried.server hwired' hkeeps
    · have hfits := fits_applied hreach hallowed (of_decide_eq_true hleader) next hvalid hcommand
        hlater
      obtain ⟨hnotified, hkept⟩ := hwired'.notify hfits hnotify
      exact hcarried.server hnotified (hkeeps.trans hkept)
  · refine hcarried.server (hwired.congr hmap hchannels) ?_
    show (s.servers p).KeepsChannels after
    rw [KVServer.KeepsChannels, hchannels]

/-- A crash ends the handlers of the server and its channels. -/
theorem crash (h : Faithful s) (hreach : Reaches (step codec) initial s) {p : Fin n}
    {raft : Cluster n Op} (run : s.raft.step (.crash p) = .ok raft) {bytes : Bytes} :
    Faithful { s with
      raft := raft
      servers := Function.update s.servers p (startKVServer codec bytes) } := by
  have hraft := raft_reachable hreach
  obtain ⟨A, hplaced⟩ := placed_of_reaches hreach
  have hkept : ∀ q, q ≠ p → (raft.peers q).incarnation = (s.raft.peers q).incarnation ∧
      (s.raft.peers q).applyCh.msgs <+: (raft.peers q).applyCh.msgs := by
    intro q hq
    rcases Cluster.channel_of_step hraft run q with ⟨hsame, _, hmsgs⟩ | ⟨heq, _⟩
    · exact ⟨hsame, hmsgs⟩
    · exact absurd (Action.crash.inj heq).symm hq
  have hsurvives : ∀ call ∈ s.calls, call.incarnation = (raft.peers call.server).incarnation →
      call.server ≠ p ∧ s.Alive call := by
    intro call hmem hsame
    have hserver : call.server ≠ p := by
      rintro rfl
      have hliving := hplaced.living call hmem
      rw [hsame, Cluster.crash_incarnation hraft run] at hliving
      exact Nat.not_succ_le_self _ hliving
    exact ⟨hserver, hsame.trans (hkept call.server hserver).1⟩
  refine ⟨fun q => ?_, fun call hmem halive index term channel hphase => ?_, h.replied⟩
  · by_cases hq : q = p
    · subst hq
      simp only [Function.update_self]
      exact KVServer.wired_startKVServer codec bytes
    · simp only [Function.update_of_ne hq]
      exact (h.wired q).imp fun _ _ hfits => hfits.layer (hkept q hq).2
        fun call hmem halive => (hsurvives call hmem halive).2
  · obtain ⟨hserver, hold⟩ := hsurvives call hmem halive
    simp only [Function.update_of_ne hserver]
    exact h.waiting call hmem hold index term channel hphase

theorem turn (h : Faithful s) (hreach : Reaches (step codec) initial s)
    (hallowed : s.NotifiesOwn action) (hturn : Turn codec s action s') : Faithful s' := by
  have hraft := raft_reachable hreach
  cases hturn with
  | raft internal run =>
      refine h.layer hraft run ?_
      rintro p rfl
      cases internal
  | send serves seq pending => exact h.send _ _
  | returned served seq pending => exact ⟨h.wired, h.waiting, h.replied⟩
  | handler found turn => exact h.handler hreach found turn
  | @server _ p kv _ _ turn =>
      cases turn with
      | remove =>
          rw [List.append_nil]
          exact h.server (((h.wired p).removeNotifyChannel _).congr rfl rfl) (List.prefix_refl _)
      | apply next run => exact h.apply hreach hallowed next run
      | takeSnapShot encoded run =>
          rw [List.append_nil]
          have hlayer := h.layer hraft run fun _ hcrash => by cases hcrash
          exact hlayer.server ((hlayer.wired p).congr rfl rfl) (List.prefix_refl _)
      | skipSnapShot =>
          rw [List.append_nil]
          exact h.server ((h.wired p).congr rfl rfl) (List.prefix_refl _)
      | crash run =>
          rw [List.append_nil]
          exact h.crash hreach run

end Faithful

theorem faithful_of_runs {actions : List (SystemAction n)}
    (hrun : RunsIf (step codec) NotifiesOwn initial actions s) : Faithful s := by
  induction hrun with
  | refl =>
      exact ⟨fun _ => KVServer.wired_startKVServer codec [], fun _ hmem => (by cases hmem),
        fun _ hmem => by cases hmem⟩
  | tail before permitted taken ih => exact ih.turn before.reaches permitted (step_turn taken)

/-- Server 0 of three becomes the leader of the first term. -/
def electServer : List (SystemAction 3) :=
  [.raft (.ticker 0), .raft (.deliver 0), .raft (.answer 0), .raft (.concludeElection 0 0)]

/-- Client 1 writes a value and reads it back. -/
def putAndGet : List (SystemAction 3) :=
  electServer ++ [.request 1 .opPut "x" "a", .check 0, .start 0, .await 0,
    .raft (.sendLogTicketCore 0), .raft (.deliver 1), .raft (.answer 1),
    .raft (.applyCollect 0), .raft (.applyLock 0), .raft (.applySend 0), .raft (.applyFinish 0),
    .apply 0, .receive 0, .callReturns 1,
    .request 1 .opGet "x" "", .check 1, .start 1, .await 1,
    .raft (.sendLogTicketCore 0), .raft (.deliver 2), .raft (.answer 2),
    .raft (.applyCollect 0), .raft (.applyLock 0), .raft (.applySend 0), .raft (.applyFinish 0),
    .apply 0, .receive 1]

end System

end DistributedLabs.KvRaft
