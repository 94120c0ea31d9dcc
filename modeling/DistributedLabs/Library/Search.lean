import DistributedLabs.Library.Loop
import Mathlib.Data.List.Perm.Basic

/-!
# Depth-first search with a cache

A search goes through configurations.  Each has a list of moves, of which some turn out not
to be possible, and it knows the labels of the moves that led to it.  A configuration that is
the same as one in the cache is not entered again.  If no move is left, the search gives the
configuration up and goes back to the one before it.

The search stops.  It finds a complete configuration if there is one; otherwise it has given
up every configuration, up to the order of the moves that lead there.
-/

namespace DistributedLabs.Library

structure Space (C L : Type) where
  moves : C → List (L × Option C)
  complete : C → Bool
  /-- The second configuration may stand for the first. -/
  same : C → C → Bool
  trail : C → List L

namespace Space

variable {C L : Type}

/-- The moves with these labels lead from one configuration to the other. -/
inductive Path (space : Space C L) : C → List L → C → Prop where
  | nil (c : C) : Path space c [] c
  | cons {c d e : C} {l : L} {labels : List L} (move : (l, some d) ∈ space.moves c)
      (rest : Path space d labels e) : Path space c (l :: labels) e

structure Lawful (space : Space C L) (bound : Nat) : Prop where
  trail_move : ∀ {c d l}, (l, some d) ∈ space.moves c → space.trail d = space.trail c ++ [l]
  bounded : ∀ {c d l}, (l, some d) ∈ space.moves c → (space.trail d).length ≤ bound
  same_trail : ∀ {c d}, space.same c d = true → (space.trail c).Perm (space.trail d)
  same_path : ∀ {c d labels e}, space.same c d = true → space.Path c labels e →
    ∃ e', space.Path d labels e' ∧ (space.complete e = true → space.complete e' = true)

variable {space : Space C L} {c d e : C} {labels : List L}

theorem Path.append {more : List L} (h : space.Path c labels d) (hmore : space.Path d more e) :
    space.Path c (labels ++ more) e := by
  induction h with
  | nil => exact hmore
  | cons move _ ih => exact .cons move (ih hmore)

theorem Path.concat {l : L} (h : space.Path c labels d) (hmove : (l, some e) ∈ space.moves d) :
    space.Path c (labels ++ [l]) e :=
  h.append (.cons hmove (.nil e))

/-! ## The search -/

/-- A configuration and the moves that have not been tried. -/
structure Frame (C L : Type) where
  config : C
  ahead : List (L × Option C)

structure Search (C L : Type) where
  top : Frame C L
  /-- The configurations the search goes back to, the last one first. -/
  below : List (Frame C L) := []
  cache : List C := []
  /-- The trails of the configurations that were given up, in order. -/
  given : List (List L) := []

/-- Enter a configuration. -/
def enter (space : Space C L) (c : C) : Frame C L :=
  ⟨c, space.moves c⟩

def start (space : Space C L) (c : C) : Search C L :=
  { top := space.enter c }

/-- One turn of the search.  It stops with the verdict and the state it stops in. -/
def turn (space : Space C L) (s : Search C L) :
    Option (Turn (Search C L) (Bool × Search C L)) :=
  if space.complete s.top.config then some (.stop (true, s))
  else
    match s.top.ahead with
    | [] =>
        match s.below with
        | [] => some (.stop (false, s))
        | frame :: below =>
            some (.again { s with
              top := frame, below := below, given := s.given ++ [space.trail s.top.config] })
    | (_, none) :: ahead => some (.again { s with top := ⟨s.top.config, ahead⟩ })
    | (_, some d) :: ahead =>
        if s.cache.any (space.same d) then some (.again { s with top := ⟨s.top.config, ahead⟩ })
        else
          some (.again { s with
            top := space.enter d
            below := ⟨s.top.config, ahead⟩ :: s.below
            cache := d :: s.cache })

/-! ## What the search has settled -/

/-- Nothing is to be found behind the configuration, and all of it was given up. -/
def Settled (space : Space C L) (given : List (List L)) (c : C) : Prop :=
  ∀ labels d, space.Path c labels d → space.complete d = false ∧
    ∃ trail ∈ given, trail.Perm (space.trail c ++ labels)

theorem Settled.mono {given given' : List (List L)} (h : space.Settled given c)
    (hsub : given ⊆ given') : space.Settled given' c := by
  intro labels d hpath
  obtain ⟨hnot, trail, hmem, hperm⟩ := h labels d hpath
  exact ⟨hnot, trail, hsub hmem, hperm⟩

/-- What the moves of a configuration lead to is settled. -/
def MovesSettled (space : Space C L) (given : List (List L)) (moves : List (L × Option C)) : Prop :=
  ∀ l d, (l, some d) ∈ moves → space.Settled given d

section

variable {bound : Nat} {given : List (List L)} {l : L}

/-- A configuration is settled when it is given up after its moves are. -/
theorem settled_of_moves (hlawful : space.Lawful bound) (hnot : space.complete c = false)
    (hmoves : space.MovesSettled given (space.moves c)) (hgiven : space.trail c ∈ given) :
    space.Settled given c := by
  intro labels d hpath
  cases hpath with
  | nil => exact ⟨hnot, _, hgiven, by rw [List.append_nil]⟩
  | cons move rest =>
      obtain ⟨hd, trail, hmem, hperm⟩ := hmoves _ _ move _ _ rest
      rw [hlawful.trail_move move, List.append_assoc, List.singleton_append] at hperm
      exact ⟨hd, trail, hmem, hperm⟩

/-- What may stand for a configuration settles it. -/
theorem Settled.of_same (hlawful : space.Lawful bound) (hsame : space.same c d = true)
    (h : space.Settled given d) : space.Settled given c := by
  intro labels e hpath
  obtain ⟨e', hpath', hcomplete⟩ := hlawful.same_path hsame hpath
  obtain ⟨hnot, trail, hmem, hperm⟩ := h labels e' hpath'
  refine ⟨?_, trail, hmem, hperm.trans ((hlawful.same_trail hsame).symm.append_right labels)⟩
  cases hdone : space.complete e with
  | false => rfl
  | true => exact absurd (hcomplete hdone) (by simp [hnot])

/-- What is in the cache is settled, or lies on the way to where the search is. -/
def CacheSettled (space : Space C L) (s : Search C L) : Prop :=
  ∀ c ∈ s.cache, space.Settled s.given c ∨
    (space.trail c).length ≤ (space.trail s.top.config).length

/-- The search comes back to the configuration, and what it has added to the cache is
settled. -/
structure Back (space : Space C L) (s s' : Search C L) : Prop where
  leads : Leads space.turn s s'
  config : s'.top.config = s.top.config
  below : s'.below = s.below
  given : s.given ⊆ s'.given
  cache : ∀ c ∈ s'.cache, c ∈ s.cache ∨ space.Settled s'.given c

/-- The search is back and has dealt with all moves of the configuration. -/
structure Explored (space : Space C L) (s s' : Search C L) : Prop extends Back space s s' where
  ahead : s'.top.ahead = []
  incomplete : space.complete s.top.config = false
  settled : space.MovesSettled s'.given (space.moves s.top.config)

/-- The search is at a complete configuration. -/
structure Found (space : Space C L) (s s' : Search C L) : Prop where
  leads : Leads space.turn s s'
  complete : space.complete s'.top.config = true

/-! ## One turn -/

variable {s s' : Search C L} {ahead : List (L × Option C)}

theorem turn_complete (hcomplete : space.complete s.top.config = true) :
    space.turn s = some (.stop (true, s)) := by
  rw [turn, if_pos hcomplete]

theorem turn_exhausted (hnot : space.complete s.top.config = false) (hahead : s.top.ahead = [])
    (hbelow : s.below = []) : space.turn s = some (.stop (false, s)) := by
  simp [turn, hnot, hahead, hbelow]

theorem turn_give {frame : Frame C L} {below : List (Frame C L)}
    (hnot : space.complete s.top.config = false) (hahead : s.top.ahead = [])
    (hbelow : s.below = frame :: below) :
    space.turn s = some (.again { s with
      top := frame, below := below, given := s.given ++ [space.trail s.top.config] }) := by
  simp [turn, hnot, hahead, hbelow]

theorem turn_impossible (hnot : space.complete s.top.config = false)
    (hahead : s.top.ahead = (l, none) :: ahead) :
    space.turn s = some (.again { s with top := ⟨s.top.config, ahead⟩ }) := by
  simp [turn, hnot, hahead]

theorem turn_cached (hnot : space.complete s.top.config = false)
    (hahead : s.top.ahead = (l, some d) :: ahead) (hcached : s.cache.any (space.same d) = true) :
    space.turn s = some (.again { s with top := ⟨s.top.config, ahead⟩ }) := by
  rw [turn, if_neg (by simp [hnot]), hahead]
  exact if_pos hcached

theorem turn_enter (hnot : space.complete s.top.config = false)
    (hahead : s.top.ahead = (l, some d) :: ahead) (hnew : s.cache.any (space.same d) = false) :
    space.turn s = some (.again { s with
      top := space.enter d
      below := ⟨s.top.config, ahead⟩ :: s.below
      cache := d :: s.cache }) := by
  rw [turn, if_neg (by simp [hnot]), hahead]
  exact if_neg (by simp [hnew])

/-! ## The whole search -/

theorem Found.after (hleads : Leads space.turn s s') {s'' : Search C L} (h : space.Found s' s'') :
    space.Found s s'' :=
  ⟨hleads.trans h.leads, h.complete⟩

theorem Back.trans {s'' : Search C L} (h : space.Back s s') (h' : space.Back s' s'') :
    space.Back s s'' where
  leads := h.leads.trans h'.leads
  config := h'.config.trans h.config
  below := h'.below.trans h.below
  given := fun trail hmem => h'.given (h.given hmem)
  cache c hmem := by
    rcases h'.cache c hmem with hold | hsettled
    · exact (h.cache c hold).imp_right fun hsettled => hsettled.mono h'.given
    · exact .inr hsettled

/-- Some moves have been dealt with, and then the rest of them. -/
theorem Explored.after {s'' : Search C L} (hback : space.Back s s')
    (h : space.Explored s' s'') : space.Explored s s'' where
  toBack := hback.trans h.toBack
  ahead := h.ahead
  incomplete := hback.config ▸ h.incomplete
  settled := hback.config ▸ h.settled

theorem CacheSettled.back (h : space.CacheSettled s) (hback : space.Back s s') :
    space.CacheSettled s' := by
  intro c hmem
  rw [hback.config]
  rcases hback.cache c hmem with hold | hnew
  · exact (h c hold).imp_left fun hsettled => hsettled.mono hback.given
  · exact .inl hnew

/-- A move is passed over. -/
theorem Back.of_skip
    (hturn : space.turn s = some (.again { s with top := ⟨s.top.config, ahead⟩ })) :
    space.Back s { s with top := ⟨s.top.config, ahead⟩ } where
  leads := .single hturn
  config := rfl
  below := rfl
  given := fun _ hmem => hmem
  cache _ hmem := .inl hmem

/-- A configuration in the cache that the search is not on the way from settles what is the
same as it. -/
theorem CacheSettled.of_cached (hlawful : space.Lawful bound) (h : space.CacheSettled s)
    (hmove : (l, some d) ∈ space.moves s.top.config)
    (hcached : s.cache.any (space.same d) = true) : space.Settled s.given d := by
  obtain ⟨c, hmem, hsame⟩ := List.any_eq_true.mp hcached
  rcases h c hmem with hsettled | hle
  · exact hsettled.of_same hlawful hsame
  · have hlength := (hlawful.same_trail hsame).length_eq
    rw [hlawful.trail_move hmove, List.length_append, List.length_singleton] at hlength
    omega

theorem MovesSettled.concat {moves : List (L × Option C)} (h : space.MovesSettled given moves)
    {l : L} {target : Option C} (htarget : ∀ d, target = some d → space.Settled given d) :
    space.MovesSettled given (moves ++ [(l, target)]) := by
  intro l' d hmem
  rcases List.mem_append.mp hmem with hold | hnew
  · exact h l' d hold
  · have heq := Prod.mk.inj (List.mem_singleton.mp hnew)
    exact htarget d heq.2.symm

theorem MovesSettled.mono {given' : List (List L)} {moves : List (L × Option C)}
    (h : space.MovesSettled given moves) (hsub : given ⊆ given') :
    space.MovesSettled given' moves :=
  fun l d hmem => (h l d hmem).mono hsub

/-- The search is below a configuration that it has entered. -/
theorem CacheSettled.entered (hlawful : space.Lawful bound) (h : space.CacheSettled s)
    (hmove : (l, some d) ∈ space.moves s.top.config) {below : List (Frame C L)} :
    space.CacheSettled { s with top := space.enter d, below := below, cache := d :: s.cache } := by
  intro c hmem
  rcases List.mem_cons.mp hmem with rfl | hold
  · exact .inr (Nat.le_refl _)
  · refine (h c hold).imp_right fun hle => Nat.le_trans hle ?_
    change _ ≤ (space.trail d).length
    rw [hlawful.trail_move hmove, List.length_append]
    exact Nat.le_add_right _ _

/-- A configuration is entered, explored and given up. -/
theorem Explored.give (hlawful : space.Lawful bound)
    (henter : space.turn s = some (.again { s with
      top := space.enter d, below := ⟨s.top.config, ahead⟩ :: s.below, cache := d :: s.cache }))
    (h : space.Explored { s with
      top := space.enter d, below := ⟨s.top.config, ahead⟩ :: s.below, cache := d :: s.cache } s') :
    ∃ s'', space.Back s s'' ∧ s''.top = ⟨s.top.config, ahead⟩ ∧ space.Settled s''.given d := by
  have hconfig : s'.top.config = d := h.config
  have hgive := turn_give (by rw [hconfig]; exact h.incomplete) h.ahead h.below
  rw [hconfig] at hgive
  have hd : space.Settled (s'.given ++ [space.trail d]) d :=
    settled_of_moves hlawful h.incomplete (h.settled.mono (List.subset_append_left _ _))
      (List.mem_append_right _ List.mem_cons_self)
  refine ⟨_, ⟨.tail (Relation.ReflTransGen.head henter h.leads) hgive, rfl, rfl,
    fun _ hmem => List.mem_append_left _ (h.given hmem), fun c hmem => ?_⟩, rfl, hd⟩
  rcases h.cache c hmem with hold | hsettled
  · rcases List.mem_cons.mp hold with rfl | hold
    · exact .inr hd
    · exact .inl hold
  · exact .inr (hsettled.mono (List.subset_append_left _ _))

/-- Behind a configuration the search finds a complete one, or it deals with all moves and
comes back.  The induction is on the moves that the trail leaves room for, and inside on the
moves that have not been tried. -/
theorem explore (hlawful : space.Lawful bound) (s : Search C L) (hcache : space.CacheSettled s)
    (tried : List (L × Option C)) (hmoves : space.moves s.top.config = tried ++ s.top.ahead)
    (htried : space.MovesSettled s.given tried) :
    (∃ s', space.Found s s') ∨ ∃ s', space.Explored s s' := by
  induction hroom : bound - (space.trail s.top.config).length using Nat.strongRecOn
    generalizing s tried with
  | _ room ihroom =>
    induction hahead : s.top.ahead generalizing s tried with
    | nil =>
        cases hnot : space.complete s.top.config with
        | true => exact .inl ⟨s, .refl, hnot⟩
        | false =>
            rw [hahead, List.append_nil] at hmoves
            exact .inr ⟨s, ⟨.refl, rfl, rfl, fun _ h => h, fun _ h => .inl h⟩, hahead, hnot,
              hmoves ▸ htried⟩
    | cons move ahead ih =>
        cases hnot : space.complete s.top.config with
        | true => exact .inl ⟨s, .refl, hnot⟩
        | false =>
            rw [hahead] at hmoves
            have hrest : space.moves s.top.config = (tried ++ [move]) ++ ahead := by
              rw [hmoves, List.append_assoc, List.singleton_append]
            -- the search is back at the configuration and this move is settled
            have hgo : ∀ t : Search C L, space.Back s t → t.top = ⟨s.top.config, ahead⟩ →
                (∀ d, move.2 = some d → space.Settled t.given d) →
                (∃ s', space.Found s s') ∨ ∃ s', space.Explored s s' := by
              intro t hback htop hmove
              rcases ih t (hcache.back hback) (tried ++ [move]) (by rw [htop]; exact hrest)
                ((htried.mono hback.given).concat hmove) (by rw [hback.config]; exact hroom)
                (by rw [htop]) with ⟨s', hs'⟩ | ⟨s', hs'⟩
              · exact .inl ⟨s', hs'.after hback.leads⟩
              · exact .inr ⟨s', hs'.after hback⟩
            obtain ⟨l, target⟩ := move
            cases target with
            | none =>
                exact hgo _ (.of_skip (turn_impossible hnot hahead)) rfl fun _ heq => by cases heq
            | some d =>
                have hmove : (l, some d) ∈ space.moves s.top.config := by
                  rw [hmoves]
                  exact List.mem_append_right _ List.mem_cons_self
                cases hcached : s.cache.any (space.same d) with
                | true =>
                    refine hgo _ (.of_skip (turn_cached hnot hahead hcached)) rfl fun d' heq => ?_
                    cases heq
                    exact hcache.of_cached hlawful hmove hcached
                | false =>
                    have henter := turn_enter hnot hahead hcached
                    have hsmaller : bound - (space.trail d).length < room := by
                      have hle := hlawful.bounded hmove
                      rw [hlawful.trail_move hmove, List.length_append,
                        List.length_singleton] at hle ⊢
                      omega
                    rcases ihroom _ hsmaller _ (hcache.entered hlawful hmove) [] rfl
                      (fun _ _ hmem => by cases hmem) rfl with ⟨s', hs'⟩ | ⟨s', hs'⟩
                    · exact .inl ⟨s', hs'.after (.single henter)⟩
                    · obtain ⟨t, hback, htop, hd⟩ := hs'.give hlawful henter
                      exact hgo t hback htop fun d' heq => by cases heq; exact hd

/-! ## The verdict -/

/-- What a turn that does not stop does. -/
theorem again_cases (hturn : space.turn s = some (.again s')) :
    (∃ frame below, s.below = frame :: below ∧ s' = { s with
      top := frame, below := below, given := s.given ++ [space.trail s.top.config] }) ∨
    (∃ move ahead, s.top.ahead = move :: ahead ∧
      s' = { s with top := ⟨s.top.config, ahead⟩ }) ∨
    ∃ l d ahead, s.top.ahead = (l, some d) :: ahead ∧ s' = { s with
      top := space.enter d
      below := ⟨s.top.config, ahead⟩ :: s.below
      cache := d :: s.cache } := by
  cases hnot : space.complete s.top.config with
  | true =>
      rw [turn_complete hnot] at hturn
      cases hturn
  | false =>
      cases hahead : s.top.ahead with
      | nil =>
          cases hbelow : s.below with
          | nil =>
              rw [turn_exhausted hnot hahead hbelow] at hturn
              cases hturn
          | cons frame below =>
              rw [turn_give hnot hahead hbelow] at hturn
              cases hturn
              exact .inl ⟨frame, below, rfl, rfl⟩
      | cons move ahead =>
          obtain ⟨l, target⟩ := move
          cases target with
          | none =>
              rw [turn_impossible hnot hahead] at hturn
              cases hturn
              exact .inr (.inl ⟨_, ahead, rfl, rfl⟩)
          | some d =>
              cases hcached : s.cache.any (space.same d) with
              | true =>
                  rw [turn_cached hnot hahead hcached] at hturn
                  cases hturn
                  exact .inr (.inl ⟨_, ahead, rfl, rfl⟩)
              | false =>
                  rw [turn_enter hnot hahead hcached] at hturn
                  cases hturn
                  exact .inr (.inr ⟨l, d, ahead, rfl, rfl⟩)

/-- The configuration can be reached from the start, and the moves ahead are moves of it. -/
structure Frame.Reached (space : Space C L) (start : C) (frame : Frame C L) : Prop where
  path : ∃ labels, space.Path start labels frame.config
  ahead : frame.ahead ⊆ space.moves frame.config

structure Reached (space : Space C L) (start : C) (s : Search C L) : Prop where
  top : s.top.Reached space start
  below : ∀ frame ∈ s.below, frame.Reached space start
  given : ∀ trail ∈ s.given, ∃ labels d, space.Path start labels d ∧ trail = space.trail d

theorem Frame.Reached.skip {move : L × Option C} {config : C}
    (h : Frame.Reached space c ⟨config, move :: ahead⟩) : Frame.Reached space c ⟨config, ahead⟩ :=
  ⟨h.path, fun _ hmem => h.ahead (List.mem_cons_of_mem _ hmem)⟩

theorem Frame.Reached.enter {config : C}
    (h : Frame.Reached space c ⟨config, (l, some d) :: ahead⟩) :
    Frame.Reached space c (space.enter d) := by
  obtain ⟨labels, hpath⟩ := h.path
  exact ⟨⟨labels ++ [l], hpath.concat (h.ahead List.mem_cons_self)⟩, fun _ hmem => hmem⟩

theorem Reached.turn (h : space.Reached c s) (hturn : space.turn s = some (.again s')) :
    space.Reached c s' := by
  rcases again_cases hturn with ⟨frame, below, hbelow, rfl⟩ | ⟨move, ahead, hahead, rfl⟩ |
    ⟨l, d, ahead, hahead, rfl⟩
  · have hframes := h.below
    rw [hbelow] at hframes
    obtain ⟨labels, hpath⟩ := h.top.path
    refine ⟨hframes frame List.mem_cons_self,
      fun _ hmem => hframes _ (List.mem_cons_of_mem _ hmem), fun trail hmem => ?_⟩
    rcases List.mem_append.mp hmem with hold | hnew
    · exact h.given trail hold
    · exact ⟨labels, _, hpath, List.mem_singleton.mp hnew⟩
  · have htop : Frame.Reached space c ⟨s.top.config, move :: ahead⟩ := hahead ▸ h.top
    exact ⟨htop.skip, h.below, h.given⟩
  · have htop : Frame.Reached space c ⟨s.top.config, (l, some d) :: ahead⟩ := hahead ▸ h.top
    refine ⟨htop.enter, fun frame hmem => ?_, h.given⟩
    rcases List.mem_cons.mp hmem with rfl | hold
    · exact htop.skip
    · exact h.below frame hold

theorem reached_start (space : Space C L) (c : C) : space.Reached c (space.start c) :=
  ⟨⟨⟨[], .nil c⟩, fun _ hmem => hmem⟩, fun _ hmem => (by cases hmem), fun _ hmem => by cases hmem⟩

/-- What the search tells when it stops. -/
structure Verdict (space : Space C L) (c : C) (verdict : Bool) (s : Search C L) : Prop where
  reached : space.Reached c s
  found : verdict = true → space.complete s.top.config = true
  exhausted : verdict = false → ∀ labels d, space.Path c labels d → space.complete d = false ∧
    (labels = [] ∨ ∃ trail ∈ s.given, trail.Perm (space.trail c ++ labels))

/-- The search stops with the verdict. -/
theorem search_stops (hlawful : space.Lawful bound) (c : C) :
    ∃ verdict s turns, Stops space.turn (verdict, s) turns (space.start c) ∧
      space.Verdict c verdict s := by
  have hcache : space.CacheSettled (space.start c) := fun _ hmem => by cases hmem
  have hreached {s' : Search C L} (hleads : Leads space.turn (space.start c) s') :
      space.Reached c s' :=
    hleads.invariant (reached_start space c) Reached.turn
  rcases space.explore hlawful (space.start c) hcache [] rfl (fun _ _ hmem => by cases hmem) with
    ⟨s', h⟩ | ⟨s', h⟩
  · obtain ⟨turns, hstops⟩ := h.leads.stops (.stop (turn_complete h.complete))
    exact ⟨true, s', turns, hstops, hreached h.leads, fun _ => h.complete, fun heq => by cases heq⟩
  · have hconfig : s'.top.config = c := h.config
    obtain ⟨turns, hstops⟩ := h.leads.stops
      (.stop (turn_exhausted (by rw [hconfig]; exact h.incomplete) h.ahead h.below))
    refine ⟨false, s', turns, hstops, hreached h.leads, fun heq => (by cases heq), ?_⟩
    intro _ labels d hpath
    cases hpath with
    | nil => exact ⟨h.incomplete, .inl rfl⟩
    | cons move rest =>
        obtain ⟨hnot, trail, hmem, hperm⟩ := h.settled _ _ move _ _ rest
        rw [hlawful.trail_move move, List.append_assoc, List.singleton_append] at hperm
        exact ⟨hnot, .inr ⟨trail, hmem, hperm⟩⟩

end

end Space

end DistributedLabs.Library
