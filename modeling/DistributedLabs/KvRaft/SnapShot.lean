import DistributedLabs.KvRaft.Server
import DistributedLabs.Library.Coder

/-!
# Errors while a snapshot is coded

A snapshot is three maps, coded one after the other.  `TakeSnapShot` looks at the error of
the last `Encode` only.  `RestoreSnapShot` notices an error and then goes on to install
what its variables hold.  A Go map can be nil, which is what a variable holds whose
`Decode` was never called.
-/

namespace DistributedLabs.KvRaft

open DistributedLabs.Library

/-- A map, or nil. -/
abbrev GoMap (K V : Type) := Option (AList fun _ : K => V)

/-- The three fields of `KVServer` that go into a snapshot. -/
@[ext]
structure Maps where
  store : GoMap String String := none
  clientMaxReq : GoMap Int Int := none
  clientLastReqRest : GoMap Int ClientRequestReply := none

/-- What `labgob` does with each of the three types. -/
structure Gob where
  store : Coder UInt8 (GoMap String String)
  clientMaxReq : Coder UInt8 (GoMap Int Int)
  clientLastReqRest : Coder UInt8 (GoMap Int ClientRequestReply)

namespace Maps

/-- The bytes for `rf.Snapshot`, if it is called. -/
def takeSnapShot (gob : Gob) (kv : Maps) : Option Bytes :=
  let (w, _) := gob.store.encode [] kv.store
  let (w, _) := gob.clientMaxReq.encode w kv.clientMaxReq
  let (w, ok) := gob.clientLastReqRest.encode w kv.clientLastReqRest
  if ok then some w else none

/-- What the three variables hold after the calls of `Decode`, of which an error skips the
rest. -/
def decode (gob : Gob) (snapShot : Bytes) : Maps :=
  match gob.store.decode ⟨[], snapShot⟩ with
  | (store, none) => { store := store }
  | (store, some d) =>
      match gob.clientMaxReq.decode d with
      | (clientMaxReq, none) => { store := store, clientMaxReq := clientMaxReq }
      | (clientMaxReq, some d) => ⟨store, clientMaxReq, (gob.clientLastReqRest.decode d).1⟩

def restoreSnapShot (gob : Gob) (kv : Maps) (snapShot : Bytes) : Maps :=
  if snapShot = [] then kv else decode gob snapShot

end Maps

namespace Gob

/-- All three calls of `Encode` succeed, and these bytes are written. -/
def Encodes (gob : Gob) (kv : Maps) (bytes : Bytes) : Prop :=
  ∃ w w', gob.store.encode [] kv.store = (w, true) ∧
    gob.clientMaxReq.encode w kv.clientMaxReq = (w', true) ∧
    gob.clientLastReqRest.encode w' kv.clientLastReqRest = (bytes, true)

/-- All three calls of `Decode` succeed and give these maps. -/
def Decodes (gob : Gob) (snapShot : Bytes) (maps : Maps) : Prop :=
  ∃ d d' d'', gob.store.decode ⟨[], snapShot⟩ = (maps.store, some d) ∧
    gob.clientMaxReq.decode d = (maps.clientMaxReq, some d') ∧
    gob.clientLastReqRest.decode d' = (maps.clientLastReqRest, some d'')

variable {gob : Gob} {kv maps : Maps} {snapShot bytes : Bytes}

theorem Decodes.decode_eq (h : gob.Decodes snapShot maps) : Maps.decode gob snapShot = maps := by
  obtain ⟨d, d', d'', hstore, hmax, hlast⟩ := h
  simp only [Maps.decode, hstore, hmax, hlast]

/-- Bytes are handed on only if the last `Encode` has succeeded. -/
theorem encode_of_takeSnapShot (h : kv.takeSnapShot gob = some bytes) :
    gob.clientLastReqRest.encode
        (gob.clientMaxReq.encode (gob.store.encode [] kv.store).1 kv.clientMaxReq).1
        kv.clientLastReqRest = (bytes, true) := by
  unfold Maps.takeSnapShot at h
  dsimp only at h
  split at h
  · next hok => exact Prod.ext (Option.some.inj h) hok
  · cases h

/-- The first two calls of `Encode` succeed, or the last one fails. -/
def LastTells (gob : Gob) (kv : Maps) : Prop :=
  let store := gob.store.encode [] kv.store
  let maxReq := gob.clientMaxReq.encode store.1 kv.clientMaxReq
  (store.2 = true ∧ maxReq.2 = true) ∨
    (gob.clientLastReqRest.encode maxReq.1 kv.clientLastReqRest).2 = false

theorem LastTells.encodes (h : gob.LastTells kv) (htaken : kv.takeSnapShot gob = some bytes) :
    gob.Encodes kv bytes := by
  have hlast := encode_of_takeSnapShot htaken
  rcases h with ⟨hstore, hmax⟩ | hfails
  · exact ⟨_, _, Prod.ext rfl hstore, Prod.ext rfl hmax, hlast⟩
  · rw [hlast] at hfails
    cases hfails

/-- A call of `Decode` fails, and these are the maps that the three variables then hold: nil for
what comes behind the call. -/
inductive BreaksOff (gob : Gob) (snapShot : Bytes) : Maps → Prop where
  | store {store : GoMap String String}
      (fails : gob.store.decode ⟨[], snapShot⟩ = (store, none)) :
      BreaksOff gob snapShot ⟨store, none, none⟩
  | clientMaxReq {store : GoMap String String} {maxReq : GoMap Int Int} {d : Stream UInt8}
      (decodes : gob.store.decode ⟨[], snapShot⟩ = (store, some d))
      (fails : gob.clientMaxReq.decode d = (maxReq, none)) :
      BreaksOff gob snapShot ⟨store, maxReq, none⟩
  | clientLastReqRest {maps : Maps} {d d' : Stream UInt8}
      (decodes : gob.store.decode ⟨[], snapShot⟩ = (maps.store, some d))
      (decodes' : gob.clientMaxReq.decode d = (maps.clientMaxReq, some d'))
      (fails : gob.clientLastReqRest.decode d' = (maps.clientLastReqRest, none)) :
      BreaksOff gob snapShot maps

theorem BreaksOff.decode_eq (h : gob.BreaksOff snapShot maps) :
    Maps.decode gob snapShot = maps := by
  cases h with
  | store fails => simp only [Maps.decode, fails]
  | clientMaxReq decodes fails => simp only [Maps.decode, decodes, fails]
  | clientLastReqRest decodes decodes' fails => simp only [Maps.decode, decodes, decodes', fails]

end Gob

/-! ## Coders that can write little -/

/-- The map with one key. -/
def GoMap.single {K V : Type} (key : K) (value : V) : GoMap K V :=
  some (AList.singleton key value)

namespace Gob

/-! ## Coders that keep their word -/

/-- What is written without an error is read back, the last error tells about the others, and
a snapshot is never empty. -/
structure Sound (gob : Gob) : Prop where
  store : ∀ map, gob.store.Reads (some map)
  clientMaxReq : ∀ map, gob.clientMaxReq.Reads (some map)
  clientLastReqRest : ∀ map, gob.clientLastReqRest.Reads (some map)
  lastTells : ∀ kv, gob.LastTells kv
  ne_nil : ∀ (kv : Maps) (bytes : Bytes), kv.takeSnapShot gob = some bytes → bytes ≠ []

end Gob

/-- The maps of a server that has none of them nil. -/
def Tables.maps (tables : Tables) : Maps :=
  ⟨some tables.store, some tables.clientMaxReq, some tables.clientLastReqRest⟩

/-- What the maps read as: a nil map has no keys. -/
def Maps.tables (maps : Maps) : Tables :=
  ⟨maps.store.getD ∅, maps.clientMaxReq.getD ∅, maps.clientLastReqRest.getD ∅⟩

namespace Gob

variable {gob : Gob} {tables : Tables} {bytes : Bytes}

/-- A snapshot that was taken decodes to the maps it was taken of. -/
theorem Sound.decodes (sound : gob.Sound) (htaken : tables.maps.takeSnapShot gob = some bytes) :
    gob.Decodes bytes tables.maps := by
  obtain ⟨w, w', hstore, hmax, hlast⟩ := (sound.lastTells tables.maps).encodes htaken
  obtain ⟨frame, hframe, hstore⟩ := sound.store tables.store _ _ hstore
  obtain ⟨frame', hframe', hmax⟩ := sound.clientMaxReq tables.clientMaxReq _ _ hmax
  obtain ⟨frame'', hframe'', hlast⟩ := sound.clientLastReqRest tables.clientLastReqRest _ _ hlast
  have hbytes : bytes = frame ++ (frame' ++ frame'') := by
    rw [hframe'', hframe', hframe, List.nil_append, List.append_assoc]
  refine ⟨_, _, ⟨bytes, []⟩, ?_, hmax frame'', ?_⟩
  · rw [hbytes]
    exact hstore (frame' ++ frame'')
  · have hend := hlast []
    rw [List.append_nil] at hend
    exact hend

/-- A snapshot that one server has taken gives another one its maps. -/
theorem Sound.restoreSnapShot (sound : gob.Sound)
    (htaken : tables.maps.takeSnapShot gob = some bytes) (kv : Maps) :
    kv.restoreSnapShot gob bytes = tables.maps := by
  unfold Maps.restoreSnapShot
  rw [if_neg (sound.ne_nil _ _ htaken)]
  exact (sound.decodes htaken).decode_eq

/-- Three coders that can write every map. -/
def unary : Gob where
  store := .unary
  clientMaxReq := .unary
  clientLastReqRest := .unary

theorem sound_unary : unary.Sound where
  store _ := Coder.unary_reads _
  clientMaxReq _ := Coder.unary_reads _
  clientLastReqRest _ := Coder.unary_reads _
  lastTells _ := .inl ⟨rfl, rfl⟩
  ne_nil := by
    intro kv bytes htaken
    cases htaken
    simp

/-- The encoding that the model of the servers works with. -/
def codec (gob : Gob) (sound : gob.Sound) : Codec where
  encode tables := tables.maps.takeSnapShot gob
  decode bytes := (Maps.decode gob bytes).tables
  decode_encode := by
    intro tables bytes htaken
    rw [(sound.decodes htaken).decode_eq]
    rfl
  encode_ne_nil := by
    intro tables bytes htaken
    exact sound.ne_nil _ _ htaken

/-- A server restores its tables as its maps are restored. -/
theorem restoreSnapShot_codec (sound : gob.Sound) (kv : KVServer) (bytes : Bytes) :
    (kv.restoreSnapShot (gob.codec sound) bytes).tables =
      (kv.tables.maps.restoreSnapShot gob bytes).tables := by
  unfold KVServer.restoreSnapShot Maps.restoreSnapShot
  split
  · rfl
  · rfl

end Gob

end DistributedLabs.KvRaft
