import IrohBeekem.State.Handle

/-!
# Snapshots

What a node stores of itself, and how it resumes from it.  The queues and the
counters of a run are left out, and so is everything that can be recomputed: the
capability closure and the public half of the leaf key.
-/

namespace IrohBeekem

open Library

variable [Keyhive] [Beekem] [Loro] [Postcard]

/-- An order in which hash sets are enumerated. -/
structure HashOrder where
  iter : Finset Bytes32 → List Bytes32
  mem_iter : ∀ set m, m ∈ iter set ↔ m ∈ set
  nodup_iter : ∀ set, (iter set).Nodup

def snapshotVersion : Nat := 1

omit [Loro] [Postcard] in
/-- The cryptographic half of a snapshot. -/
structure CgkaSnapshot where
  cgka : Cgka
  signer : Bytes32
  shareSecret : Bytes32
  knownMembers : List Bytes32
  currentMembers : List Bytes32
  founder : Bytes32
  certificates : List Certificate
  evictedOps : Nat

omit [Loro] [Postcard] in
/-- One node's complete workspace state, ready to encode. -/
structure WorkspaceSnapshot where
  version : Nat
  cgka : CgkaSnapshot
  secret : Bytes32
  manifest : Bytes
  docs : List (DocumentUuid × Bytes)
  lastRef : List (DocumentUuid × Bytes32)
  endpointId : Option Bytes32
  namespaceEpoch : NamespaceEpoch
  namespaceTicket : Bytes
  publishedUpTo : List (DocumentUuid × Bytes)

namespace CgkaController

omit [Loro] [Postcard]

/-- Capture the whole cryptographic state; the parked operations are left out. -/
def snapshot (order : HashOrder) (c : CgkaController) : CgkaSnapshot where
  cgka := c.cgka
  signer := c.signer
  shareSecret := c.shareSecret
  knownMembers := order.iter c.knownMembers
  currentMembers := order.iter c.currentMembers
  founder := c.certs.founder
  certificates := c.certs.certificates
  evictedOps := c.evictedOps

/-- Resume from a snapshot: the capability closure is recomputed. -/
def fromSnapshot (snapshot : CgkaSnapshot) : Except CoreError CgkaController := do
  let knownMembers ← snapshot.knownMembers.mapM memberFromBytes
  let currentMembers ← snapshot.currentMembers.mapM memberFromBytes
  return {
    cgka := snapshot.cgka
    signer := snapshot.signer
    memberId := snapshot.signer
    shareSecret := snapshot.shareSecret
    shareKey := Beekem.shareKey snapshot.shareSecret
    knownMembers := knownMembers.toFinset
    currentMembers := currentMembers.toFinset
    certs := ((CapabilityStore.new snapshot.founder).extend snapshot.certificates).2
    parked := []
    evictedOps := snapshot.evictedOps }

end CgkaController

namespace WorkspaceState

omit [Keyhive] [Beekem] [Postcard] in
/-- Capture a document. -/
def snapshotDoc (doc : LoroDoc) : Except CoreError Bytes :=
  (Loro.exportAs .snapshot (Loro.commit doc)).mapError CoreError.manifest

omit [Keyhive] [Beekem] [Postcard] in
/-- Read an export back into a replica. -/
def restoreInto (doc : LoroDoc) (bytes : Bytes) : Except CoreError LoroDoc :=
  match Loro.importBytes bytes doc with
  | .ok _ doc => .ok doc
  | .error message _ => .error (.manifest message)

/-- Everything a node needs to resume. -/
def snapshot (order : HashOrder) (s : WorkspaceState) : Except CoreError WorkspaceSnapshot := do
  let docs ← s.docs.toList.mapM fun entry => (snapshotDoc entry.2).map fun bytes =>
    (entry.1, bytes)
  let manifest ← snapshotDoc s.manifest
  return {
    version := snapshotVersion
    cgka := s.cgka.snapshot order
    secret := s.secret
    manifest
    docs
    lastRef := s.lastRef.toList
    endpointId := s.endpointId
    namespaceEpoch := s.namespaceEpoch
    namespaceTicket := s.namespaceTicket
    publishedUpTo := s.publishedUpTo.toList }

/-- Resume from a snapshot: the queues are empty and the counters zero. -/
def fromSnapshot (snapshot : WorkspaceSnapshot) : Except CoreError WorkspaceState := do
  if snapshot.version ≠ snapshotVersion then
    throw (.snapshotVersion snapshot.version snapshotVersion)
  let manifest ← restoreInto Loro.new snapshot.manifest
  let docs ← snapshot.docs.mapM fun entry => (restoreInto newDoc entry.2).map fun doc =>
    (entry.1, doc)
  let cgka ← CgkaController.fromSnapshot snapshot.cgka
  return {
    cgka
    secret := snapshot.secret
    manifest
    docs := .ofList docs
    pendingChunks := []
    pendingBytes := 0
    evictedChunks := 0
    unreadableChunks := 0
    corruptChunks := 0
    repairsAnswered := 0
    lastRef := .ofList snapshot.lastRef
    publishedUpTo := .ofList snapshot.publishedUpTo
    deltasSinceFull := .empty
    endpointId := snapshot.endpointId
    namespaceEpoch := snapshot.namespaceEpoch
    executedHere := .empty
    namespaceTicket := snapshot.namespaceTicket }

/-- Store the state and resume from what was stored. -/
def restart (order : HashOrder) : Run (List Effect) := do
  let s ← self
  let snapshot ← verdict (s.snapshot order)
  let resumed ← verdict (fromSnapshot snapshot)
  update fun _ => resumed
  return []

end WorkspaceState

end IrohBeekem
