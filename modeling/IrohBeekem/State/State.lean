import IrohBeekem.Docs.Manifest
import IrohBeekem.Keys.Controller

/-!
# The workspace state

One node's complete state, the events that happen to it and the effects it asks
its caller to perform.  The state machine takes no decision about time or
transport: randomness is an argument, and so is the date of an edit.
-/

namespace IrohBeekem

open Library

/-! ## Storage keys -/

section Blinding

variable [Beekem]

/-- The bytes of a label. -/
def label (text : String) : Bytes := text.toUTF8.data.toList

namespace WorkspaceSecret

def storageKey (secret : Bytes32) (doc : DocumentUuid) : Bytes32 :=
  Beekem.keyedHash secret (label "iroh-beekem/storage-key/v1" ++ doc.toBytes)

def manifestKey (secret : Bytes32) : Bytes32 :=
  Beekem.keyedHash secret (label "iroh-beekem/manifest/v1")

def assetKeyKey (secret : Bytes32) (asset : DocumentUuid) : Bytes32 :=
  Beekem.keyedHash secret (label "iroh-beekem/asset-key/v1" ++ asset.toBytes)

/-- The first twenty-four bytes of the digest. -/
def assetPrefix (secret : Bytes32) (asset : DocumentUuid) : Bytes24 :=
  Fin.ofNat _
    ((Beekem.keyedHash secret (label "iroh-beekem/asset-part/v1" ++ asset.toBytes)).val / 2 ^ 64)

end WorkspaceSecret

end Blinding

/-! ## Events and effects -/

/-- What a repair request asks somebody to encrypt again. -/
inductive RepairTarget where
  | namespace_
  | document (doc : DocumentUuid)
  | documentHistory (doc : DocumentUuid)
  | assetKey (asset : DocumentUuid)
  | manifest
  deriving DecidableEq

/-- Which generation of the replicated index a node is on.  Concurrent rotations
mint the same counter, and the digest of the capability chooses between them. -/
structure NamespaceEpoch where
  epoch : U32
  digest : Bytes32
  deriving DecidableEq

namespace NamespaceEpoch

def initial : NamespaceEpoch := ⟨0, 0⟩

/-- The generation a capability belongs to. -/
def of [Beekem] (epoch : U32) (ticket : Bytes) : NamespaceEpoch :=
  ⟨epoch, Beekem.hashBytes ticket⟩

/-- The derived order: the counter first. -/
def rank (n : NamespaceEpoch) : U32 ×ₗ Bytes32 := toLex (n.epoch, n.digest)

theorem epoch_le_of_rank_le {x y : NamespaceEpoch} (h : x.rank ≤ y.rank) : x.epoch ≤ y.epoch := by
  rcases Prod.Lex.toLex_le_toLex.mp h with hlt | ⟨heq, -⟩
  · exact le_of_lt hlt
  · exact le_of_eq heq

end NamespaceEpoch

section Messages

variable [Keyhive] [Beekem]

/-- The epoch a chunk was encrypted under. -/
def epochId (chunk : Chunk OpHash) : Bytes32 := chunk.pcsKeyHash

/-- Something that happened to this node. -/
inductive Event where
  | controlOp (op : AuthorizedOp)
  | certsArrived (certs : List Certificate)
  | chunkArrived (doc : DocumentUuid) (chunk : Chunk OpHash)
  | localEdit (doc : DocumentUuid) (text : String)
  | writeFile (doc : DocumentUuid) (text : String)
  | insertText (doc : DocumentUuid) (pos : Nat) (text : String)
  | removeText (doc : DocumentUuid) (pos len : Nat)
  | revertDocument (doc : DocumentUuid) (version : VersionId)
  | deleteFile (doc : DocumentUuid)
  | addUser (member shareKey : Bytes32) (role : Role) (displayName : String)
      (endpoint : Option Bytes32)
  | addDevice (member shareKey user : Bytes32) (label : String) (endpoint : Option Bytes32)
  | removeMember (member : Bytes32)
  | propose (action : AdminAction) (expires : Option U64)
  | resyncCertificates
  | approve (proposal : Bytes32)
  | leave
  | rotate
  | manifestArrived (chunk : Chunk OpHash)
  | upsertFile (entry : FileEntry)
  | renameFile (doc : DocumentUuid) (path : String)
  | setRole (user : Bytes32) (role : Role)
  | setInfo (info : WorkspaceInfo)
  | setDisplayName (displayName : String)
  | announceAuthor (author : Bytes32)
  | announceEndpoint (endpointId : Bytes32)
  | resync (doc : DocumentUuid)
  | namespaceMinted (epoch : U32) (ticket : Bytes)
  | namespaceArrived (epoch : U32) (chunk : Chunk OpHash)
  | resyncNamespace
  | resyncManifest
  | repairRequested (requester : Bytes32) (target : RepairTarget) (epoch : Bytes32)

/-- Something the caller must do on this node's behalf. -/
inductive Effect where
  | broadcastOp (op : ControlOp) (proof : List Certificate)
  | broadcastCerts (certs : List Certificate)
  | evictUncertified (member : Bytes32)
  | storeChunk (key : Bytes32) (doc : DocumentUuid) (chunk : Chunk OpHash)
  | storeManifest (key : Bytes32) (chunk : Chunk OpHash)
  | deleteEntry (key : Bytes32) (doc : DocumentUuid)
  | deleteAssetSegments (range : Bytes24) (asset : DocumentUuid)
  | applied (doc : DocumentUuid)
  | manifestUpdated
  | rotateNamespace (epoch : U32)
  | publishNamespace (epoch : U32) (chunk : Chunk OpHash)
  | adoptNamespace (epoch : U32) (ticket : Bytes)
  | requestRepair (target : RepairTarget) (epoch : Bytes32)
  | resealAssetKey (requester : Bytes32) (asset : DocumentUuid)

/-- Broadcast an operation that needs no certificate of its own. -/
def Effect.broadcast (op : ControlOp) : Effect := .broadcastOp op []

/-- A message on the control plane. -/
inductive ControlMsg where
  | op (op : ControlOp) (proof : List Certificate)
  | log (ops : List ControlOp) (certs : List Certificate)
  | certs (certs : List Certificate)
  | announce (key : Bytes32)
  | repair (member : Bytes32) (target : RepairTarget) (epoch : Bytes32)
  | namespace_ (epoch : U32) (chunk : Chunk OpHash)

def maxLogOps : Nat := 100000

def maxLogCerts : Nat := 10000

end Messages

/-- How much ciphertext may be parked. -/
def maxPendingChunkBytes : Nat := 64 * 1024 * 1024

/-- How many chunks may be parked, whatever their size. -/
def maxPendingChunks : Nat := 4096

/-- How many fruitless passes a chunk endures before its history is asked for. -/
def maxDepWaitDrains : Nat := 8

/-- How many deltas a document publishes before it publishes everything. -/
def fullPublishEvery : Nat := 16

/-- What the local node could do with a parked chunk. -/
inductive ChunkVerdict where
  | applied
  | awaitingKey
  | awaitingDeps
  | unreachable
  | corrupt
  deriving DecidableEq

/-- What came of unwrapping an asset's content key. -/
inductive AssetKeyVerdict where
  | ready (key : Bytes32)
  | awaitingKey
  | unreachable
  | corrupt
  deriving DecidableEq

/-- Which epoch key a publish is under. -/
inductive Keying where
  | current
  | fresh
  deriving DecidableEq

/-- How much of a document's history a publish carries. -/
inductive Extent where
  | delta
  | full
  deriving DecidableEq

/-- What became of one entry of a restored checkpoint. -/
inductive RestoreOutcome where
  | restored (doc : DocumentUuid)
  | unchanged (doc : DocumentUuid)
  | deleted (doc : DocumentUuid)
  | unavailable (doc : DocumentUuid)
  deriving DecidableEq

/-! ## The state -/

/-- A chunk waiting to be decrypted or merged. -/
structure Parked [Beekem] where
  doc : DocumentUuid
  chunk : Chunk OpHash
  /-- The passes it has survived. -/
  drains : Nat

/-- A parked chunk that is taken for this one. -/
def Parked.copies [Beekem] (doc : DocumentUuid) (chunk : Chunk OpHash) (parked : Parked) : Prop :=
  parked.doc = doc ∧ parked.chunk.contentRef = chunk.contentRef ∧
    parked.chunk.pcsKeyHash = chunk.pcsKeyHash

instance [Beekem] (doc : DocumentUuid) (chunk : Chunk OpHash) :
    DecidablePred (Parked.copies doc chunk) :=
  fun _ => inferInstanceAs (Decidable (_ ∧ _ ∧ _))

variable [Keyhive] [Beekem] [Loro] [Postcard]

/-- One node's complete workspace state. -/
structure WorkspaceState where
  cgka : CgkaController
  secret : Bytes32
  manifest : Manifest
  docs : BTreeMap DocumentUuid LoroDoc
  pendingChunks : List Parked
  /-- The ciphertext bytes held in `pendingChunks`. -/
  pendingBytes : Nat
  evictedChunks : Nat
  unreadableChunks : Nat
  corruptChunks : Nat
  repairsAnswered : Nat
  /-- The latest chunk published or applied, per document. -/
  lastRef : BTreeMap DocumentUuid Bytes32
  /-- The version published, per document. -/
  publishedUpTo : BTreeMap DocumentUuid Bytes
  deltasSinceFull : BTreeMap DocumentUuid Nat
  endpointId : Option Bytes32
  namespaceEpoch : NamespaceEpoch
  /-- Quorum proposals this node has already performed. -/
  executedHere : BTreeSet Bytes32
  /-- The capability for the namespace, empty on the founding one. -/
  namespaceTicket : Bytes

/-- A program over the state and the generator. -/
abbrev Run (α : Type) := EStateM CoreError (WorkspaceState × Rng) α

namespace WorkspaceState

def capabilities (s : WorkspaceState) : CapabilityStore := s.cgka.certs

def memberId (s : WorkspaceState) : Bytes32 := s.cgka.memberId

/-- A node around an initialised controller: a joiner's manifest is empty. -/
def joined (cgka : CgkaController) (secret : Bytes32) (namespaceEpoch : U32) :
    WorkspaceState where
  cgka := cgka
  secret := secret
  manifest := Loro.new
  docs := .empty
  pendingChunks := []
  pendingBytes := 0
  evictedChunks := 0
  unreadableChunks := 0
  corruptChunks := 0
  repairsAnswered := 0
  lastRef := .empty
  publishedUpTo := .empty
  deltasSinceFull := .empty
  endpointId := none
  namespaceEpoch := { NamespaceEpoch.initial with epoch := namespaceEpoch }
  executedHere := .empty
  namespaceTicket := []

/-- The version of a document this replica holds. -/
def documentVersion (s : WorkspaceState) (doc : DocumentUuid) : Option VersionId :=
  (s.docs.get? doc).map Loro.oplogFrontiers

/-! ## Access to the components -/

/-- Run a method of the controller. -/
def onCgka {α : Type} (x : EStateM CoreError CgkaController α) : Run α :=
  zoom (fun p => p.1.cgka) (fun c p => ({ p.1 with cgka := c }, p.2)) id x

/-- Run a method of the controller that draws randomness. -/
def onCgkaRng {α : Type} (x : EStateM CoreError (CgkaController × Rng) α) : Run α :=
  zoom (fun p => (p.1.cgka, p.2)) (fun q p => ({ p.1 with cgka := q.1 }, q.2)) id x

/-- Run a method of the manifest. -/
def onManifest {α : Type} (x : EStateM CoreError Manifest α) : Run α :=
  zoom (fun p => p.1.manifest) (fun m p => ({ p.1 with manifest := m }, p.2)) id x

/-- The state, for a method that only reads it. -/
def self : Run WorkspaceState := do
  let (s, _) ← get
  return s

/-- Change the state without failing. -/
def update (f : WorkspaceState → WorkspaceState) : Run Unit := modify fun p => (f p.1, p.2)

def randomNonce : Run Bytes16 := do
  let (s, rng) ← get
  let (nonce, rng) := Beekem.randomNonce rng
  set (s, rng)
  return nonce

/-! ## Permissions -/

/-- Refuse unless the local device may administer. -/
def requireAdmin : Run Unit := do
  let s ← self
  if s.capabilities.mayAdminister s.memberId then return () else throw .notAnAdmin

/-- The best approval count a proposal for this action has reached. -/
def matchingApprovals (s : WorkspaceState) (action : AdminAction) : Nat :=
  ((s.capabilities.proposals.filter fun status => status.action = action).map
    fun status => min status.approvals (2 ^ 32 - 1)).max?.getD 0

/-- Refuse an action a quorum governs and has not authorised. -/
def requireQuorum (action : AdminAction) : Run Unit := do
  requireAdmin
  let s ← self
  if s.capabilities.threshold ≤ defaultThreshold then return ()
  else if s.capabilities.executable.any fun entry => entry.2 = action then return ()
  else throw (.quorumRequired s.capabilities.threshold (s.matchingApprovals action))

/-- Refuse to enrol a device for a user the local device may not act for. -/
def requireMayAddDeviceTo (user : Bytes32) : Run Unit := do
  let s ← self
  if s.capabilities.mayBindDeviceTo s.memberId user then return ()
  else throw .notThisUsersDevice

/-- Refuse a write only when a role is recorded and cannot write. -/
def requireWrite : Run Unit := do
  let s ← self
  match s.capabilities.roleOfMember s.memberId with
  | some role => if ¬ role.canWrite then throw .notAWriter else return ()
  | none => return ()

/-- Refuse to strip the last admin. -/
def requireNotLastAdmin (user : Bytes32) : Run Unit := do
  let s ← self
  if (s.capabilities.roleOf user).any Role.canAdminister ∧ s.capabilities.adminCount ≤ 1 then
    throw .lastAdmin
  else return ()

/-- Whether this device speaks for the founding user. -/
def isFounderDevice (s : WorkspaceState) : Bool :=
  s.capabilities.userOf s.memberId = some s.capabilities.founder

/-- The certificates a receiver needs to verify an action's quorum. -/
def quorumProof (s : WorkspaceState) (action : AdminAction) : List Certificate :=
  if s.capabilities.threshold ≤ defaultThreshold then [] else s.capabilities.proofOf action

end WorkspaceState

end IrohBeekem
