import IrohBeekem.State.State

/-!
# Documents in and out

The half of the state machine that encrypts what this node publishes, and parks,
decrypts and merges what arrives.  Every publish encrypts once, and returns the
operations the encryption needed before the ciphertext they key.
-/

namespace IrohBeekem

open Library

variable [Keyhive] [Beekem] [Loro] [Postcard]

namespace WorkspaceState

/-! ## Publishing -/

/-- Encrypt under the current epoch or a fresh one; the operations come in the
order they must be broadcast. -/
def encryptKeyed (plaintext : Bytes) (preds : List Bytes32) :
    Keying → Run (Chunk OpHash × List ControlOp)
  | .current => do
      let (chunk, implicit) ← onCgkaRng (CgkaController.encrypt plaintext preds)
      return (chunk, implicit.toList)
  | .fresh => onCgkaRng (CgkaController.encryptFresh plaintext preds)

/-- Encrypt the manifest for storage at its well-known key. -/
def publishManifest (keying : Keying) : Run (List Effect) := do
  let snapshot ← onManifest Manifest.exportSnapshot
  let (chunk, ops) ← encryptKeyed snapshot [] keying
  let s ← self
  return ops.map Effect.broadcast ++ [.storeManifest (WorkspaceSecret.manifestKey s.secret) chunk]

/-- Re-announce the capability this node holds. -/
def republishNamespace (keying : Keying) : Run (List Effect) := do
  let s ← self
  if s.namespaceTicket = [] then return []
  else
    let (chunk, ops) ← encryptKeyed s.namespaceTicket [] keying
    let s ← self
    return ops.map Effect.broadcast ++ [.publishNamespace s.namespaceEpoch.epoch chunk]

/-- Encrypt an asset's content key to the group. -/
def publishAssetKey (asset : DocumentUuid) (key : Bytes32) (keying : Keying) :
    Run (List Effect) := do
  let (chunk, ops) ← encryptKeyed key.toBytes [] keying
  let s ← self
  return ops.map Effect.broadcast ++
    [.storeChunk (WorkspaceSecret.assetKeyKey s.secret asset) asset chunk]

/-- A document configured as every document here is: no two commits merge. -/
def newDoc : LoroDoc := Loro.setChangeMergeInterval (-1) Loro.new

/-- The document under this id, which is created if there is none. -/
def openDoc (doc : DocumentUuid) : Run LoroDoc := do
  let s ← self
  match s.docs.get? doc with
  | some loro => return loro
  | none =>
      update fun s => { s with docs := s.docs.set doc newDoc }
      return newDoc

/-- Run a call of the document library on one document. -/
def onDoc {α : Type} (doc : DocumentUuid) (rename : String → CoreError)
    (x : EStateM String LoroDoc α) : Run α :=
  zoom (fun p => (p.1.docs.get? doc).getD newDoc)
    (fun loro p => ({ p.1 with docs := p.1.docs.set doc loro }, p.2)) rename x

/-- How much to export: a delta needs a version that decodes. -/
def exportMode (published : Option Bytes) : Extent → ExportMode
  | .full => .allUpdates
  | .delta =>
      match published with
      | some version => if Loro.decodesVv version then .updates version else .allUpdates
      | none => .allUpdates

/-- Record that a document was published at a version, in a chunk. -/
def recordPublish (doc : DocumentUuid) (extent : Extent) (nowAt : Bytes) (contentRef : Bytes32)
    (s : WorkspaceState) : WorkspaceState :=
  { s with
    lastRef := s.lastRef.set doc contentRef
    publishedUpTo := s.publishedUpTo.set doc nowAt
    deltasSinceFull := s.deltasSinceFull.set doc
      (match extent with
        | .delta => (s.deltasSinceFull.get? doc).getD 0 + 1
        | .full => 0) }

/-- Encrypt and emit a document. -/
def publishKeyed (doc : DocumentUuid) (keying : Keying) (extent : Extent) :
    Run (List Effect) := do
  let s ← self
  let published := s.publishedUpTo.get? doc
  let loro ← openDoc doc
  let exported ← verdict ((Loro.exportAs (exportMode published extent) loro).mapError
    CoreError.manifest)
  let nowAt := Loro.oplogVv loro
  let s ← self
  let (chunk, ops) ← encryptKeyed exported (s.lastRef.get? doc).toList keying
  update (recordPublish doc extent nowAt chunk.contentRef)
  let s ← self
  return ops.map Effect.broadcast ++
    [.storeChunk (WorkspaceSecret.storageKey s.secret doc) doc chunk]

/-- Emit an edit: a delta, unless nothing is published or the run is long. -/
def publish (doc : DocumentUuid) : Run (List Effect) := do
  let s ← self
  let extent : Extent :=
    if (s.publishedUpTo.get? doc).isSome ∧
        (s.deltasSinceFull.get? doc).getD 0 < fullPublishEvery then .delta
    else .full
  publishKeyed doc .current extent

/-- Whether everything this node holds of a document is published. -/
def isPublished (doc : DocumentUuid) : Run Bool := do
  let s ← self
  match s.docs.get? doc, s.publishedUpTo.get? doc with
  | some loro, some published =>
      update fun s => { s with docs := s.docs.set doc (Loro.commit loro) }
      return Loro.oplogVv (Loro.commit loro) = published
  | _, _ => return false

/-- What was published was published to a namespace that is gone. -/
def forgetPublished (s : WorkspaceState) : WorkspaceState :=
  { s with publishedUpTo := .empty, deltasSinceFull := .empty }

/-! ## Editing -/

/-- Record that this replica's peer id is the member's, unless it is recorded. -/
def claimAuthorship (member : Bytes32) : EStateM String LoroDoc Unit := do
  let loro ← get
  let peer := hex (beBytes 8 (Loro.peerId loro).val)
  if (Loro.get loro (.root "authors") peer).isSome then return ()
  else
    let _ ← attempt (Loro.insert (.root "authors") peer (hex member.toBytes))
    return ()

/-- Change a document's text and publish the result. -/
def onTextEdit (doc : DocumentUuid) (now : UnixSeconds) (mutate : EStateM String LoroDoc Unit) :
    Run (List Effect) := do
  requireWrite
  let s ← self
  let _ ← openDoc doc
  onDoc doc CoreError.manifest (claimAuthorship s.memberId)
  onDoc doc CoreError.manifest mutate
  onDoc doc CoreError.manifest (modify (Loro.commitWith now))
  publish doc

def onAppend (doc : DocumentUuid) (text : String) (now : UnixSeconds) : Run (List Effect) :=
  onTextEdit doc now do
    let loro ← get
    Loro.insertText (Loro.lenUnicode loro) text

def onWrite (doc : DocumentUuid) (text : String) (now : UnixSeconds) : Run (List Effect) :=
  onTextEdit doc now (Loro.updateText text)

/-- Positions are clamped. -/
def onInsert (doc : DocumentUuid) (pos : Nat) (text : String) (now : UnixSeconds) :
    Run (List Effect) :=
  onTextEdit doc now do
    let loro ← get
    Loro.insertText (min pos (Loro.lenUnicode loro)) text

def onDelete (doc : DocumentUuid) (pos len : Nat) (now : UnixSeconds) : Run (List Effect) :=
  onTextEdit doc now do
    let loro ← get
    let stop := Loro.lenUnicode loro
    let start := min pos stop
    Loro.deleteText start (min len (stop - start))

/-- Put a document back as it was at a version, as a forward edit. -/
def onRevert (doc : DocumentUuid) (version : VersionId) (now : UnixSeconds) :
    Run (List Effect) := do
  requireWrite
  if ¬ Loro.decodesFrontiers version then throw (.unknownVersion version.display)
  else
    let s ← self
    match s.docs.get? doc with
    | none => throw .unknownDocument
    | some _ =>
        onDoc doc CoreError.manifest (claimAuthorship s.memberId)
        onDoc doc (fun _ => .unknownVersion version.display) (Loro.revertTo version)
        onDoc doc CoreError.manifest (modify (Loro.commitWith now))
        publish doc

/-- Re-announce a document, unless all of it is published. -/
def onResync (doc : DocumentUuid) : Run (List Effect) := do
  requireWrite
  let s ← self
  if (s.docs.get? doc).isNone then return []
  else if ← isPublished doc then return []
  else publishKeyed doc .current .full

/-! ## Arriving chunks -/

/-- Evict the oldest chunks until one of this size fits. -/
def evictFor (size : Nat) : List Parked → Nat → Nat → List Parked × Nat × Nat
  | [], bytes, evicted => ([], bytes, evicted)
  | oldest :: rest, bytes, evicted =>
      if maxPendingChunks ≤ (oldest :: rest).length ∨ maxPendingChunkBytes < bytes + size then
        evictFor size rest (bytes - oldest.chunk.ciphertext.length) (evicted + 1)
      else (oldest :: rest, bytes, evicted)

/-- Park a chunk, within the budget. -/
def parkChunk (doc : DocumentUuid) (chunk : Chunk OpHash) (s : WorkspaceState) :
    WorkspaceState :=
  let (queue, bytes, evicted) :=
    evictFor chunk.ciphertext.length s.pendingChunks s.pendingBytes s.evictedChunks
  { s with
    pendingChunks := queue ++ [⟨doc, chunk, 0⟩]
    pendingBytes := bytes + chunk.ciphertext.length
    evictedChunks := evicted }

/-- Decrypt and merge one chunk. -/
def tryApply (doc : DocumentUuid) (chunk : Chunk OpHash) : Run ChunkVerdict := do
  match ← attempt (onCgka (CgkaController.decrypt chunk)) with
  | .ok (.plaintext plaintext) =>
      let _ ← openDoc doc
      match ← attempt (onDoc doc CoreError.manifest (Loro.importBytes plaintext)) with
      | .ok false =>
          update fun s => { s with lastRef := s.lastRef.set doc chunk.contentRef }
          return .applied
      | _ => return .awaitingDeps
  | .ok .awaitingOp => return .awaitingKey
  | .ok .unreachable => return .unreachable
  | .error _ => return .corrupt

/-- Put a chunk back in the queue, one pass older. -/
def requeue (parked : Parked) (s : WorkspaceState) : WorkspaceState :=
  { s with
    pendingBytes := s.pendingBytes + parked.chunk.ciphertext.length
    pendingChunks := s.pendingChunks ++ [{ parked with drains := parked.drains + 1 }] }

/-- One pass over parked chunks: how many applied, and what to emit. -/
def drainRound : List Parked → Nat → List Effect → Run (Nat × List Effect)
  | [], applied, effects => return (applied, effects)
  | parked :: rest, applied, effects => do
      match ← tryApply parked.doc parked.chunk with
      | .applied => drainRound rest (applied + 1) (effects ++ [.applied parked.doc])
      | .awaitingKey =>
          update (requeue parked)
          drainRound rest applied effects
      | .awaitingDeps =>
          update (requeue parked)
          if maxDepWaitDrains ≤ parked.drains + 1 then
            drainRound rest applied
              (effects ++ [.requestRepair (.documentHistory parked.doc) (epochId parked.chunk)])
          else drainRound rest applied effects
      | .unreachable =>
          update fun s => { s with unreadableChunks := s.unreadableChunks + 1 }
          drainRound rest applied
            (effects ++ [.requestRepair (.document parked.doc) (epochId parked.chunk)])
      | .corrupt =>
          update fun s => { s with corruptChunks := s.corruptChunks + 1 }
          drainRound rest applied effects

/-- The loop of `drain_pending`: passes until one applies nothing. -/
def drainRounds : Nat → List Effect → Run (List Effect)
  | 0, effects => return effects
  | fuel + 1, effects => do
      let s ← self
      update fun s => { s with pendingChunks := [], pendingBytes := 0 }
      let (applied, effects) ← drainRound s.pendingChunks 0 effects
      if applied = 0 then return effects else drainRounds fuel effects

/-- Retry every parked chunk while that makes progress.  Every pass but the last
takes a chunk off the queue, which bounds the passes. -/
def drainPending : Run (List Effect) := do
  let s ← self
  drainRounds (s.pendingChunks.length + 1) []

/-- Park an arriving chunk if it is new, and retry the queue. -/
def onChunkArrived (doc : DocumentUuid) (chunk : Chunk OpHash) : Run (List Effect) := do
  let s ← self
  let alreadyParked := s.pendingChunks.any fun parked =>
    parked.doc = doc ∧ parked.chunk.contentRef = chunk.contentRef ∧
      parked.chunk.pcsKeyHash = chunk.pcsKeyHash
  if ¬ alreadyParked then update (parkChunk doc chunk)
  drainPending

/-! ## The manifest -/

/-- Write the announced address into the manifest if it has a record for it. -/
def recordEndpoint : Run Bool := do
  let s ← self
  match s.endpointId with
  | none => return false
  | some endpointId =>
      if (s.manifest.device s.memberId).bind DeviceDisplay.endpointId = some endpointId then
        return false
      else
        match ← attempt (onManifest (Manifest.setDeviceEndpoint s.memberId endpointId)) with
        | .ok _ => return true
        | .error .unknownDevice => return false
        | .error err => throw err

/-- Merge an arriving manifest, and announce the address again if it now fits. -/
def onManifestArrived (chunk : Chunk OpHash) : Run (List Effect) := do
  match ← attempt (onCgka (CgkaController.decrypt chunk)) with
  | .ok (.plaintext plaintext) =>
      onManifest (Manifest.importBytes plaintext)
      if ← recordEndpoint then
        let more ← publishManifest .current
        return .manifestUpdated :: more
      else return [.manifestUpdated]
  | .ok .awaitingOp => return []
  | .ok .unreachable =>
      update fun s => { s with unreadableChunks := s.unreadableChunks + 1 }
      return [.requestRepair .manifest (epochId chunk)]
  | .error _ =>
      update fun s => { s with corruptChunks := s.corruptChunks + 1 }
      return []

/-- A deleted document leaves no trace on this node. -/
def dropDoc (doc : DocumentUuid) (s : WorkspaceState) : WorkspaceState :=
  let dropped := s.pendingChunks.filter fun parked => parked.doc = doc
  { s with
    docs := s.docs.erase doc
    lastRef := s.lastRef.erase doc
    publishedUpTo := s.publishedUpTo.erase doc
    deltasSinceFull := s.deltasSinceFull.erase doc
    pendingChunks := s.pendingChunks.filter fun parked => parked.doc ≠ doc
    pendingBytes := dropped.foldl (fun bytes parked => bytes - parked.chunk.ciphertext.length)
      s.pendingBytes }

/-- Delete a document and withdraw this node's entries for it. -/
def onDeleteFile (doc : DocumentUuid) : Run (List Effect) := do
  requireWrite
  let s ← self
  let versions := s.manifest.assetVersions doc
  onManifest (Manifest.deleteFile doc)
  update (dropDoc doc)
  let withdrawn : List Effect :=
    if versions.isEmpty then [.deleteEntry (WorkspaceSecret.storageKey s.secret doc) doc]
    else versions.flatMap fun version =>
      [.deleteEntry (WorkspaceSecret.assetKeyKey s.secret version.content) version.content,
        .deleteAssetSegments (WorkspaceSecret.assetPrefix s.secret version.content)
          version.content]
  let published ← publishManifest .current
  return withdrawn ++ published

/-! ## Direct methods -/

/-- Name the state the workspace is in. -/
def checkpoint (name message : String) (now : UnixSeconds) :
    Run (List Effect × Bytes32) := do
  requireWrite
  let s ← self
  let entries := s.manifest.files.filterMap fun entry =>
    (s.documentVersion entry.uuid).map fun version => (entry.uuid, version)
  let checkpoint : Checkpoint :=
    { name, message, author := s.memberId, date := now
      entries := entries.mergeSort fun a b => a.1 ≤ b.1 }
  onManifest (Manifest.addCheckpoint checkpoint)
  let effects ← publishManifest .current
  return (effects, checkpoint.digest)

/-- The loop of `restore_checkpoint` over the entries of the checkpoint. -/
def restoreEntries (live : List DocumentUuid) (now : UnixSeconds) :
    List (DocumentUuid × VersionId) → List Effect → List RestoreOutcome →
      Run (List Effect × List RestoreOutcome)
  | [], effects, outcomes => return (effects, outcomes)
  | (doc, version) :: rest, effects, outcomes => do
      let s ← self
      if doc ∉ live then restoreEntries live now rest effects (outcomes ++ [.deleted doc])
      else if s.documentVersion doc = some version then
        restoreEntries live now rest effects (outcomes ++ [.unchanged doc])
      else
        match ← attempt (onRevert doc version now) with
        | .ok produced =>
            restoreEntries live now rest (effects ++ produced) (outcomes ++ [.restored doc])
        | .error (.unknownVersion _) =>
            restoreEntries live now rest effects (outcomes ++ [.unavailable doc])
        | .error .unknownDocument =>
            restoreEntries live now rest effects (outcomes ++ [.unavailable doc])
        | .error other => throw other

/-- Put every entry a checkpoint names back to its version. -/
def restoreCheckpoint (digest : Bytes32) (now : UnixSeconds) :
    Run (List Effect × List RestoreOutcome) := do
  requireWrite
  let s ← self
  match s.manifest.checkpoint digest with
  | none => throw (.unknownVersion (hex digest.toBytes))
  | some checkpoint =>
      restoreEntries (s.manifest.files.map FileEntry.uuid) now checkpoint.entries [] []

/-- Record a new version of an asset. -/
def addAssetVersion (doc content : DocumentUuid) (assetMeta : AssetMeta) (now : UnixSeconds) :
    Run (List Effect) := do
  requireWrite
  let s ← self
  let seq := CapabilityStore.nextAfter
    ((s.manifest.assetVersions doc).map AssetVersion.seq)
  onManifest (Manifest.addAssetVersion doc
    { content, assetMeta, author := s.memberId, date := now, seq })
  publishManifest .current

/-- Make an earlier version of an asset the current one again. -/
def revertAsset (doc content : DocumentUuid) (now : UnixSeconds) : Run (List Effect) := do
  requireWrite
  let s ← self
  match (s.manifest.assetVersions doc).find? fun version => version.content = content with
  | none => throw (.unknownVersion (hex content.toBytes))
  | some target => addAssetVersion doc content target.assetMeta now

/-- Draw a content key for a new asset and publish it. -/
def sealAssetKey (asset : DocumentUuid) : Run (Bytes32 × List Effect) := do
  requireWrite
  let (s, rng) ← get
  let (key, rng) := Beekem.randomKey rng
  set (s, rng)
  let effects ← publishAssetKey asset key .current
  return (key, effects)

/-- Recover an asset's content key from the chunk that wraps it. -/
def openAssetKey (keyChunk : Chunk OpHash) : Run AssetKeyVerdict := do
  match ← attempt (onCgka (CgkaController.decrypt keyChunk)) with
  | .ok (.plaintext bytes) =>
      match bytes32? bytes with
      | some key => return .ready key
      | none => return .corrupt
  | .ok .awaitingOp => return .awaitingKey
  | .ok .unreachable => return .unreachable
  | .error _ => return .corrupt

/-- Answer a peer stuck on an asset it cannot decrypt. -/
def resealAssetKey (requester : Bytes32) (asset : DocumentUuid) (keyChunk : Chunk OpHash) :
    Run (List Effect) := do
  let s ← self
  if ¬ s.cgka.isCurrentMember requester then throw (.unauthorized requester)
  else
    requireWrite
    match ← openAssetKey keyChunk with
    | .ready key =>
        let effects ← publishAssetKey asset key .fresh
        if effects ≠ [] then
          update fun s => { s with repairsAnswered := s.repairsAnswered + 1 }
        return effects
    | _ => return []

end WorkspaceState

end IrohBeekem
