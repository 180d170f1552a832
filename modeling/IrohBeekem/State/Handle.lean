import IrohBeekem.State.Publish

/-!
# The state machine

`handle` takes one event and `onControl` one message of the control plane; both
return the effects to perform, or fail.  A failure does not undo what the handler
had already done to the state.
-/

namespace IrohBeekem

open Library

variable [Keyhive] [Beekem] [Loro] [Postcard]

namespace WorkspaceState

/-- Build the founder's state: its own records and its three founding
certificates. -/
def foundingRecords (threshold : U32) : EStateM CoreError WorkspaceState Unit := do
  let s ← get
  let manifest {α : Type} (x : EStateM CoreError Manifest α) :
      EStateM CoreError WorkspaceState α :=
    zoom WorkspaceState.manifest (fun m s => { s with manifest := m }) id x
  let certify (x : EStateM CoreError CgkaController Certificate) :
      EStateM CoreError WorkspaceState Certificate :=
    zoom WorkspaceState.cgka (fun c s => { s with cgka := c }) id x
  manifest (Manifest.setUser s.memberId "")
  manifest (Manifest.setDevice s.memberId "first device")
  let _ ← certify (CgkaController.certifyDevice s.memberId s.memberId 0)
  let _ ← certify (CgkaController.certifyRole s.memberId .admin 0)
  let _ ← certify (CgkaController.certifyPolicy threshold 0)

/-- The founding node's state, which records it as the first admin. -/
def found (cgka : CgkaController) (secret : Bytes32) (threshold : U32) :
    Except CoreError WorkspaceState :=
  match foundingRecords threshold (joined cgka secret NamespaceEpoch.initial.epoch) with
  | .ok _ s => .ok s
  | .error err _ => .error err

/-! ## Membership -/

/-- Add a leaf and record whatever the manifest needs; a repeat admission ships
the certificates alone. -/
def admitLeaf (member shareKey : Bytes32) (certs : List Certificate)
    (record : EStateM CoreError Manifest Unit) : Run (List Effect) := do
  let op ← onCgka (CgkaController.addMember member shareKey)
  match op with
  | some op =>
      onManifest record
      let published ← publishManifest .current
      return .broadcastOp op certs :: published
  | none =>
      let published ← publishManifest .current
      return .broadcastCerts certs :: published

/-- The records of a new user and its first device. -/
def userRecords (member : Bytes32) (displayName : String) (endpoint : Option Bytes32) :
    EStateM CoreError Manifest Unit := do
  Manifest.setUser member displayName
  Manifest.setDevice member "first device"
  match endpoint with
  | none => pure ()
  | some endpoint => Manifest.setDeviceEndpoint member endpoint

/-- The records of a new device. -/
def deviceRecords (member : Bytes32) (label : String) (endpoint : Option Bytes32) :
    EStateM CoreError Manifest Unit := do
  Manifest.setDevice member label
  match endpoint with
  | none => pure ()
  | some endpoint => Manifest.setDeviceEndpoint member endpoint

/-- Admit a new person with their first device, whose id is the user's. -/
def onAddUser (member shareKey : Bytes32) (role : Role) (displayName : String)
    (endpoint : Option Bytes32) : Run (List Effect) := do
  let s ← self
  if defaultThreshold < s.capabilities.threshold ∧ ¬ s.isFounderDevice then
    requireQuorum (.setRole member role)
  let nonce ← randomNonce
  let binding ← onCgka (CgkaController.certifyDevice member member nonce)
  let nonce ← randomNonce
  let grant ← onCgka (CgkaController.certifyRole member role nonce)
  admitLeaf member shareKey [binding, grant] (userRecords member displayName endpoint)

/-- Admit another device of an existing person. -/
def onAddDevice (member shareKey user : Bytes32) (label : String)
    (endpoint : Option Bytes32) : Run (List Effect) := do
  let nonce ← randomNonce
  let binding ← onCgka (CgkaController.certifyDevice member user nonce)
  admitLeaf member shareKey [binding] (deviceRecords member label endpoint)

/-- Retract one leaf, with the authorisation already decided: the removal first,
then the request for a new namespace. -/
def performRemoval (member : Bytes32) : Run (List Effect) := do
  let s ← self
  let owner := (s.capabilities.userOf member).getD member
  if (s.capabilities.devicesOf owner).length ≤ 1 then requireNotLastAdmin owner
  match ← onCgka (CgkaController.removeMember member) with
  | none => return []
  | some op =>
      update fun s => { s with
        namespaceEpoch := { s.namespaceEpoch with epoch := satSucc s.namespaceEpoch.epoch } }
      let s ← self
      return [.broadcastOp op (s.quorumProof (.removeMember member)),
        .rotateNamespace s.namespaceEpoch.epoch]

def onRemoveMember (member : Bytes32) : Run (List Effect) := do
  requireQuorum (.removeMember member)
  performRemoval member

/-- The loop of `run_quorum_actions`: a removal that fails is left for later. -/
def performActions : List (Bytes32 × AdminAction) → List Effect → Run (List Effect)
  | [], effects => return effects
  | (digest, action) :: rest, effects => do
      let done : Run Unit := update fun s => { s with executedHere := s.executedHere.insert digest }
      match action with
      | .removeMember member =>
          match memberFromBytes member with
          | .error _ =>
              done
              performActions rest effects
          | .ok member =>
              match ← attempt (performRemoval member) with
              | .ok produced =>
                  done
                  performActions rest (effects ++ produced)
              | .error _ => performActions rest effects
      | .setRole _ _ =>
          done
          performActions rest effects

/-- Perform every proposal that has reached quorum and has not run here. -/
def runQuorumActions : Run (List Effect) := do
  let s ← self
  let pending := s.capabilities.executable.filter fun entry =>
    ¬ s.executedHere.contains entry.1
  performActions pending []

/-- The loop of `on_leave` over the leaver's devices. -/
def removeDevices : List Bytes32 → List Effect → Run (List Effect)
  | [], effects => return effects
  | device :: rest, effects =>
      match memberFromBytes device with
      | .error _ => removeDevices rest effects
      | .ok member => do
          match ← onCgka (CgkaController.removeMember member) with
          | some op => removeDevices rest (effects ++ [.broadcast op])
          | none => removeDevices rest effects

/-- The devices that leave with this one: those of its user, or itself. -/
def leavingDevices (s : WorkspaceState) : List Bytes32 :=
  let devices := s.capabilities.devicesOf ((s.capabilities.userOf s.memberId).getD s.memberId)
  if devices.isEmpty then [s.memberId] else devices

/-- Retract every leaf of the local user, without rotating. -/
def onLeave : Run (List Effect) := do
  let s ← self
  requireNotLastAdmin ((s.capabilities.userOf s.memberId).getD s.memberId)
  removeDevices s.leavingDevices []

/-! ## Roles and quorum -/

/-- Assign a role: the founder alone, or whoever a quorum let. -/
def onSetRole (user : Bytes32) (role : Role) : Run (List Effect) := do
  let s ← self
  let mint : Run (List Effect) := do
    if ¬ role.canAdminister then requireNotLastAdmin user
    let nonce ← randomNonce
    let cert ← onCgka (CgkaController.certifyRole user role nonce)
    return [.broadcastCerts [cert]]
  if s.isFounderDevice then
    requireAdmin
    mint
  else
    requireQuorum (.setRole user role)
    if defaultThreshold < s.capabilities.threshold then return [] else mint

def onPropose (action : AdminAction) (expires : Option U64) : Run (List Effect) := do
  requireAdmin
  let s ← self
  let nonce ← randomNonce
  let cert ← onCgka
    (CgkaController.certifyProposal action s.capabilities.nextProposalSeq expires nonce)
  return [.broadcastCerts [cert]]

/-- Approve a proposal, and perform anything that carried. -/
def onApprove (proposal : Bytes32) : Run (List Effect) := do
  requireAdmin
  let nonce ← randomNonce
  let cert ← onCgka (CgkaController.certifyApproval proposal nonce)
  let performed ← runQuorumActions
  return .broadcastCerts [cert] :: performed

/-! ## The namespace -/

/-- Encrypt a minted capability, unless a later rotation overtook it. -/
def onNamespaceMinted (epoch : U32) (ticket : Bytes) : Run (List Effect) := do
  let s ← self
  if epoch ≠ s.namespaceEpoch.epoch then return []
  else
    let (chunk, ops) ← onCgkaRng (CgkaController.encryptFresh ticket [])
    update fun s => forgetPublished
      { s with namespaceEpoch := .of epoch ticket, namespaceTicket := ticket }
    return ops.map Effect.broadcast ++
      [.publishNamespace epoch chunk, .adoptNamespace epoch ticket]

/-- Consider a rotation a peer announced. -/
def onNamespaceArrived (epoch : U32) (chunk : Chunk OpHash) : Run (List Effect) := do
  match ← onCgka (CgkaController.decrypt chunk) with
  | .awaitingOp => return []
  | .unreachable => return [.requestRepair .namespace_ (epochId chunk)]
  | .plaintext ticket =>
      let s ← self
      if (NamespaceEpoch.of epoch ticket).rank ≤ s.namespaceEpoch.rank then return []
      else
        update fun s => forgetPublished
          { s with namespaceEpoch := .of epoch ticket, namespaceTicket := ticket }
        return [.adoptNamespace epoch ticket]

/-! ## Repairs -/

/-- Publish a document for a peer that is stuck, if this node can. -/
def repairDocument (doc : DocumentUuid) (keying : Keying) : Run (List Effect) := do
  let s ← self
  if (s.docs.get? doc).isSome then
    match ← attempt requireWrite with
    | .ok _ => publishKeyed doc keying .full
    | .error _ => return []
  else return []

/-- Answer a peer that can never read what it received. -/
def onRepairRequested (requester : Bytes32) (target : RepairTarget) : Run (List Effect) := do
  let s ← self
  if ¬ s.cgka.isCurrentMember requester then throw (.unauthorized requester)
  else
    let answer (x : Run (List Effect)) : Run (List Effect) := do
      let effects ← x
      if effects ≠ [] then
        update fun s => { s with repairsAnswered := s.repairsAnswered + 1 }
      return effects
    match target with
    | .manifest => answer (publishManifest .fresh)
    | .namespace_ => answer (republishNamespace .fresh)
    | .document doc => answer (repairDocument doc .fresh)
    | .documentHistory doc => answer (repairDocument doc .current)
    | .assetKey asset => return [.resealAssetKey requester asset]

/-! ## Arriving operations and certificates -/

/-- Ask for the removal of a leaf that somebody no longer a member introduced. -/
def evictIfSpliced (s : WorkspaceState) : CgkaOperation OpHash → Bytes32 → List Effect
  | .add _ added _ _ _, issuer =>
      if s.cgka.isCurrentMember issuer then []
      else if s.capabilities.mayAdminister s.memberId then [.evictUncertified added]
      else []
  | _, _ => []

/-- Merge an operation, and retry both queues if it applied. -/
def onControlOp (authorized : AuthorizedOp) : Run (List Effect) := do
  match ← onCgka (CgkaController.merge authorized) with
  | .applied =>
      let _ ← onCgka CgkaController.mergePending
      let effects ← drainPending
      let s ← self
      return effects ++ s.evictIfSpliced authorized.op.payload authorized.op.issuer
  | _ => return []

/-- Absorb certificates; the quorum pass runs whether or not any was new. -/
def onCertsArrived (certs : List Certificate) : Run (List Effect) := do
  let absorbed ← onCgka (CgkaController.absorbCertificates certs)
  if 0 < absorbed then
    let _ ← onCgka CgkaController.mergePending
    let effects ← drainPending
    let performed ← runQuorumActions
    return effects ++ performed
  else runQuorumActions

/-! ## The entry points -/

/-- Handle one event. -/
def handle (event : Event) (now : UnixSeconds) : Run (List Effect) :=
  match event with
  | .controlOp op => onControlOp op
  | .certsArrived certs => onCertsArrived certs
  | .chunkArrived doc chunk => onChunkArrived doc chunk
  | .localEdit doc text => onAppend doc text now
  | .writeFile doc text => onWrite doc text now
  | .insertText doc pos text => onInsert doc pos text now
  | .removeText doc pos len => onDelete doc pos len now
  | .revertDocument doc version => onRevert doc version now
  | .deleteFile doc => onDeleteFile doc
  | .resync doc => onResync doc
  | .addUser member shareKey role displayName endpoint => do
      requireAdmin
      onAddUser member shareKey role displayName endpoint
  | .addDevice member shareKey user label endpoint => do
      requireMayAddDeviceTo user
      onAddDevice member shareKey user label endpoint
  | .removeMember member => onRemoveMember member
  | .leave => onLeave
  | .propose action expires => onPropose action expires
  | .approve proposal => onApprove proposal
  | .resyncCertificates => do
      let s ← self
      return [.broadcastCerts s.capabilities.certificates]
  | .rotate => do
      let op ← onCgkaRng CgkaController.rotate
      return [.broadcast op]
  | .manifestArrived chunk => onManifestArrived chunk
  | .upsertFile entry => do
      requireWrite
      onManifest (Manifest.upsertFile entry)
      publishManifest .current
  | .renameFile doc path => do
      requireWrite
      onManifest (Manifest.rename doc path)
      publishManifest .current
  | .setRole user role => onSetRole user role
  | .setInfo info => do
      requireAdmin
      onManifest (Manifest.setInfo info)
      publishManifest .current
  | .setDisplayName displayName => do
      let s ← self
      match s.capabilities.userOf s.memberId with
      | none => throw .unknownDevice
      | some user =>
          onManifest (Manifest.setUser user displayName)
          publishManifest .current
  | .announceAuthor author => do
      let s ← self
      onManifest (Manifest.setAuthor s.memberId author)
      publishManifest .current
  | .resyncManifest => publishManifest .current
  | .resyncNamespace => republishNamespace .current
  | .namespaceMinted epoch ticket => onNamespaceMinted epoch ticket
  | .namespaceArrived epoch chunk => onNamespaceArrived epoch chunk
  | .repairRequested requester target _ => onRepairRequested requester target
  | .announceEndpoint endpointId => do
      update fun s => { s with endpointId := some endpointId }
      if ← recordEndpoint then publishManifest .current else return []

/-- Refuse a message that would cost more to merge than it can be worth. -/
def refuseOversized (ops certs : Nat) : Run Unit :=
  if maxLogOps < ops ∨ maxLogCerts < certs then throw (.incompleteLog (ops + certs))
  else return ()

/-- The loop over a log's operations: one that is refused does not stop the
rest. -/
def handleLog (now : UnixSeconds) : List ControlOp → List Effect → Run (List Effect)
  | [], effects => return effects
  | op :: rest, effects => do
      match ← attempt (handle (.controlOp (.bare op)) now) with
      | .ok more => handleLog now rest (effects ++ more)
      | .error _ => handleLog now rest effects

/-- Handle one control-plane message. -/
def onControl (msg : ControlMsg) (now : UnixSeconds) : Run (List Effect) :=
  match msg with
  | .op op proof => handle (.controlOp ⟨op, proof⟩) now
  | .certs certs => do
      refuseOversized 0 certs.length
      handle (.certsArrived certs) now
  | .log ops certs => do
      refuseOversized ops.length certs.length
      let effects ← handle (.certsArrived certs) now
      handleLog now ops effects
  | .announce _ => return []
  | .namespace_ epoch chunk => handle (.namespaceArrived epoch chunk) now
  | .repair member target epoch => do
      let requester ← verdict (memberFromBytes member)
      handle (.repairRequested requester target epoch) now

end WorkspaceState

end IrohBeekem
