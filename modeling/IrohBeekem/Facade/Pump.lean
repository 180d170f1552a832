import IrohBeekem.Cooldown
import IrohBeekem.Facade.AssetKeys
import IrohBeekem.Facade.Replica
import IrohBeekem.Facade.Roster
import IrohBeekem.Library.Interrupted
import IrohBeekem.Library.Traces
import IrohBeekem.State.Call

/-!
# The effect pump

Every call into the state machine returns effects, and performing one can mean another call:
a minted capability goes back to be encrypted, an adopted replica is filled by publishing
everything once more.  So the pump calls itself, and with it everything that happens
somewhere below.

It comes to rest by itself all the same, four calls deep at most (`applyEffects_rests`): a
removal of a leaf asks for a replica, a replica that was made for one to move to, and a move
for content to be published, but published content for nothing.
-/

set_option linter.unusedSectionVars false

namespace IrohBeekem

open Library WorkspaceState

/-! ## The surroundings -/

/-- The two tickets of a replica that an announcement carries. -/
structure NamespaceCapability [DocTickets] where
  /-- The ticket for members who may write. -/
  write : DocTicket
  /-- The ticket for members who may only read. -/
  read : DocTicket

/-- What a node has to do with beside the index and the blobs. -/
class Surroundings [Beekem] [Stores] [DocTickets] where
  Net : Type
  now : Net → UnixSeconds × Net
  instant : Net → Instant × Net
  /-- A new replica, and its name. -/
  create : Net → (Bytes32 × Stores.Doc) × Net
  share : (id : Bytes32) → ShareMode → Net → DocTicket × Net
  /-- The replica a ticket is for. -/
  ticketId : DocTicket → Bytes32
  /-- A replica that is taken in from its ticket. -/
  fetched : DocTicket → Net → Stores.Doc × Net
  /-- The blob with this hash, after these peers have been asked for it. -/
  download : List Bytes32 → (hash : Bytes32) → Net → Option Bytes × Net
  encodeCapability : NamespaceCapability → Except String Bytes
  decodeCapability : Bytes → Except String NamespaceCapability
  /-- Whether a message can be encoded. -/
  encodes : ControlMsg → Bool

/-- What is logged as a warning or an error. -/
inductive Report where
  | operationNotSent
  | certificatesNotSent
  | chunkNotStored
  | manifestNotStored
  | entryNotWithdrawn
  | segmentsNotWithdrawn
  | rotationNotSent
  | repairNotSent
  | evicting
  | notMinted
  | notShared
  | capabilityNotEncoded
  | capabilityUnreadable
  | notImported
  | notLeft
  | notSubscribed
  | policyNotSet
  | keyEntryUnreadable
  | operationRejected
  | notCaptured
  | notWritten
  deriving DecidableEq

def Report.text : Report → String
  | .operationNotSent => "failed to broadcast a CGKA operation"
  | .certificatesNotSent => "failed to broadcast capability certificates"
  | .chunkNotStored => "failed to store an encrypted chunk"
  | .manifestNotStored => "failed to store the encrypted manifest"
  | .entryNotWithdrawn => "failed to withdraw an index entry"
  | .segmentsNotWithdrawn => "failed to withdraw an asset's segment entries"
  | .rotationNotSent => "failed to announce a namespace rotation"
  | .repairNotSent => "failed to broadcast a repair request"
  | .evicting => "removing a leaf introduced by a member no longer in the group"
  | .notMinted => "failed to mint a namespace for a rotation"
  | .notShared => "failed to mint capabilities for a rotated namespace"
  | .capabilityNotEncoded => "failed to encode a rotated namespace capability"
  | .capabilityUnreadable => "a namespace rotation carried an unreadable capability"
  | .notImported => "failed to import a rotated namespace"
  | .notLeft => "failed to stop syncing the abandoned namespace"
  | .notSubscribed => "failed to subscribe to a rotated namespace"
  | .policyNotSet => "failed to update the asset download policy"
  | .keyEntryUnreadable => "an asset key entry did not decode; ignoring the repair request"
  | .operationRejected => "rejected an incoming control operation"
  | .notCaptured => "could not capture the workspace snapshot"
  | .notWritten => "could not write the workspace snapshot"

variable [Keyhive] [Beekem] [Loro] [Postcard] [Stores] [DocTickets] [Surroundings] [ChunkWire]

/-- What stays the same while a workspace is open. -/
structure HubInner where
  author : Bytes32
  secret : Bytes32
  workspaceKey : Bytes32
  endpointId : Bytes32
  /-- Whether the node has a store. -/
  persistent : Bool
  hashOrder : HashOrder

/-- A workspace that is open, with what surrounds it. -/
structure Hub where
  core : WorkspaceState × Rng
  /-- The replica in use, among those of the node. -/
  inUse : Bytes32
  replicas : Bytes32 → Option Stores.Doc
  blobs : Stores.Blobs
  /-- What has been ingested: the hash of the last payload under each key of each author. -/
  seen : List ((Bytes32 × Bytes32) × Bytes32)
  subscribed : Bytes32
  /-- What is not fetched, for each replica. -/
  policy : Bytes32 → List Bytes24
  roster : Roster
  repairCooldown : Cooldown (RepairTarget × Bytes32) Instant
  repairAnswerCooldown : Cooldown Bytes32 Instant
  evictionCooldown : Cooldown Bytes32 Instant
  /-- What was broadcast. -/
  sent : List ControlMsg
  reports : List Report
  /-- What the store has for this workspace: a snapshot, and the replica that was in use. -/
  saved : Option (WorkspaceSnapshot × Bytes32)
  net : Surroundings.Net
  /-- What becomes of the calls on the surroundings. -/
  outcomes : List Outcome

/-- There were more calls inside calls than were provided for. -/
inductive Deeper where
  | deeper

/-- A program of the facade around the pump, which may be cut off. -/
abbrev Pump (α : Type) := EStateM (Halt Deeper) Hub α

namespace Pump

/-- A call on the surroundings: it can fail before it has had an effect, and the process can
be gone before it or after it. -/
def outside {α : Type} (x : Hub → Except String α × Hub) : Pump (Except String α) := fun h =>
  match h.outcomes with
  | [] | .done :: _ =>
      let (r, h') := x { h with outcomes := h.outcomes.tail }
      .ok r h'
  | .fails text _ :: rest => .ok (.error text) { h with outcomes := rest }
  | .cut none :: rest => .error .cut { h with outcomes := rest }
  | .cut (some _) :: rest => .error .cut (x { h with outcomes := rest }).2

def report (r : Report) : Pump Unit := modify fun h => { h with reports := h.reports ++ [r] }

/-- Log a failure, if it was one. -/
def reporting {α : Type} (r : Report) : Except String α → Pump Unit
  | .ok _ => return ()
  | .error _ => report r

def now : Pump UnixSeconds := fun h =>
  .ok (Surroundings.now h.net).1 { h with net := (Surroundings.now h.net).2 }

def instant : Pump Instant := fun h =>
  .ok (Surroundings.instant h.net).1 { h with net := (Surroundings.instant h.net).2 }

/-- A call into the state machine. -/
def consult (call : Call) : Pump (Except CoreError (List Effect)) := fun h =>
  match call.run h.core with
  | .ok effects core => .ok (.ok effects) { h with core }
  | .error e core => .ok (.error e) { h with core }

/-- A call into the state machine whose failure is as good as no effects. -/
def consultOrNothing (call : Call) : Pump (List Effect) := do
  match ← consult call with
  | .ok effects => return effects
  | .error _ => return []

/-- A call into the state machine whose failure is logged. -/
def reportRejection : Except CoreError (List Effect) → Pump (List Effect)
  | .ok effects => return effects
  | .error _ => do
      report .operationRejected
      return []

/-- A write to the replica in use. -/
def onIndex {α : Type} (x : EStateM String Stores.Doc α) : Pump (Except String α) :=
  outside fun h =>
    match h.replicas h.inUse with
    | none => (.error "no such replica", h)
    | some d =>
        match x d with
        | .ok a d' =>
            (.ok a, { h with replicas := Function.update h.replicas h.inUse (some d') })
        | .error e d' =>
            (.error e, { h with replicas := Function.update h.replicas h.inUse (some d') })

/-- Send a message to the group; one that cannot be encoded is not sent. -/
def broadcast (msg : ControlMsg) : Pump (Except String Unit) :=
  if Surroundings.encodes msg then
    outside fun h => (.ok (), { h with sent := h.sent ++ [msg] })
  else return .ok ()

/-! ## What the effects are turned into -/

variable (inner : HubInner)

/-- Write this workspace's snapshot, if the node persists at all. -/
def persist : Pump Unit := do
  if inner.persistent then
    let h ← get
    match h.core.1.snapshot inner.hashOrder with
    | .error _ => report .notCaptured
    | .ok snapshot =>
        -- The file is replaced as a whole, or left as it was.
        let written ← outside fun h => (.ok (), { h with saved := some (snapshot, h.inUse) })
        reporting .notWritten written

def refreshRoster : Pump Unit :=
  modify fun h => { h with roster := h.roster.setDerived inner.workspaceKey h.core.1.roster }

/-- Tell the replica in use what not to fetch. -/
def refreshDownloadPolicy : Pump Unit := do
  let set ← outside fun h =>
    (.ok (), { h with policy := Function.update h.policy h.inUse (assetPrefixes h.core.1) })
  reporting .policyNotSet set

/-- Whether the local role may write; a member without a role may. -/
def localRoleMayWrite : Pump Bool := do
  let h ← get
  return match h.core.1.capabilities.roleOfMember h.core.1.memberId with
    | none => true
    | some role => role.canWrite

/-- Write an encrypted chunk to the blobs and index it, and tell the group so. -/
def storeChunk (key : Bytes32) (chunk : Chunk OpHash) : Pump (Except String Unit) := do
  match ← onIndex (IrohBeekem.storeChunk inner.author key chunk) with
  | .error e => return .error e
  | .ok () => do
      let _ ← broadcast (.announce key)
      return .ok ()

/-- Withdraw this node's entries under the keys that begin like this, and forget what was
ingested under them. -/
def withdraw (range : Bytes) (r : Report) : Pump Unit := do
  modify fun h => { h with seen := h.seen.filter fun entry => ¬ range.isPrefixOf entry.1.1.toBytes }
  let withdrawn ← onIndex (Stores.del inner.author range)
  reporting r withdrawn

/-- The bytes behind an entry under a key; the devices on the roster are asked for a blob that
is not at hand. -/
def fetchIndexedBytes (key : Bytes32) : Pump (Option Bytes) := do
  let entry ← outside fun h =>
    match h.replicas h.inUse with
    | none => (.error "no such replica", h)
    | some d => (Stores.getOne d key.toBytes, h)
  match entry with
  | .error _ => return none
  | .ok none => return none
  | .ok (some (hash, _)) => do
      let h ← get
      match Stores.getBytes h.blobs hash with
      | some bytes => return some bytes
      | none =>
          let peers := h.core.1.roster.filter fun peer =>
            Keyhive.isPoint peer && peer ≠ inner.endpointId
          if peers = [] then return none
          else
            let bytes ← outside fun h =>
              (.ok (Surroundings.download peers hash h.net).1,
                { h with net := (Surroundings.download peers hash h.net).2 })
            match bytes with
            | .ok bytes => return bytes
            | .error _ => return none

/-- Ask the group to encrypt anew what this node can never decrypt. -/
def requestRepair (target : RepairTarget) (epoch : Bytes32) : Pump Unit := do
  let at_ ← instant
  let h ← get
  let (allowed, cooldown) := h.repairCooldown.claim (target, epoch) at_
  set { h with repairCooldown := cooldown }
  if allowed then
    let sent ← broadcast (.repair h.core.1.memberId target epoch)
    reporting .repairNotSent sent

/-- Listen to the replica in use. -/
def spawnDataLoop : Pump (Except String Unit) :=
  outside fun h => (.ok (), { h with subscribed := h.inUse })

/-! ## The arms that come back through the pump -/

/-- Feed the events to the state machine, and perform the effects of each in turn. -/
def offerAll (again : List Effect → Pump Unit) : List Event → Pump Unit
  | [] => return ()
  | event :: rest => do
      let time ← now
      let effects ← consultOrNothing (.handle event time)
      again effects
      offerAll again rest

/-- What is announced once, and so once more whenever a peer may have missed it. -/
def announcedOnce : List Event := [.resyncManifest, .resyncNamespace, .resyncCertificates]

/-- Encrypt and announce every document once more, and the manifest that lists them. -/
def republish (again : List Effect → Pump Unit) : Pump Unit := do
  let h ← get
  offerAll again (h.core.1.manifest.files.map fun entry => .resync entry.uuid)
  offerAll again announcedOnce
  persist inner

/-- Remove a leaf that somebody outside the group put into the tree. -/
def evictUncertified (again : List Effect → Pump Unit) (member : Bytes32) : Pump Unit := do
  let at_ ← instant
  let h ← get
  let (allowed, cooldown) := h.evictionCooldown.claim member at_
  set { h with evictionCooldown := cooldown }
  if allowed then
    report .evicting
    let time ← now
    let effects ← consultOrNothing (.handle (.removeMember member) time)
    again effects

/-- Fetch the chunk with the key of an asset, and encrypt the key anew. -/
def answerAssetKeyRepair (again : List Effect → Pump Unit) (requester : Bytes32)
    (asset : DocumentUuid) : Pump Unit := do
  match ← fetchIndexedBytes inner (WorkspaceSecret.assetKeyKey inner.secret asset) with
  | none => return ()
  | some bytes =>
      match decodeChunk bytes with
      | none => report .keyEntryUnreadable
      | some chunk =>
          let outcome ← consult (.resealAssetKey requester asset chunk)
          let effects ← reportRejection outcome
          again effects

/-- Make a replica for a generation, and give its capability to the state machine. -/
def mintNamespace (again : List Effect → Pump Unit) (epoch : U32) : Pump Unit := do
  let fresh ← outside fun h =>
    let ((id, d), net) := Surroundings.create h.net
    (.ok id, { h with replicas := Function.update h.replicas id (some d), net })
  match fresh with
  | .error _ => report .notMinted
  | .ok id =>
      let share (mode : ShareMode) : Pump (Except String DocTicket) := outside fun h =>
        (.ok (Surroundings.share id mode h.net).1,
          { h with net := (Surroundings.share id mode h.net).2 })
      let write ← share .write
      let read ← share .read
      match write, read with
      | .ok write, .ok read =>
          match Surroundings.encodeCapability ⟨write, read⟩ with
          | .error _ => report .capabilityNotEncoded
          | .ok ticket =>
              let time ← now
              let effects ← consultOrNothing (.handle (.namespaceMinted epoch ticket) time)
              -- A later rotation overtook this one: nobody has heard of the replica.
              if effects.isEmpty then return () else again effects
      | _, _ => report .notShared

/-- The replica of a ticket, which is taken in unless the node has it. -/
def openOrImport (chosen : DocTicket) : Pump (Except String Unit) := do
  let id := Surroundings.ticketId chosen
  let existing ← outside fun h => (.ok (h.replicas id).isSome, h)
  if existing.toOption = some true then return .ok ()
  else
    outside fun h =>
      (.ok (), { h with
        replicas := Function.update h.replicas id (some (Surroundings.fetched chosen h.net).1)
        net := (Surroundings.fetched chosen h.net).2 })

/-- Carry the assets over from the replica this node leaves. -/
def carryAssets (previous : Bytes32) : Pump Unit := do
  let h ← get
  match h.replicas previous with
  | none => return ()
  | some d =>
      let _ ← onIndex (reindexAssets inner.author d h.blobs h.core.1.assetIndexKeys 0)
      return ()

/-- Move to the replica of a capability, and fill it. -/
def adoptNamespace (again : List Effect → Pump Unit) (ticket : Bytes) (roleMayWrite : Bool) :
    Pump Unit := do
  match Surroundings.decodeCapability ticket with
  | .error _ => report .capabilityUnreadable
  | .ok capability =>
      let chosen := if roleMayWrite then capability.write else capability.read
      match ← openOrImport chosen with
      | .error _ => report .notImported
      | .ok () =>
          let previous := (← get).inUse
          modify fun h => { h with inUse := Surroundings.ticketId chosen }
          carryAssets inner previous
          -- Stop reconciling the replica that was left.
          let left ← outside fun h => (.ok (), h)
          reporting .notLeft left
          modify fun h => { h with seen := [] }
          let subscribed ← spawnDataLoop
          reporting .notSubscribed subscribed
          refreshDownloadPolicy
          republish inner again

/-- Perform one effect; `again` is the pump for what that brings about. -/
def perform (again : List Effect → Pump Unit) : Effect → Pump Unit
  | .broadcastOp op proof => do
      let sent ← broadcast (.op op proof)
      reporting .operationNotSent sent
  | .broadcastCerts certs => do
      let sent ← broadcast (.certs certs)
      reporting .certificatesNotSent sent
  | .evictUncertified member => evictUncertified again member
  | .storeChunk key _ chunk => do
      let stored ← storeChunk inner key chunk
      reporting .chunkNotStored stored
  | .storeManifest key chunk => do
      let stored ← storeChunk inner key chunk
      reporting .manifestNotStored stored
  | .deleteEntry key _ => withdraw inner key.toBytes .entryNotWithdrawn
  | .deleteAssetSegments range _ => withdraw inner (rangeBytes range) .segmentsNotWithdrawn
  | .manifestUpdated => do
      refreshRoster inner
      refreshDownloadPolicy
  | .requestRepair target epoch => requestRepair target epoch
  | .resealAssetKey requester asset => answerAssetKeyRepair inner again requester asset
  | .rotateNamespace epoch => mintNamespace again epoch
  | .publishNamespace epoch chunk => do
      let sent ← broadcast (.namespace_ epoch chunk)
      reporting .rotationNotSent sent
  | .adoptNamespace _ ticket => do
      let mayWrite ← localRoleMayWrite
      adoptNamespace inner again ticket mayWrite
  | .applied _ => return ()

/-- Perform effects, one after another. -/
def performAll (again : List Effect → Pump Unit) : List Effect → Pump Unit
  | [] => return ()
  | effect :: rest => do
      perform inner again effect
      performAll again rest

/-- `apply_effects`, with so many calls of itself inside each other. -/
def applyEffects : Nat → List Effect → Pump Unit
  | 0 => fun _ => throw (.failed .deeper)
  | depth + 1 => performAll inner (applyEffects depth)

/-! ## Programs that leave the state machine alone -/

/-- Between these two nothing happened to the workspace: it has the same state and the same
replica in use, and the same record in the store. -/
structure Beside (h h' : Hub) : Prop where
  core : h'.core = h.core
  inUse : h'.inUse = h.inUse
  saved : h'.saved = h.saved
  reports : h.reports <+: h'.reports

theorem Beside.refl (h : Hub) : Beside h h := ⟨rfl, rfl, rfl, List.prefix_refl _⟩

theorem Beside.trans {h h₁ h' : Hub} (hfirst : Beside h h₁) (hthen : Beside h₁ h') :
    Beside h h' where
  core := hthen.core.trans hfirst.core
  inUse := hthen.inUse.trans hfirst.inUse
  saved := hthen.saved.trans hfirst.saved
  reports := hfirst.reports.trans hthen.reports

/-- The program leaves the workspace alone, and is cut off if it does not return. -/
def Calm {α : Type} (x : Pump α) : Prop :=
  ∀ h, Wp x (fun _ h' => Beside h h') (fun halt h' => halt = .cut ∧ Beside h h') h

namespace Calm

variable {α β : Type} {x : Pump α} {f : α → Pump β}

theorem pure (a : α) : Calm (Pure.pure a : Pump α) := fun h => .refl h

theorem bind (hx : Calm x) (hf : ∀ a, Calm (f a)) : Calm (x >>= f) := by
  intro h
  refine (hx h).seq (fun a h₁ hfirst => ?_) fun _ _ => id
  exact (hf a h₁).mono (fun _ _ => hfirst.trans) fun _ _ hcut => ⟨hcut.1, hfirst.trans hcut.2⟩

theorem get : Calm (get : Pump Hub) := fun h => .refl h

theorem modify {g : Hub → Hub} (hg : ∀ h, Beside h (g h)) : Calm (modify g : Pump Unit) :=
  fun h => hg h

end Calm

/-- A call on the surroundings is done, it failed, or it was cut off before or after it. -/
theorem wp_outside {α : Type} {x : Hub → Except String α × Hub} {h : Hub}
    {Q : Except String α → Hub → Prop} {E : Halt Deeper → Hub → Prop}
    (hdone : ∀ rest, Q (x { h with outcomes := rest }).1 (x { h with outcomes := rest }).2)
    (hfails : ∀ text rest, Q (.error text) { h with outcomes := rest })
    (hearly : ∀ rest, E .cut { h with outcomes := rest })
    (hlate : ∀ rest, E .cut (x { h with outcomes := rest }).2) : Wp (outside x) Q E h := by
  unfold Wp outside
  cases h.outcomes with
  | nil => exact hdone _
  | cons outcome rest =>
      cases outcome with
      | done => exact hdone _
      | fails text reach => exact hfails text rest
      | cut reach =>
          cases reach with
          | none => exact hearly rest
          | some n => exact hlate rest

theorem Beside.outcomes {h h' : Hub} {rest : List Outcome}
    (hbeside : Beside { h with outcomes := rest } h') : Beside h h' :=
  ⟨hbeside.core, hbeside.inUse, hbeside.saved, hbeside.reports⟩

/-- A call on the surroundings that leaves the workspace alone if it is done. -/
theorem calm_outside {α : Type} {x : Hub → Except String α × Hub} (hx : ∀ h, Beside h (x h).2) :
    Calm (outside x) := fun h =>
  wp_outside (fun _ => (hx _).outcomes) (fun _ _ => (Beside.refl _).outcomes)
    (fun _ => ⟨rfl, (Beside.refl _).outcomes⟩) fun _ => ⟨rfl, (hx _).outcomes⟩

theorem calm_report (r : Report) : Calm (report r) :=
  .modify fun h => ⟨rfl, rfl, rfl, List.prefix_append _ _⟩

theorem calm_reporting {α : Type} (r : Report) (outcome : Except String α) :
    Calm (reporting r outcome) := by
  cases outcome with
  | ok a => exact .pure ()
  | error text => exact calm_report r

theorem calm_now : Calm now := fun _ => ⟨rfl, rfl, rfl, List.prefix_refl _⟩

theorem calm_instant : Calm instant := fun _ => ⟨rfl, rfl, rfl, List.prefix_refl _⟩

theorem calm_onIndex {α : Type} (x : EStateM String Stores.Doc α) : Calm (onIndex x) := by
  refine calm_outside fun h => ?_
  split
  · exact .refl h
  · split <;> exact ⟨rfl, rfl, rfl, List.prefix_refl _⟩

theorem calm_broadcast (msg : ControlMsg) : Calm (broadcast msg) := by
  unfold broadcast
  split
  · exact calm_outside fun h => ⟨rfl, rfl, rfl, List.prefix_refl _⟩
  · exact .pure _

theorem calm_refreshRoster : Calm (refreshRoster inner) :=
  .modify fun _ => ⟨rfl, rfl, rfl, List.prefix_refl _⟩

theorem calm_refreshDownloadPolicy : Calm refreshDownloadPolicy :=
  .bind (calm_outside fun _ => ⟨rfl, rfl, rfl, List.prefix_refl _⟩) fun _ => calm_reporting _ _

theorem calm_storeChunk (key : Bytes32) (chunk : Chunk OpHash) :
    Calm (storeChunk inner key chunk) := by
  refine .bind (calm_onIndex _) fun stored => ?_
  cases stored with
  | error e => exact .pure _
  | ok u => exact .bind (calm_broadcast _) fun _ => .pure _

theorem calm_withdraw (range : Bytes) (r : Report) : Calm (withdraw inner range r) :=
  .bind (.modify fun _ => ⟨rfl, rfl, rfl, List.prefix_refl _⟩) fun _ =>
    .bind (calm_onIndex _) fun _ => calm_reporting _ _

theorem calm_fetchIndexedBytes (key : Bytes32) : Calm (fetchIndexedBytes inner key) := by
  refine .bind (calm_outside fun h => ?_) fun entry => ?_
  · split <;> exact .refl h
  · rcases entry with e | _ | ⟨hash, size⟩
    · exact .pure _
    · exact .pure _
    · refine .bind .get fun h => ?_
      split
      · exact .pure _
      · dsimp only
        split
        · exact .pure _
        · refine .bind (calm_outside fun _ => ⟨rfl, rfl, rfl, List.prefix_refl _⟩) fun bytes => ?_
          cases bytes with
          | ok bytes => exact .pure _
          | error e => exact .pure _

theorem calm_requestRepair (target : RepairTarget) (epoch : Bytes32) :
    Calm (requestRepair target epoch) := by
  intro h
  refine (calm_instant h).seq (fun at_ h₁ hfirst => ?_) fun _ _ => id
  rw [wp_bind, wp_get]
  dsimp only
  rw [wp_bind, wp_set]
  have hclaimed : Beside h { h₁ with
      repairCooldown := (h₁.repairCooldown.claim (target, epoch) at_).2 } :=
    hfirst.trans ⟨rfl, rfl, rfl, List.prefix_refl _⟩
  split
  · exact ((calm_broadcast _).bind (fun _ => calm_reporting _ _) _).mono
      (fun _ _ => hclaimed.trans) fun _ _ hcut => ⟨hcut.1, hclaimed.trans hcut.2⟩
  · exact hclaimed

theorem calm_spawnDataLoop : Calm spawnDataLoop :=
  calm_outside fun _ => ⟨rfl, rfl, rfl, List.prefix_refl _⟩

theorem calm_carryAssets (previous : Bytes32) : Calm (carryAssets inner previous) := by
  refine .bind .get fun h => ?_
  split
  · exact .pure _
  · exact .bind (calm_onIndex _) fun _ => .pure _

theorem calm_openOrImport (chosen : DocTicket) : Calm (openOrImport chosen) := by
  refine .bind (calm_outside fun h => .refl h) fun existing => ?_
  split
  · exact .pure _
  · exact calm_outside fun _ => ⟨rfl, rfl, rfl, List.prefix_refl _⟩

/-! ## Coming to rest -/

end Pump

/-- How many calls of the pump inside each other an effect can bring about. -/
def Effect.nesting : Effect → Nat
  | .adoptNamespace _ _ => 1
  | .resealAssetKey _ _ => 1
  | .rotateNamespace _ => 2
  | .evictUncertified _ => 3
  | _ => 0

/-- The effects that a program of the state machine returns bring about this much at most. -/
def Nests (n : Nat) (x : Run (List Effect)) : Prop :=
  ∀ p, Wp x (fun effects _ => ∀ effect ∈ effects, effect.nesting ≤ n) (fun _ _ => True) p

namespace Nests

variable {α : Type} {n : Nat} {x : Run α} {f : α → Run (List Effect)}

theorem pure {effects : List Effect} (h : ∀ effect ∈ effects, effect.nesting ≤ n) :
    Nests n (Pure.pure effects) := fun _ => h

/-- What comes before the effects does not matter. -/
theorem after (x : Run α) (hf : ∀ a, Nests n (f a)) : Nests n (x >>= f) := by
  intro p
  rw [wp_bind]
  exact wp_of_run (fun a p' _ => hf a p') fun _ _ _ => trivial

theorem announcing (ops : List ControlOp) {rest : List Effect}
    (h : ∀ effect ∈ rest, effect.nesting ≤ n) :
    ∀ effect ∈ ops.map Effect.broadcast ++ rest, effect.nesting ≤ n := by
  intro effect hmem
  rcases List.mem_append.mp hmem with hop | hrest
  · obtain ⟨op, -, rfl⟩ := List.mem_map.mp hop
    exact Nat.zero_le n
  · exact h effect hrest

end Nests

theorem publishManifest_nests (keying : Keying) : Nests 0 (publishManifest keying) :=
  .after _ fun _ => .after _ fun _ => .after _ fun _ =>
    .pure (Nests.announcing _ (by simp [Effect.nesting]))

theorem republishNamespace_nests (keying : Keying) : Nests 0 (republishNamespace keying) := by
  refine .after _ fun s => ?_
  split_ifs
  · exact .pure (by simp)
  · exact .after _ fun _ => .after _ fun _ => .pure (Nests.announcing _ (by simp [Effect.nesting]))

theorem publishKeyed_nests (doc : DocumentUuid) (keying : Keying) (extent : Extent) :
    Nests 0 (publishKeyed doc keying extent) :=
  .after _ fun _ => .after _ fun _ => .after _ fun _ => .after _ fun _ => .after _ fun _ =>
    .after _ fun _ => .after _ fun _ => .pure (Nests.announcing _ (by simp [Effect.nesting]))

theorem onResync_nests (doc : DocumentUuid) : Nests 0 (onResync doc) := by
  refine .after _ fun _ => .after _ fun s => ?_
  split_ifs
  · exact .pure (by simp)
  · refine .after _ fun published => ?_
    split_ifs
    · exact .pure (by simp)
    · exact publishKeyed_nests doc _ _

theorem resealAssetKey_nests (requester : Bytes32) (asset : DocumentUuid)
    (keyChunk : Chunk OpHash) : Nests 0 (resealAssetKey requester asset keyChunk) := by
  refine .after _ fun s => ?_
  split_ifs
  · refine .after _ fun _ => .after _ fun verdict => ?_
    cases verdict with
    | ready key =>
        intro p
        refine Wp.seq (Q := fun effects _ => ∀ effect ∈ effects, effect.nesting ≤ 0)
          (E := fun _ _ => True) ?_ (fun effects p₁ heffects => ?_) fun _ _ => id
        · exact Nests.after _ (fun _ => .after _ fun _ =>
            .pure (Nests.announcing _ (by simp [Effect.nesting]))) p
        · dsimp only
          split_ifs
          · exact Nests.after _ (fun _ => .pure heffects) p₁
          · exact heffects
    | _ => exact .pure (by simp)
  · exact fun _ => trivial

theorem onRemoveMember_nests (member : Bytes32) : Nests 2 (onRemoveMember member) := by
  refine .after _ fun _ => .after _ fun s => ?_
  dsimp only
  split_ifs
  on_goal 1 => refine .after _ fun _ => ?_
  -- the removal itself, which both branches end in
  all_goals
    refine .after _ fun op => ?_
    cases op with
    | none => exact .pure (by simp)
    | some op => exact .after _ fun _ => .after _ fun _ => .pure (by simp [Effect.nesting])

theorem onNamespaceMinted_nests (epoch : U32) (ticket : Bytes) :
    Nests 1 (onNamespaceMinted epoch ticket) := by
  refine .after _ fun s => ?_
  split_ifs
  · exact .pure (by simp)
  · exact .after _ fun _ => .after _ fun _ =>
      .pure (Nests.announcing _ (by simp [Effect.nesting]))

theorem announcedOnce_nests (time : UnixSeconds) :
    ∀ event ∈ Pump.announcedOnce, Nests 0 (handle event time) := by
  intro event hmem
  unfold Pump.announcedOnce at hmem
  rcases List.mem_cons.mp hmem with rfl | hmem
  · exact publishManifest_nests _
  · rcases List.mem_cons.mp hmem with rfl | hmem
    · exact republishNamespace_nests _
    · obtain rfl := List.mem_singleton.mp hmem
      exact .after _ fun _ => .pure (by simp [Effect.nesting])

namespace Pump

/-- The two programs do the same, and are cut off if they do not return. -/
def Agree {α : Type} (x y : Pump α) : Prop :=
  ∀ h, x h = y h ∧ Wp x (fun _ _ => True) (fun halt _ => halt = .cut) h

theorem Calm.agree {α : Type} {x : Pump α} (hx : Calm x) : Agree x x := fun h =>
  ⟨rfl, (hx h).mono (fun _ _ _ => trivial) fun _ _ hcut => hcut.1⟩

namespace Agree

variable {α β : Type} {x y : Pump α} {f g : α → Pump β}

/-- One program, then two that do the same whatever it returned. -/
theorem next {P : α → Prop} (hx : ∀ h, Wp x (fun a _ => P a) (fun halt _ => halt = .cut) h)
    (hf : ∀ a, P a → Agree (f a) (g a)) : Agree (x >>= f) (x >>= g) := by
  intro h
  refine ⟨?_, (hx h).seq (fun a h₁ ha => (hf a ha h₁).2) fun _ _ => id⟩
  show EStateM.bind x f h = EStateM.bind x g h
  unfold EStateM.bind
  have hends := hx h
  unfold Wp at hends
  cases hrun : x h with
  | ok a h₁ =>
      rw [hrun] at hends
      exact (hf a hends h₁).1
  | error halt h₁ => rfl

theorem seq (hx : Agree x y) (hf : ∀ a, Agree (f a) (g a)) : Agree (x >>= f) (y >>= g) := by
  obtain rfl : x = y := funext fun h => (hx h).1
  exact next (P := fun _ => True) (fun h => (hx h).2) fun a _ => hf a

theorem after (hx : Calm x) (hf : ∀ a, Agree (f a) (g a)) : Agree (x >>= f) (x >>= g) :=
  hx.agree.seq hf

theorem pure (a : α) : Agree (Pure.pure a : Pump α) (Pure.pure a) := (Calm.pure a).agree

end Agree

theorem wp_consult {call : Call} {h : Hub} {Q : Except CoreError (List Effect) → Hub → Prop}
    {E : Halt Deeper → Hub → Prop} :
    Wp (consult call) Q E h ↔ Wp call.run (fun effects core => Q (.ok effects) { h with core })
      (fun e core => Q (.error e) { h with core }) h.core := by
  unfold Wp consult
  cases call.run h.core with
  | ok effects core => rfl
  | error e core => rfl

theorem wp_consultOrNothing {call : Call} {h : Hub} {Q : List Effect → Hub → Prop}
    {E : Halt Deeper → Hub → Prop} :
    Wp (consultOrNothing call) Q E h ↔ Wp call.run (fun effects core => Q effects { h with core })
      (fun _ core => Q [] { h with core }) h.core := by
  unfold consultOrNothing
  rw [wp_bind, wp_consult]
  rfl

theorem consult_nests {n : Nat} {call : Call} (hcall : Nests n call.run) (h : Hub) :
    Wp (consultOrNothing call) (fun effects _ => ∀ effect ∈ effects, effect.nesting ≤ n)
      (fun halt _ => halt = .cut) h :=
  wp_consultOrNothing.mpr ((hcall h.core).mono (fun _ _ => id) fun _ _ _ => by simp)

section Rests

variable (inner : HubInner) {again again' : List Effect → Pump Unit} {n : Nat}

/-- The two pumps do the same with effects that bring about this much at most. -/
def AgreeUpTo (n : Nat) (again again' : List Effect → Pump Unit) : Prop :=
  ∀ effects, (∀ effect ∈ effects, effect.nesting ≤ n) → Agree (again effects) (again' effects)

theorem AgreeUpTo.mono {m : Nat} (h : AgreeUpTo n again again') (hle : m ≤ n) :
    AgreeUpTo m again again' := fun effects heffects =>
  h effects fun effect hmem => (heffects effect hmem).trans hle

theorem offerAll_agree (h : AgreeUpTo n again again') {events : List Event}
    (hevents : ∀ event ∈ events, ∀ time, Nests n (handle event time)) :
    Agree (offerAll again events) (offerAll again' events) := by
  induction events with
  | nil => exact .pure ()
  | cons event rest ih =>
      refine .after calm_now fun time =>
        .next (consult_nests (hevents event List.mem_cons_self time)) fun effects heffects => ?_
      exact .seq (h effects heffects) fun _ =>
        ih fun event' hmem => hevents event' (List.mem_cons_of_mem _ hmem)

theorem persist_agree : Agree (persist inner) (persist inner) := by
  unfold persist
  split
  · refine .after .get fun h => ?_
    split
    · exact (calm_report _).agree
    · refine .seq (fun h' => ⟨rfl, ?_⟩) fun _ => (calm_reporting _ _).agree
      exact wp_outside (fun _ => trivial) (fun _ _ => trivial) (fun _ => rfl) fun _ => rfl
  · exact .pure ()

theorem republish_agree (h : AgreeUpTo 0 again again') :
    Agree (republish inner again) (republish inner again') := by
  refine .after .get fun hub => .seq (offerAll_agree h fun event hmem time => ?_) fun _ =>
    .seq (offerAll_agree h fun event hmem time => announcedOnce_nests time event hmem) fun _ =>
      persist_agree inner
  obtain ⟨entry, -, rfl⟩ := List.mem_map.mp hmem
  exact onResync_nests entry.uuid

theorem evictUncertified_agree (h : AgreeUpTo 2 again again') (member : Bytes32) :
    Agree (evictUncertified again member) (evictUncertified again' member) := by
  refine .after calm_instant fun at_ => .after .get fun hub => ?_
  dsimp only
  refine .seq (fun h' => ⟨rfl, trivial⟩) fun _ => ?_
  split
  · exact .after (calm_report _) fun _ => .after calm_now fun time =>
      .next (consult_nests (onRemoveMember_nests member)) h
  · exact .pure ()

theorem answerAssetKeyRepair_agree (h : AgreeUpTo 0 again again') (requester : Bytes32)
    (asset : DocumentUuid) :
    Agree (answerAssetKeyRepair inner again requester asset)
      (answerAssetKeyRepair inner again' requester asset) := by
  refine .after (calm_fetchIndexedBytes _ _) fun bytes => ?_
  cases bytes with
  | none => exact .pure ()
  | some bytes =>
      dsimp only
      cases decodeChunk bytes with
      | none => exact (calm_report _).agree
      | some chunk =>
          dsimp only
          refine .next (P := fun outcome => ∀ effects, outcome = .ok effects →
            ∀ effect ∈ effects, effect.nesting ≤ 0) (fun h' => wp_consult.mpr ?_)
            fun outcome houtcome => ?_
          · refine (resealAssetKey_nests requester asset chunk h'.core).mono
              (fun effects _ heffects more hmore => ?_) fun e _ _ more hmore => ?_
            · obtain rfl := Except.ok.inj hmore
              exact heffects
            · exact absurd hmore (by simp)
          · cases outcome with
            | ok effects => exact h effects (houtcome effects rfl)
            | error e =>
                refine .next (P := fun effects => effects = []) (fun h' => rfl) ?_
                rintro effects rfl
                exact h [] (by simp)

theorem mintNamespace_agree (h : AgreeUpTo 1 again again') (epoch : U32) :
    Agree (mintNamespace again epoch) (mintNamespace again' epoch) := by
  refine .after (calm_outside fun _ => ⟨rfl, rfl, rfl, List.prefix_refl _⟩) fun fresh => ?_
  cases fresh with
  | error e => exact (calm_report _).agree
  | ok id =>
      dsimp only
      refine .after (calm_outside fun _ => ⟨rfl, rfl, rfl, List.prefix_refl _⟩) fun write => ?_
      refine .after (calm_outside fun _ => ⟨rfl, rfl, rfl, List.prefix_refl _⟩) fun read => ?_
      cases write with
      | error e => exact (calm_report _).agree
      | ok write =>
          cases read with
          | error e => exact (calm_report _).agree
          | ok read =>
              dsimp only
              cases Surroundings.encodeCapability ⟨write, read⟩ with
              | error e => exact (calm_report _).agree
              | ok ticket =>
                  refine .after calm_now fun time =>
                    .next (consult_nests (onNamespaceMinted_nests epoch ticket))
                      fun effects heffects => ?_
                  split
                  · exact .pure ()
                  · exact h effects heffects

theorem adoptNamespace_agree (h : AgreeUpTo 0 again again') (ticket : Bytes)
    (roleMayWrite : Bool) :
    Agree (adoptNamespace inner again ticket roleMayWrite)
      (adoptNamespace inner again' ticket roleMayWrite) := by
  unfold adoptNamespace
  split
  · exact (calm_report _).agree
  · refine .after (calm_openOrImport _) fun opened => ?_
    cases opened with
    | error e => exact (calm_report _).agree
    | ok u =>
        refine .after .get fun hub => .seq (fun h' => ⟨rfl, trivial⟩) fun _ =>
          .after (calm_carryAssets _ _) fun _ => .after (calm_outside fun h' => .refl h') fun left =>
            .after (calm_reporting _ _) fun _ => .seq (fun h' => ⟨rfl, trivial⟩) fun _ => ?_
        exact .after calm_spawnDataLoop fun subscribed => .after (calm_reporting _ _) fun _ =>
          .after calm_refreshDownloadPolicy fun _ => republish_agree inner h

/-- Performing an effect calls the pump with effects that bring about less. -/
theorem perform_agree {effect : Effect} (h : ∀ m < effect.nesting, AgreeUpTo m again again') :
    Agree (perform inner again effect) (perform inner again' effect) := by
  cases effect with
  | broadcastOp op proof =>
      exact .after (calm_broadcast _) fun _ => (calm_reporting _ _).agree
  | broadcastCerts certs =>
      exact .after (calm_broadcast _) fun _ => (calm_reporting _ _).agree
  | evictUncertified member => exact evictUncertified_agree (h 2 (by simp [Effect.nesting])) member
  | storeChunk key doc chunk =>
      exact .after (calm_storeChunk _ _ _) fun _ => (calm_reporting _ _).agree
  | storeManifest key chunk =>
      exact .after (calm_storeChunk _ _ _) fun _ => (calm_reporting _ _).agree
  | deleteEntry key doc => exact (calm_withdraw _ _ _).agree
  | deleteAssetSegments range asset => exact (calm_withdraw _ _ _).agree
  | applied doc => exact .pure ()
  | manifestUpdated =>
      exact .after (calm_refreshRoster _) fun _ => calm_refreshDownloadPolicy.agree
  | rotateNamespace epoch => exact mintNamespace_agree (h 1 (by simp [Effect.nesting])) epoch
  | publishNamespace epoch chunk =>
      exact .after (calm_broadcast _) fun _ => (calm_reporting _ _).agree
  | adoptNamespace epoch ticket =>
      refine .after (.bind .get fun _ => .pure _) fun mayWrite => ?_
      exact adoptNamespace_agree inner (h 0 (by simp [Effect.nesting])) ticket mayWrite
  | requestRepair target epoch => exact (calm_requestRepair _ _).agree
  | resealAssetKey requester asset =>
      exact answerAssetKeyRepair_agree inner (h 0 (by simp [Effect.nesting])) requester asset

theorem performAll_agree (h : ∀ m < n, AgreeUpTo m again again') {effects : List Effect}
    (heffects : ∀ effect ∈ effects, effect.nesting ≤ n) :
    Agree (performAll inner again effects) (performAll inner again' effects) := by
  induction effects with
  | nil => exact .pure ()
  | cons effect rest ih =>
      refine .seq (perform_agree inner fun m hm =>
        h m (hm.trans_le (heffects effect List.mem_cons_self))) fun _ => ?_
      exact ih fun effect' hmem => heffects effect' (List.mem_cons_of_mem _ hmem)

/-- Two bounds that both suffice make no difference. -/
theorem applyEffects_agree (n d d' : Nat) (hd : n < d) (hd' : n < d') :
    AgreeUpTo n (applyEffects inner d) (applyEffects inner d') := by
  induction n using Nat.strongRecOn generalizing d d' with
  | ind n ih =>
      intro effects heffects
      obtain ⟨d, rfl⟩ := Nat.exists_eq_succ_of_ne_zero (Nat.ne_of_gt (Nat.zero_lt_of_lt hd))
      obtain ⟨d', rfl⟩ := Nat.exists_eq_succ_of_ne_zero (Nat.ne_of_gt (Nat.zero_lt_of_lt hd'))
      exact performAll_agree inner (fun m hm => ih m hm d d' (by omega) (by omega)) heffects

end Rests

end Pump

/-- The pump comes to rest, whatever the effects, the state and the surroundings: it is never
more than four calls deep in itself, and a larger bound makes no difference. -/
theorem applyEffects_rests (inner : HubInner) (effects : List Effect) (h : Hub) :
    Wp (Pump.applyEffects inner 4 effects) (fun _ _ => True) (fun halt _ => halt = .cut) h ∧
      ∀ more, Pump.applyEffects inner (more + 4) effects h =
        Pump.applyEffects inner 4 effects h := by
  have hnesting : ∀ effect ∈ effects, effect.nesting ≤ 3 := fun effect _ => by
    cases effect <;> simp [Effect.nesting]
  have hagree (depth : Nat) (hdepth : 3 < depth) :=
    Pump.applyEffects_agree inner 3 4 depth (by omega) hdepth effects hnesting h
  exact ⟨(hagree 4 (by omega)).2, fun more => (hagree (more + 4) (by omega)).1.symm⟩

end IrohBeekem
