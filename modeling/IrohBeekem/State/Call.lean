import IrohBeekem.Library.Course
import IrohBeekem.State.Arrivals
import IrohBeekem.State.Restore
import IrohBeekem.State.Snapshot

/-!
# Calls and runs

The interface of the state machine as one type: an event, a message of the control
plane, or a direct method.  `Call.moves` puts the specifications of the handlers
together, and `Reachable` is the set of states that runs of a node go through,
restarts included.
-/

set_option linter.unusedSectionVars false

namespace IrohBeekem

open Library CgkaController WorkspaceState

variable [Keyhive] [Beekem] [Loro] [Postcard]

omit [Loro] [Postcard] in
/-- One call of the state machine. -/
inductive Call where
  | handle (event : Event) (now : UnixSeconds)
  | onControl (msg : ControlMsg) (now : UnixSeconds)
  | checkpoint (name message : String) (now : UnixSeconds)
  | restoreCheckpoint (digest : Bytes32) (now : UnixSeconds)
  | addAssetVersion (doc content : DocumentUuid) (assetMeta : AssetMeta) (now : UnixSeconds)
  | revertAsset (doc content : DocumentUuid) (now : UnixSeconds)
  | sealAssetKey (asset : DocumentUuid)
  | openAssetKey (keyChunk : Chunk OpHash)
  | resealAssetKey (requester : Bytes32) (asset : DocumentUuid) (keyChunk : Chunk OpHash)

/-- What a call does, as far as its effects go. -/
def Call.run : Call → Run (List Effect)
  | .handle event now => WorkspaceState.handle event now
  | .onControl msg now => WorkspaceState.onControl msg now
  | .checkpoint name message now => do
      let (effects, _) ← WorkspaceState.checkpoint name message now
      return effects
  | .restoreCheckpoint digest now => do
      let (effects, _) ← WorkspaceState.restoreCheckpoint digest now
      return effects
  | .addAssetVersion doc content assetMeta now =>
      WorkspaceState.addAssetVersion doc content assetMeta now
  | .revertAsset doc content now => WorkspaceState.revertAsset doc content now
  | .sealAssetKey asset => do
      let (_, effects) ← WorkspaceState.sealAssetKey asset
      return effects
  | .openAssetKey keyChunk => do
      let _ ← WorkspaceState.openAssetKey keyChunk
      return []
  | .resealAssetKey requester asset keyChunk =>
      WorkspaceState.resealAssetKey requester asset keyChunk

/-! ## Kinds of calls -/

section Kinds

omit [Loro] [Postcard]

/-- The operations an event delivers. -/
def Event.offered : Event → List AuthorizedOp
  | .controlOp op => [op]
  | _ => []

/-- The operations a call delivers. -/
def Call.offered : Call → List AuthorizedOp
  | .handle event _ => event.offered
  | .onControl (.op op proof) _ => [⟨op, proof⟩]
  | .onControl (.log ops _) _ => ops.map .bare
  | _ => []

/-- The events about the namespace. -/
def Event.aboutNamespace : Event → Bool
  | .namespaceMinted _ _ => true
  | .namespaceArrived _ _ => true
  | .resyncNamespace => true
  | .repairRequested _ .namespace_ _ => true
  | _ => false

/-- The events that at most publish: they change neither the members nor the
certificates nor the namespace. -/
def Event.publishes : Event → Bool
  | .controlOp _ | .certsArrived _ | .addUser _ _ _ _ _ | .addDevice _ _ _ _ _
  | .removeMember _ | .leave | .propose _ _ | .approve _ | .setRole _ _ => false
  | event => !event.aboutNamespace

/-- The calls about the namespace. -/
def Call.aboutNamespace : Call → Bool
  | .handle event _ => event.aboutNamespace
  | .onControl (.namespace_ _ _) _ => true
  | .onControl (.repair _ .namespace_ _) _ => true
  | _ => false

/-- The calls that announce the capability at hand once more. -/
def Call.reannounces : Call → Bool
  | .handle .resyncNamespace _ => true
  | .handle (.repairRequested _ .namespace_ _) _ => true
  | .onControl (.repair _ .namespace_ _) _ => true
  | _ => false

end Kinds

/-- The generation and the capability an announcement is of, if it can be read. -/
def announced (s : WorkspaceState) (epoch : U32) (chunk : Chunk OpHash) : List (U32 × Bytes) :=
  match CgkaController.decrypt chunk s.cgka with
  | .ok (.plaintext ticket) _ => [(epoch, ticket)]
  | _ => []

/-- The generation and the capability a call tells the node of: one minted for it on
request, or one a peer announced. -/
def Call.told (s : WorkspaceState) : Call → List (U32 × Bytes)
  | .handle (.namespaceMinted epoch ticket) _ => [(epoch, ticket)]
  | .handle (.namespaceArrived epoch chunk) _ => announced s epoch chunk
  | .onControl (.namespace_ epoch chunk) _ => announced s epoch chunk
  | _ => []

/-- The calls that bring a capability minted on request. -/
def Call.mints : Call → Bool
  | .handle (.namespaceMinted _ _) _ => true
  | _ => false

theorem Call.told_of_reannounces {call : Call} (h : call.reannounces = true)
    (s : WorkspaceState) : call.told s = [] := by
  cases call with
  | handle event now =>
      cases event with
      | resyncNamespace => rfl
      | repairRequested requester target epoch => rfl
      | _ => exact absurd h Bool.false_ne_true
  | onControl msg now =>
      cases msg with
      | repair member target epoch => rfl
      | _ => exact absurd h Bool.false_ne_true
  | _ => exact absurd h Bool.false_ne_true

/-- When no failure of an event loses an operation: an addition needs a tree that
keys chunks, and whoever leaves must not be the last to go. -/
def Event.Safe (s : WorkspaceState) : Event → Prop
  | .addUser _ _ _ _ _ => Keyable s.cgka.cgka
  | .addDevice _ _ _ _ _ => Keyable s.cgka.cgka
  | .leave => ∃ leaves, WorkspaceState.Roster leaves ∧ Leavable leaves s.leavingDevices s.cgka.cgka
  | _ => True

def Call.Safe (s : WorkspaceState) : Call → Prop
  | .handle event _ => event.Safe s
  | _ => True

variable [LawfulBeekem]

/-! ## Events that are not about the namespace -/

/-- An event that publishes. -/
theorem WorkspaceState.Emits.safely {x : Run (List Effect)} {safe : WorkspaceState → Prop} (h : Publishes x) :
    Advances [] (fun s => Steady ∧ safe s) x :=
  (Emits.advances h).weaken fun _ hsafe => hsafe.1

theorem handle_addUser_advances (member shareKey : Bytes32) (role : Role) (displayName : String)
    (endpoint : Option Bytes32) :
    Advances [] (fun s => Steady ∧ Keyable s.cgka.cgka) (do
      requireAdmin
      onAddUser member shareKey role displayName endpoint) := by
  intro s rng
  refine requireAdmin_spec.seq ?_ ?_
  · rintro _ p ⟨rfl, -⟩
    exact onAddUser_advances member shareKey role displayName endpoint s rng
  · rintro e p rfl
    exact .of_evolves (.refl _) rfl rfl rfl

theorem handle_addDevice_advances (member shareKey user : Bytes32) (label : String)
    (endpoint : Option Bytes32) :
    Advances [] (fun s => Steady ∧ Keyable s.cgka.cgka) (do
      requireMayAddDeviceTo user
      onAddDevice member shareKey user label endpoint) := by
  intro s rng
  refine (requireMayAddDeviceTo_spec user).seq ?_ ?_
  · rintro _ p ⟨rfl, -⟩
    exact onAddDevice_advances member shareKey user label endpoint s rng
  · rintro e p rfl
    exact .of_evolves (.refl _) rfl rfl rfl

theorem handle_rotate_publishes : Publishes (do
    let op ← onCgkaRng CgkaController.rotate
    return [.broadcast op]) := by
  intro s rng
  rw [wp_bind, wp_onCgkaRng]
  refine (rotate_spec s.cgka rng).mono ?_ ?_
  · rintro op q ⟨hrekeys, -⟩
    exact ⟨[op], ⟨hrekeys, rfl, rfl, rfl⟩, Announces.broadcasts [op]⟩
  · rintro e q hrekeys
    exact ⟨[], ⟨hrekeys, rfl, rfl, rfl⟩, fun _ => rfl⟩

/-- What the events do that at most publish. -/
theorem handle_publishes (event : Event) (now : UnixSeconds) (h : event.publishes = true) :
    Publishes (handle event now) := by
  cases event with
  | controlOp op => exact absurd h Bool.false_ne_true
  | certsArrived certs => exact absurd h Bool.false_ne_true
  | addUser member shareKey role displayName endpoint => exact absurd h Bool.false_ne_true
  | addDevice member shareKey user label endpoint => exact absurd h Bool.false_ne_true
  | removeMember member => exact absurd h Bool.false_ne_true
  | leave => exact absurd h Bool.false_ne_true
  | propose action expires => exact absurd h Bool.false_ne_true
  | approve proposal => exact absurd h Bool.false_ne_true
  | setRole user role => exact absurd h Bool.false_ne_true
  | resyncNamespace => exact absurd h Bool.false_ne_true
  | namespaceMinted epoch ticket => exact absurd h Bool.false_ne_true
  | namespaceArrived epoch chunk => exact absurd h Bool.false_ne_true
  | chunkArrived doc chunk => exact (onChunkArrived_quiet doc chunk).publishes
  | localEdit doc text => exact onTextEdit_publishes doc now _
  | writeFile doc text => exact onTextEdit_publishes doc now _
  | insertText doc pos text => exact onTextEdit_publishes doc now _
  | removeText doc pos len => exact onTextEdit_publishes doc now _
  | revertDocument doc version => exact onRevert_publishes doc version now
  | deleteFile doc => exact onDeleteFile_publishes doc
  | resync doc => exact onResync_publishes doc
  | resyncCertificates =>
      refine (Harmless.self.quiet fun s => ?_).publishes
      exact .pure (silent_broadcastCerts _)
  | rotate => exact handle_rotate_publishes
  | manifestArrived chunk => exact onManifestArrived_publishes chunk
  | upsertFile entry =>
      exact requireWrite_harmless.emits fun _ =>
        (Harmless.onManifest _).emits fun _ => publishManifest_publishes .current
  | renameFile doc path =>
      exact requireWrite_harmless.emits fun _ =>
        (Harmless.onManifest _).emits fun _ => publishManifest_publishes .current
  | setInfo info =>
      exact requireAdmin_harmless.emits fun _ =>
        (Harmless.onManifest _).emits fun _ => publishManifest_publishes .current
  | setDisplayName displayName =>
      refine Harmless.self.emits fun s => ?_
      cases s.capabilities.userOf s.memberId with
      | none => exact .throw _
      | some user =>
          exact (Harmless.onManifest _).emits fun _ => publishManifest_publishes .current
  | announceAuthor author =>
      exact Harmless.self.emits fun s =>
        (Harmless.onManifest _).emits fun _ => publishManifest_publishes .current
  | resyncManifest => exact publishManifest_publishes .current
  | repairRequested requester target epoch =>
      refine onRepairRequested_publishes requester ?_
      rintro rfl
      exact absurd h Bool.false_ne_true
  | announceEndpoint endpointId =>
      refine Harmless.emits (.update (fun _ => rfl) (fun _ => rfl) (fun _ => rfl) fun _ => rfl)
        fun _ => recordEndpoint_harmless.emits fun landed => ?_
      split_ifs
      · exact publishManifest_publishes .current
      · exact (Quiet.pure .nil).publishes

theorem handle_advances (event : Event) (now : UnixSeconds) (h : event.aboutNamespace = false) :
    Advances event.offered (fun s => Steady ∧ event.Safe s) (handle event now) := by
  cases event with
  | controlOp op => exact (onControlOp_advances op).weaken fun _ h => h.1
  | certsArrived certs => exact (onCertsArrived_advances certs).weaken fun _ h => h.1
  | addUser member shareKey role displayName endpoint =>
      exact handle_addUser_advances member shareKey role displayName endpoint
  | addDevice member shareKey user label endpoint =>
      exact handle_addDevice_advances member shareKey user label endpoint
  | removeMember member => exact (onRemoveMember_advances member).weaken fun _ _ => trivial
  | leave => exact onLeave_advances.weaken fun _ h => h.2
  | propose action expires => exact (onPropose_advances action expires).weaken fun _ _ => trivial
  | approve proposal => exact (onApprove_advances proposal).weaken fun _ _ => trivial
  | setRole user role => exact (onSetRole_advances user role).weaken fun _ _ => trivial
  | _ => exact Emits.safely (handle_publishes _ now (congrArg not h))

/-! ## Calls that are not about the namespace -/

omit [LawfulBeekem] in
theorem refuseOversized_harmless (ops certs : Nat) : Harmless (refuseOversized ops certs) := by
  unfold refuseOversized
  split_ifs
  · exact .throw _
  · exact .pure _

omit [LawfulBeekem] in
theorem verdict_harmless {α : Type} (r : Except CoreError α) : Harmless (verdict r) := by
  cases r with
  | ok a => exact .pure a
  | error e => exact .throw e

/-- A log: its certificates first, and then its operations one by one. -/
theorem onControl_log_advances (ops : List ControlOp) (certs : List Certificate)
    (now : UnixSeconds) :
    Advances (ops.map .bare) (fun _ => Steady) (do
      let effects ← handle (.certsArrived certs) now
      handleLog now ops effects) := by
  intro s rng
  refine (onCertsArrived_advances certs s rng).seq ?_ ?_
  · rintro effects p ⟨hmoves, hbumps⟩
    refine (handleLog_spec now ops effects p.1 p.2).mono ?_ fun _ _ => False.elim
    rintro effects' p' ⟨l, rfl, htakes, hcerts⟩
    obtain ⟨hmoves', hbumps'⟩ := htakes.moves
    exact ⟨hmoves.trans hmoves' (Or.inr hcerts), hbumps.trans hbumps'⟩
  · intro e p hfails
    obtain ⟨added, hevolves, hnil⟩ := hfails.evolves
    exact { hfails with
      evolves := ⟨added, hevolves.offer fun _ ha => absurd ha List.not_mem_nil, hnil⟩ }

/-- A direct method that returns its effects with something else. -/
theorem WorkspaceState.Emits.effects {α : Type} {x : Run α} {out : α → List Effect} (h : Emits out x) :
    Publishes (do
      let a ← x
      return out a) :=
  h.andThen fun _ s _ => ⟨Rekeyed.refl s, [], .nil, rfl⟩

theorem Call.advances (call : Call) (h : call.aboutNamespace = false) :
    Advances call.offered (fun s => Steady ∧ call.Safe s) call.run := by
  cases call with
  | handle event now => exact handle_advances event now h
  | onControl msg now =>
      cases msg with
      | op op proof => exact handle_advances (.controlOp ⟨op, proof⟩) now rfl
      | certs certs =>
          exact ((refuseOversized_harmless _ _).still.advances fun _ =>
            onCertsArrived_advances certs).weaken fun _ h => h.1
      | log ops certs =>
          exact ((refuseOversized_harmless _ _).still.advances fun _ =>
            onControl_log_advances ops certs now).weaken fun _ h => h.1
      | announce key => exact Emits.safely (Quiet.pure .nil).publishes
      | namespace_ epoch chunk => exact absurd h (by simp [Call.aboutNamespace])
      | repair member target epoch =>
          refine Emits.safely ((verdict_harmless _).emits fun requester =>
            onRepairRequested_publishes requester ?_)
          rintro rfl
          exact absurd h (by simp [Call.aboutNamespace])
  | checkpoint name message now => exact Emits.safely (checkpoint_emits name message now).effects
  | restoreCheckpoint digest now => exact Emits.safely (restoreCheckpoint_emits digest now).effects
  | addAssetVersion doc content assetMeta now =>
      exact Emits.safely (addAssetVersion_publishes doc content assetMeta now)
  | revertAsset doc content now => exact Emits.safely (revertAsset_publishes doc content now)
  | sealAssetKey asset => exact Emits.safely (sealAssetKey_emits asset).effects
  | openAssetKey keyChunk =>
      exact Emits.safely ((openAssetKey_harmless keyChunk).quiet fun _ => .pure .nil).publishes
  | resealAssetKey requester asset keyChunk =>
      exact Emits.safely (resealAssetKey_publishes requester asset keyChunk)

/-! ## Calls about the namespace -/

omit [LawfulBeekem] in
/-- A capability the node was told of and leaves: another generation was asked for
than it was minted for, or it was announced and is not newer. -/
def Passed (s : WorkspaceState) (call : Call) (x : U32 × Bytes) : Prop :=
  if call.mints then x.1 ≠ s.namespaceEpoch.epoch
  else (NamespaceEpoch.of x.1 x.2).rank ≤ s.namespaceEpoch.rank

/-- What a call about the namespace does: nothing to it, announce the capability at
hand once more, or install one it was told of. -/
inductive Announced (s : WorkspaceState) (call : Call) (s' : WorkspaceState) :
    List Effect → Prop where
  | still {effects : List Effect} (hrekeyed : Rekeyed s s' []) (hsilent : Silent effects)
      (hpassed : ∀ x ∈ call.told s, Passed s call x) : Announced s call s' effects
  | again (ops : List ControlOp) (chunk : Chunk OpHash) (hcall : call.reannounces = true)
      (hrekeyed : Rekeyed s s' ops) (hticket : s.namespaceTicket ≠ [])
      (hchunk : ∃ secret, Beekem.tryEncrypt secret s.namespaceTicket = some chunk) :
      Announced s call s'
        (ops.map Effect.broadcast ++ [.publishNamespace s.namespaceEpoch.epoch chunk])
  | minted (epoch : U32) (ticket : Bytes) (ops : List ControlOp) (chunk : Chunk OpHash)
      (htold : call.told s = [(epoch, ticket)]) (hmints : call.mints = true)
      (hcurrent : epoch = s.namespaceEpoch.epoch) (hcgka : Rekeys s.cgka s'.cgka ops)
      (hepoch : s'.namespaceEpoch = .of epoch ticket) (hticket : s'.namespaceTicket = ticket)
      (hchunk : ∃ secret, Beekem.tryEncrypt secret ticket = some chunk) :
      Announced s call s'
        (ops.map Effect.broadcast ++ [.publishNamespace epoch chunk, .adoptNamespace epoch ticket])
  | adopted (epoch : U32) (ticket : Bytes) (htold : call.told s = [(epoch, ticket)])
      (hmints : call.mints = false)
      (hnewer : s.namespaceEpoch.rank < (NamespaceEpoch.of epoch ticket).rank)
      (hcgka : Rekeys s.cgka s'.cgka []) (hepoch : s'.namespaceEpoch = .of epoch ticket)
      (hticket : s'.namespaceTicket = ticket) : Announced s call s' [.adoptNamespace epoch ticket]

/-- A failed call about the namespace. -/
def Refused (s s' : WorkspaceState) : Prop := ∃ ops, Rekeyed s s' ops ∧ (Steady → ops = [])

theorem republishNamespace_announced {call : Call} (hcall : call.reannounces = true)
    (keying : Keying) (s : WorkspaceState) (rng : Rng) :
    Wp (republishNamespace keying) (fun effects p => Announced s call p.1 effects)
      (fun _ p => Refused s p.1) (s, rng) := by
  unfold republishNamespace
  rw [wp_bind, wp_self]
  dsimp only
  split_ifs with hticket
  · exact .still (.refl s) .nil (by simp [call.told_of_reannounces hcall s])
  · refine (encryptKeyed_spec s.namespaceTicket [] keying s rng).seq ?_ fun _ _ => id
    rintro ⟨chunk, ops⟩ p ⟨hrekeyed, hchunk⟩
    rw [wp_bind, wp_self, wp_pure, hrekeyed.namespaceEpoch]
    exact .again ops chunk hcall hrekeyed hticket hchunk

theorem onNamespaceMinted_announced {call : Call} {epoch : U32} {ticket : Bytes}
    (s : WorkspaceState) (rng : Rng) (htold : call.told s = [(epoch, ticket)])
    (hmints : call.mints = true) :
    Wp (onNamespaceMinted epoch ticket) (fun effects p => Announced s call p.1 effects)
      (fun _ p => Refused s p.1) (s, rng) := by
  unfold onNamespaceMinted
  rw [wp_bind, wp_self]
  dsimp only
  split_ifs with hepoch
  · refine .still (.refl s) .nil ?_
    rw [htold]
    simpa [Passed, hmints] using hepoch
  · have hspec : Wp (onCgkaRng (encryptFresh ticket [])) _ _ _ :=
      encryptKeyed_spec ticket [] .fresh s rng
    refine hspec.seq ?_ fun _ _ => id
    rintro ⟨chunk, ops⟩ p ⟨hrekeyed, hchunk⟩
    rw [wp_bind, wp_update, wp_pure]
    exact .minted epoch ticket ops chunk htold hmints (not_not.mp hepoch) hrekeyed.cgka rfl rfl hchunk

theorem onNamespaceArrived_announced {call : Call} {epoch : U32} {chunk : Chunk OpHash}
    (s : WorkspaceState) (rng : Rng) (htold : call.told s = announced s epoch chunk)
    (hmints : call.mints = false) :
    Wp (onNamespaceArrived epoch chunk) (fun effects p => Announced s call p.1 effects)
      (fun _ p => Refused s p.1) (s, rng) := by
  unfold onNamespaceArrived
  rw [wp_bind, wp_onCgka]
  have hspec := decrypt_harmless chunk s rng
  rw [wp_onCgka] at hspec
  unfold announced at htold
  unfold Wp at hspec ⊢
  cases hrun : CgkaController.decrypt chunk s.cgka with
  | error e c =>
      rw [hrun] at hspec
      exact ⟨[], hspec, fun _ => rfl⟩
  | ok outcome c =>
      rw [hrun] at hspec htold
      cases outcome with
      | awaitingOp => exact .still hspec .nil (by simp [htold])
      | unreachable =>
          exact .still hspec ⟨rfl, by simp [Effect.aboutNamespace]⟩ (by simp [htold])
      | plaintext ticket =>
          change Wp _ _ _ _
          rw [wp_bind, wp_self]
          split_ifs with hrank
          · refine .still hspec .nil ?_
            rw [htold]
            simpa [Passed, hmints] using hrank
          · exact .adopted epoch ticket htold hmints (not_le.mp hrank) hspec.cgka rfl rfl

/-- Counting an answer changes neither the tree nor the namespace. -/
theorem answer_announced {call : Call} {x : Run (List Effect)} {s : WorkspaceState} {rng : Rng}
    (h : Wp x (fun effects p => Announced s call p.1 effects) (fun _ p => Refused s p.1)
      (s, rng)) :
    Wp (do
      let effects ← x
      if effects ≠ [] then
        update fun s => { s with repairsAnswered := s.repairsAnswered + 1 }
      return effects)
      (fun effects p => Announced s call p.1 effects) (fun _ p => Refused s p.1) (s, rng) := by
  refine h.seq ?_ fun _ _ => id
  intro effects p hannounced
  split_ifs
  · rw [wp_bind, wp_update, wp_pure]
    cases hannounced with
    | still hrekeyed hsilent hpassed =>
        exact .still ⟨hrekeyed.cgka, hrekeyed.namespaceEpoch, hrekeyed.namespaceTicket, hrekeyed.executedHere⟩ hsilent
          hpassed
    | again ops chunk hcall hrekeyed hticket hchunk =>
        exact .again ops chunk hcall
          ⟨hrekeyed.cgka, hrekeyed.namespaceEpoch, hrekeyed.namespaceTicket, hrekeyed.executedHere⟩ hticket hchunk
    | minted epoch ticket ops chunk htold hmints hcurrent hcgka hepoch hticket hchunk =>
        exact .minted epoch ticket ops chunk htold hmints hcurrent hcgka hepoch hticket hchunk
    | adopted epoch ticket htold hmints hnewer hcgka hepoch hticket =>
        exact .adopted epoch ticket htold hmints hnewer hcgka hepoch hticket
  · exact hannounced

theorem onRepairRequested_announced {call : Call} (hcall : call.reannounces = true)
    (requester : Bytes32) (s : WorkspaceState) (rng : Rng) :
    Wp (onRepairRequested requester .namespace_) (fun effects p => Announced s call p.1 effects)
      (fun _ p => Refused s p.1) (s, rng) := by
  unfold onRepairRequested
  rw [wp_bind, wp_self]
  dsimp only
  split_ifs
  · exact answer_announced (republishNamespace_announced hcall .fresh s rng)
  · exact ⟨[], .refl s, fun _ => rfl⟩

theorem Call.announced (call : Call) (h : call.aboutNamespace = true) (s : WorkspaceState)
    (rng : Rng) :
    Wp call.run (fun effects p => Announced s call p.1 effects) (fun _ p => Refused s p.1)
      (s, rng) := by
  cases call with
  | handle event now =>
      cases event with
      | namespaceMinted epoch ticket => exact onNamespaceMinted_announced s rng rfl rfl
      | namespaceArrived epoch chunk => exact onNamespaceArrived_announced s rng rfl rfl
      | resyncNamespace => exact republishNamespace_announced rfl .current s rng
      | repairRequested requester target epoch =>
          cases target with
          | namespace_ => exact onRepairRequested_announced rfl requester s rng
          | _ => exact absurd h (by simp [Call.aboutNamespace, Event.aboutNamespace])
      | _ => exact absurd h (by simp [Call.aboutNamespace, Event.aboutNamespace])
  | onControl msg now =>
      cases msg with
      | namespace_ epoch chunk => exact onNamespaceArrived_announced s rng rfl rfl
      | repair member target epoch =>
          cases target with
          | namespace_ =>
              change Wp (do
                let requester ← verdict (memberFromBytes member)
                onRepairRequested requester .namespace_) _ _ _
              rw [wp_bind, wp_verdict]
              cases memberFromBytes member with
              | ok requester => exact onRepairRequested_announced rfl requester s rng
              | error e => exact ⟨[], .refl s, fun _ => rfl⟩
          | _ => exact absurd h (by simp [Call.aboutNamespace])
      | _ => exact absurd h (by simp [Call.aboutNamespace])
  | _ => exact absurd h (by simp [Call.aboutNamespace])

/-! ## Every call -/

omit [LawfulBeekem] in
theorem Announced.moves {s s' : WorkspaceState} {call : Call} {effects : List Effect}
    (h : Announced s call s' effects) : Moves s s' effects [] := by
  cases h with
  | still hrekeyed hsilent hpassed => exact hrekeyed.moves hsilent.sent
  | again ops chunk hcall hrekeyed hticket hchunk =>
      exact hrekeyed.moves (by simp [sent, Effect.sent?, ← sent_map_broadcast])
  | minted epoch ticket ops chunk htold hmints hcurrent hcgka hepoch hticket hchunk =>
      exact moves_of_rekeys hcgka (by simp [sent, Effect.sent?, ← sent_map_broadcast])
  | adopted epoch ticket htold hmints hnewer hcgka hepoch hticket =>
      exact moves_of_rekeys hcgka rfl

omit [Loro] [Postcard] [LawfulBeekem] in
theorem Call.offered_eq_nil {call : Call} (h : call.aboutNamespace = true) :
    call.offered = [] := by
  cases call with
  | handle event now =>
      cases event with
      | controlOp op => exact absurd h (by simp [Call.aboutNamespace, Event.aboutNamespace])
      | _ => rfl
  | onControl msg now =>
      cases msg with
      | op op proof => exact absurd h (by simp [Call.aboutNamespace])
      | log ops certs => exact absurd h (by simp [Call.aboutNamespace])
      | _ => rfl
  | _ => rfl

/-- What any call does to the operation graph. -/
theorem Call.moves (call : Call) (s : WorkspaceState) (rng : Rng) :
    Wp call.run (fun effects p => Moves s p.1 effects call.offered)
      (fun _ p => Fails s p.1 call.offered (Steady ∧ call.Safe s)) (s, rng) := by
  by_cases hcall : call.aboutNamespace = true
  · rw [call.offered_eq_nil hcall]
    refine (call.announced hcall s rng).mono (fun _ _ h => h.moves) ?_
    rintro e p ⟨ops, hrekeyed, hnil⟩
    exact hrekeyed.fails fun hsafe => hnil hsafe.1
  · refine (call.advances (by simpa using hcall) s rng).mono (fun _ _ h => h.1) fun _ _ => id

/-! ## Founding and restarting -/

/-- What a founder certifies: itself, as an administrator, and a policy. -/
def Payload.Founding (founder : Bytes32) : Payload → Prop
  | .binding p => p.device = founder ∧ p.user = founder
  | .grant p => p.subject = founder ∧ p.capability = .admin
  | .policy _ => True
  | _ => False

omit [LawfulBeekem] in
/-- What holds of the state around the controller, and is kept by each record and each
certificate of the founding, holds of the founded state. -/
theorem found_invariant {c : CgkaController} {secret : Bytes32} {threshold : U32}
    {s : WorkspaceState} {P : WorkspaceState → Prop}
    (h : WorkspaceState.found c secret threshold = .ok s)
    (hstart : P (WorkspaceState.joined c secret NamespaceEpoch.initial.epoch))
    (huser : ∀ s, P s → Wp (Manifest.setUser c.memberId "")
      (fun _ m => P { s with manifest := m }) (fun _ _ => True) s.manifest)
    (hdevice : ∀ s, P s → Wp (Manifest.setDevice c.memberId "first device")
      (fun _ m => P { s with manifest := m }) (fun _ _ => True) s.manifest)
    (hcertify : ∀ p s, Payload.Founding c.memberId p → P s → Wp (certify p)
      (fun _ c' => P { s with cgka := c' }) (fun _ _ => True) s.cgka) : P s := by
  have hrecords : Wp (foundingRecords threshold) (fun _ s => P s) (fun _ _ => True)
      (WorkspaceState.joined c secret NamespaceEpoch.initial.epoch) := by
    unfold foundingRecords
    rw [wp_bind, wp_get]
    refine (wp_zoom.mpr (huser _ hstart)).seq ?_ fun _ _ => id
    intro _ s hs
    refine (wp_zoom.mpr (hdevice s hs)).seq ?_ fun _ _ => id
    intro _ s hs
    refine (wp_zoom.mpr (hcertify (.binding _) s ⟨rfl, rfl⟩ hs)).seq ?_ fun _ _ => id
    intro _ s hs
    refine Wp.seq (Q := fun _ s => P s) (E := fun _ _ => True) ?_ ?_ fun _ _ => id
    · rw [wp_zoom]
      unfold certifyRole
      rw [wp_bind, wp_get]
      exact hcertify
        (.grant (.new c.memberId .admin (s.cgka.certs.nextSeq c.memberId) none 0)) s ⟨rfl, rfl⟩ hs
    · intro _ s hs
      exact (wp_zoom.mpr (hcertify (.policy _) s trivial hs)).seq (fun _ _ h => h) fun _ _ => id
  unfold WorkspaceState.found at h
  unfold Wp at hrecords
  cases hrun : foundingRecords threshold
      (WorkspaceState.joined c secret NamespaceEpoch.initial.epoch) with
  | ok u s' =>
      rw [hrun] at h hrecords
      obtain rfl := Except.ok.inj h
      exact hrecords
  | error e s' =>
      rw [hrun] at h
      exact absurd h (by simp)

omit [LawfulBeekem] in
/-- Founding mints certificates and writes records, on a founding namespace. -/
theorem found_spec {c : CgkaController} {secret : Bytes32} {threshold : U32} {s : WorkspaceState}
    (h : WorkspaceState.found c secret threshold = .ok s) :
    Evolves c s.cgka [] [] ∧ s.namespaceTicket = [] := by
  have hrecord : ∀ (x : EStateM CoreError Manifest Unit) (s : WorkspaceState),
      Evolves c s.cgka [] [] ∧ s.namespaceTicket = [] →
      Wp x (fun _ m => Evolves c ({ s with manifest := m } : WorkspaceState).cgka [] [] ∧
        ({ s with manifest := m } : WorkspaceState).namespaceTicket = []) (fun _ _ => True)
        s.manifest :=
    fun x s hs => wp_of_run (fun _ _ _ => hs) fun _ _ _ => trivial
  refine found_invariant h ⟨.refl c, rfl⟩ (hrecord _) (hrecord _) ?_
  intro p s _ hs
  exact (certify_evolves s.cgka p).mono (fun _ _ h => ⟨hs.1.trans h, hs.2⟩) fun _ _ _ => trivial

/-- A node that resumed keeps its tree, its keys, its members, its certificates and its
namespace, and has forgotten what it carried out. -/
structure Resumed (s s' : WorkspaceState) : Prop where
  cgka : s'.cgka.cgka = s.cgka.cgka
  signer : s'.cgka.signer = s.cgka.signer
  memberId : s'.cgka.memberId = s.cgka.signer
  known : s'.cgka.knownMembers = s.cgka.knownMembers
  current : s'.cgka.currentMembers = s.cgka.currentMembers
  certs : s'.cgka.certs =
    ((CapabilityStore.new s.cgka.certs.founder).extend s.cgka.certs.certificates).2
  parked : s'.cgka.parked = []
  executedHere : s'.executedHere = .empty
  namespaceEpoch : s'.namespaceEpoch = s.namespaceEpoch
  namespaceTicket : s'.namespaceTicket = s.namespaceTicket
  publishedUpTo : s'.publishedUpTo = s.publishedUpTo

omit [Beekem] [Loro] [Postcard] [LawfulBeekem] in
/-- Decompressing identities changes none. -/
theorem mapM_memberFromBytes {l l' : List Bytes32} (h : l.mapM memberFromBytes = .ok l') :
    l' = l := by
  induction l generalizing l' with
  | nil => exact (Except.ok.inj h).symm
  | cons bytes rest ih =>
      rw [List.mapM_cons] at h
      obtain ⟨member, hmember, h⟩ := bind_eq_ok.mp h
      obtain ⟨members, hmembers, h⟩ := bind_eq_ok.mp h
      obtain rfl := Except.ok.inj h
      rw [memberFromBytes_ok hmember, ih hmembers]

omit [Loro] [Postcard] [LawfulBeekem] in
theorem CgkaController.fromSnapshot_ok {order : HashOrder} {c c' : CgkaController}
    (h : CgkaController.fromSnapshot (c.snapshot order) = .ok c') :
    c'.cgka = c.cgka ∧ c'.signer = c.signer ∧ c'.memberId = c.signer ∧
      c'.knownMembers = c.knownMembers ∧ c'.currentMembers = c.currentMembers ∧
      c'.certs = ((CapabilityStore.new c.certs.founder).extend c.certs.certificates).2 ∧
      c'.parked = [] := by
  obtain ⟨known, hknown, h⟩ := bind_eq_ok.mp h
  obtain ⟨current, hcurrent, h⟩ := bind_eq_ok.mp h
  obtain rfl := Except.ok.inj h
  have hsame : ∀ (set : Finset Bytes32) (l : List Bytes32),
      (order.iter set).mapM memberFromBytes = .ok l → l.toFinset = set := by
    intro set l hl
    ext m
    rw [mapM_memberFromBytes hl, List.mem_toFinset]
    exact order.mem_iter set m
  exact ⟨rfl, rfl, rfl, hsame _ _ hknown, hsame _ _ hcurrent, rfl, rfl⟩

omit [LawfulBeekem] in
theorem WorkspaceState.fromSnapshot_ok {order : HashOrder} {s s' : WorkspaceState}
    {snapshot : WorkspaceSnapshot} (hsnapshot : s.snapshot order = .ok snapshot)
    (h : WorkspaceState.fromSnapshot snapshot = .ok s') : Resumed s s' := by
  obtain ⟨docs, -, hsnapshot⟩ := bind_eq_ok.mp hsnapshot
  obtain ⟨manifest, -, hsnapshot⟩ := bind_eq_ok.mp hsnapshot
  obtain rfl := Except.ok.inj hsnapshot
  obtain ⟨manifest', -, h⟩ := bind_eq_ok.mp h
  obtain ⟨docs', -, h⟩ := bind_eq_ok.mp h
  obtain ⟨c, hc, h⟩ := bind_eq_ok.mp h
  obtain rfl := Except.ok.inj h
  obtain ⟨hcgka, hsigner, hmember, hknown, hcurrent, hcerts, hparked⟩ :=
    CgkaController.fromSnapshot_ok hc
  exact ⟨hcgka, hsigner, hmember, hknown, hcurrent, hcerts, hparked, rfl, rfl, rfl,
    BTreeMap.ofList_toList s.publishedUpTo⟩

omit [LawfulBeekem] in
/-- A node resumes from what it stored, or goes on as it was. -/
theorem restart_spec (order : HashOrder) (s : WorkspaceState) (rng : Rng) :
    Wp (WorkspaceState.restart order) (fun _ p => Resumed s p.1) (fun _ p => p.1 = s) (s, rng) := by
  unfold WorkspaceState.restart
  rw [wp_bind, wp_self, wp_bind, wp_verdict]
  cases hsnapshot : s.snapshot order with
  | error e => rfl
  | ok snapshot =>
      dsimp only
      rw [wp_bind, wp_verdict]
      cases hresumed : WorkspaceState.fromSnapshot snapshot with
      | error e => rfl
      | ok s' => exact WorkspaceState.fromSnapshot_ok hsnapshot hresumed

/-! ## Reachable states -/

/-- The states runs of a node go through, from founding or joining on. -/
inductive Reachable : WorkspaceState → Prop where
  | found {treeId signer secret : Bytes32} {threshold : U32} {rng rng' : Rng}
      {c : CgkaController} {s : WorkspaceState}
      (hcreate : CgkaController.create treeId signer rng = (.ok c, rng'))
      (hfound : WorkspaceState.found c secret threshold = .ok s) : Reachable s
  | joined {treeId signer shareSecret : Bytes32} {ops : List ControlOp}
      {certs : List Certificate} {c : CgkaController} (secret : Bytes32) (epoch : U32)
      (hjoin : CgkaController.join treeId signer shareSecret ops certs = .ok c) :
      Reachable (WorkspaceState.joined c secret epoch)
  | call {s : WorkspaceState} (h : Reachable s) (call : Call) (rng : Rng) :
      Reachable (after call.run (s, rng)).1
  | restart {s : WorkspaceState} (h : Reachable s) (order : HashOrder) (rng : Rng) :
      Reachable (after (WorkspaceState.restart order) (s, rng)).1

/-! ## Turns of a run -/

/-- A node that has just founded a workspace. -/
def Founded (s : WorkspaceState) : Prop :=
  ∃ (treeId signer secret : Bytes32) (threshold : U32) (rng rng' : Rng) (c : CgkaController),
    CgkaController.create treeId signer rng = (.ok c, rng') ∧
      WorkspaceState.found c secret threshold = .ok s

/-- A node that has just joined one. -/
def Joined (s : WorkspaceState) : Prop :=
  ∃ (treeId signer shareSecret secret : Bytes32) (ops : List ControlOp)
    (certs : List Certificate) (epoch : U32) (c : CgkaController),
    CgkaController.join treeId signer shareSecret ops certs = .ok c ∧
      s = WorkspaceState.joined c secret epoch

/-- What happens to a node at one point of a run: a call, or a restart. -/
inductive Turn where
  | call (call : Call) (rng : Rng)
  | restart (order : HashOrder) (rng : Rng)

def Turn.take : Turn → WorkspaceState → WorkspaceState
  | .call made rng, s => (after made.run (s, rng)).1
  | .restart order rng, s => (after (WorkspaceState.restart order) (s, rng)).1

omit [LawfulBeekem] in
theorem Reachable.of_started {s : WorkspaceState} (h : Founded s ∨ Joined s) : Reachable s := by
  rcases h with ⟨_, _, _, _, _, _, _, hcreate, hfound⟩ | ⟨_, _, _, secret, _, _, epoch, _, hjoin, rfl⟩
  · exact .found hcreate hfound
  · exact .joined secret epoch hjoin

omit [LawfulBeekem] in
theorem Reachable.turn {s : WorkspaceState} (h : Reachable s) (turn : Turn) :
    Reachable (turn.take s) := by
  cases turn with
  | call call rng => exact h.call call rng
  | restart order rng => exact h.restart order rng

/-- Whatever is noted along a run of a node, its states are reachable. -/
theorem Course.reachable {Note : Type} {m : Chart WorkspaceState Turn Note} {s : WorkspaceState}
    {n : Note} (h : m.Course s n) (hinit : ∀ s n, m.init s n → Founded s ∨ Joined s)
    (hstep : m.step = Turn.take) : Reachable s := by
  refine h.invariant (P := fun s _ => Reachable s) (fun s n hs => .of_started (hinit s n hs)) ?_
  intro s n turn hs _
  rw [hstep]
  exact hs.turn turn

/-- The state and the generator after some calls, each of which may fail. -/
def runAll : List Call → WorkspaceState × Rng → WorkspaceState × Rng
  | [], p => p
  | call :: rest, p => runAll rest (after call.run p)

theorem Reachable.calls {p : WorkspaceState × Rng} (h : Reachable p.1) (calls : List Call) :
    Reachable (runAll calls p).1 := by
  induction calls generalizing p with
  | nil => exact h
  | cons call rest ih => exact ih (h.call call p.2)

/-- Where a call ends that succeeds. -/
theorem Reachable.of_run {q p : WorkspaceState × Rng} {made : Call} {effects : List Effect}
    (h : Reachable q.1) (hrun : made.run q = .ok effects p) : Reachable p.1 := by
  have hafter : after made.run q = p := by
    unfold Library.after
    rw [hrun]
  rw [← hafter]
  exact h.call made q.2

end IrohBeekem
