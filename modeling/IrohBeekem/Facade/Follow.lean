import IrohBeekem.Facade.Pump

/-!
# Following the group's replica

The state machine records a generation and its capability, and the facade has a replica in
use; which it is, is read back from the store after a restart.  The two move at different
moments, and between them the surroundings can fail and the process can be gone.

Whatever happens, the replica in use is the one that the recorded capability names, whenever
the pump is at rest, and so is the one in the store whenever the process is gone.  The one
exception is reported: an adoption whose capability cannot be read, or whose replica cannot be
taken in (`replica_follows`).
-/

set_option linter.unusedSectionVars false

namespace IrohBeekem

open Library WorkspaceState

variable [Keyhive] [Beekem] [Loro] [Postcard] [Stores] [DocTickets] [Surroundings] [ChunkWire]

/-! ## The entry points -/

/-- The events after which `drive` computes the roster anew. -/
def Event.movesMembership : Event → Bool
  | .addUser _ _ _ _ _ | .addDevice _ _ _ _ _ | .removeMember _ | .announceEndpoint _ => true
  | _ => false

/-- Whom the answer to a message is charged to, if it costs unasked work. -/
def ControlMsg.answerCooldownKey : ControlMsg → Option Bytes32
  | .repair member _ _ => some member
  | _ => none

namespace Pump

variable (inner : HubInner)

/-- Perform the effects of a call; nothing goes deeper than this (`applyEffects_rests`). -/
def applied (effects : List Effect) : Pump Unit := applyEffects inner 4 effects

/-- Feed one event to the state machine, and perform whatever it asks for. -/
def drive (event : Event) : Pump (Except CoreError Unit) := do
  let time ← now
  match ← consult (.handle event time) with
  | .error e => return .error e
  | .ok effects => do
      applied inner effects
      if event.movesMembership then refreshRoster inner
      persist inner
      return .ok ()

/-- Whether the answer to a message is within the budget of whoever asks. -/
def mayAnswer (msg : ControlMsg) : Pump Bool := do
  match msg.answerCooldownKey with
  | none => return true
  | some key => do
      let at_ ← instant
      let h ← get
      let (allowed, cooldown) := h.repairAnswerCooldown.claim key at_
      set { h with repairAnswerCooldown := cooldown }
      return allowed

/-- Take in a message of the control plane. -/
def handleControlMsg (msg : ControlMsg) : Pump Unit := do
  if ← mayAnswer msg then
    let time ← now
    let outcome ← consult (.onControl msg time)
    let effects ← reportRejection outcome
    applied inner effects

/-- A method that makes a call of its own, and performs what it asks for. -/
def method (call : Call) : Pump (Except CoreError Unit) := do
  match ← consult call with
  | .error e => return .error e
  | .ok effects => do
      applied inner effects
      persist inner
      return .ok ()

end Pump

/-! ## Runs -/

/-- What happens to a workspace. -/
inductive HubEvent where
  | drive (event : Event)
  | control (msg : ControlMsg)
  | method (call : Call)
  | republish
  | persist
  /-- The surroundings change: the replicas, the blobs, the clock, what calls will become of. -/
  | drift
  /-- The process is started anew, and opens the workspace. -/
  | reopen

/-- What the facade does. -/
def HubEvent.run (inner : HubInner) : HubEvent → Pump Unit
  | .drive event => do
      let _ ← Pump.drive inner event
      return ()
  | .control msg => Pump.handleControlMsg inner msg
  | .method call => do
      let _ ← Pump.method inner call
      return ()
  | .republish => Pump.republish inner (Pump.applied inner)
  | .persist => Pump.persist inner
  | .drift => return ()
  | .reopen => return ()

/-- `Workspace::open`: the snapshot in the store becomes the state, and the replica it was
written with the one in use. -/
structure Reopened (h h' : Hub) : Prop where
  resumed : ∃ snapshot, h.saved = some (snapshot, h'.inUse) ∧
    WorkspaceState.fromSnapshot snapshot = .ok h'.core.1
  held : (h'.replicas h'.inUse).isSome
  saved : h'.saved = h.saved
  reports : h.reports <+: h'.reports

/-- One step: the process is there or it is gone. -/
inductive HubStep (inner : HubInner) : Hub × Bool → HubEvent → Hub × Bool → Prop where
  | returns {event : HubEvent} {h h' : Hub} (hrun : event.run inner h = .ok () h') :
      HubStep inner (h, true) event (h', true)
  | cut {event : HubEvent} {h h' : Hub} (hrun : event.run inner h = .error .cut h') :
      HubStep inner (h, true) event (h', false)
  | drifts {h h' : Hub} (hbeside : Pump.Beside h h') : HubStep inner (h, true) .drift (h', true)
  | reopens {h h' : Hub} {alive : Bool} (hopened : Reopened h h') :
      HubStep inner (h, alive) .reopen (h', true)

/-! ## Which replica a capability stands for -/

/-- The reports of an adoption that failed. -/
def Report.losesReplica : Report → Bool
  | .capabilityUnreadable | .notImported => true
  | _ => false

/-- No adoption was reported to fail. -/
def Hub.Undisturbed (h : Hub) : Prop := ∀ r ∈ h.reports, r.losesReplica = false

/-- The replica a capability stands for; without one, it is the one a node began with. -/
def StandsFor (founding : Bytes32) (ticket : Bytes) (id : Bytes32) : Prop :=
  ticket = [] ∧ id = founding ∨
    ∃ capability, Surroundings.decodeCapability ticket = .ok capability ∧
      (id = Surroundings.ticketId capability.write ∨ id = Surroundings.ticketId capability.read)

/-- Whatever state is read back from the store, its replica is the one beside it. -/
def Hub.Stored (founding : Bytes32) (h : Hub) : Prop :=
  h.Undisturbed → ∀ snapshot id s, h.saved = some (snapshot, id) →
    WorkspaceState.fromSnapshot snapshot = .ok s → StandsFor founding s.namespaceTicket id

/-- The replica in use is the one that the capability on record stands for. -/
def Hub.Follows (founding : Bytes32) (h : Hub) : Prop :=
  h.Undisturbed → StandsFor founding h.core.1.namespaceTicket h.inUse

variable {founding : Bytes32} {h h' : Hub}

theorem Hub.Undisturbed.of_prefix (hquiet : h'.Undisturbed) (hmore : h.reports <+: h'.reports) :
    h.Undisturbed := fun r hr => hquiet r (hmore.subset hr)

namespace Pump

theorem Beside.follows (hbeside : Beside h h') (hfollows : h.Follows founding) :
    h'.Follows founding := by
  intro hquiet
  rw [hbeside.core, hbeside.inUse]
  exact hfollows (hquiet.of_prefix hbeside.reports)

theorem Beside.stored (hbeside : Beside h h') (hstored : h.Stored founding) :
    h'.Stored founding := by
  intro hquiet snapshot id s hsaved
  rw [hbeside.saved] at hsaved
  exact hstored (hquiet.of_prefix hbeside.reports) snapshot id s hsaved

/-- The program ends with the replica in use that goes with the state; if it is cut off, with
the one in the store that goes with the state there. -/
def InStep {α : Type} (founding : Bytes32) (x : Pump α) (h : Hub) : Prop :=
  Wp x (fun _ h' => h'.Follows founding ∧ h'.Stored founding)
    (fun halt h' => halt = .cut → h'.Stored founding) h

section InStep

variable {α β : Type} {x : Pump α} {f : α → Pump β}

theorem Calm.inStep (hx : Calm x) (hfollows : h.Follows founding) (hstored : h.Stored founding) :
    InStep founding x h :=
  (hx h).mono (fun _ _ hbeside => ⟨hbeside.follows hfollows, hbeside.stored hstored⟩)
    fun _ _ hcut _ => hcut.2.stored hstored

theorem InStep.seq (hx : InStep founding x h)
    (hf : ∀ a h₁, h₁.Follows founding → h₁.Stored founding → InStep founding (f a) h₁) :
    InStep founding (x >>= f) h :=
  Wp.seq hx (fun a h₁ hboth => hf a h₁ hboth.1 hboth.2) fun _ _ => id

/-- A program that leaves the workspace alone, before one that needs the store only. -/
theorem InStep.after (hx : Calm x) (hstored : h.Stored founding)
    (hf : ∀ a h₁, Beside h h₁ → InStep founding (f a) h₁) : InStep founding (x >>= f) h :=
  (hx h).seq hf fun _ _ hcut _ => hcut.2.stored hstored

end InStep

/-! ## What a call leaves to be done -/

/-- The effects either leave the replica as it is, or end with the move to the replica of the
capability on record. -/
def Owes (founding : Bytes32) (effects : List Effect) (h : Hub) : Prop :=
  (∀ epoch ticket, .adoptNamespace epoch ticket ∉ effects) ∧ h.Follows founding ∨
    ∃ before epoch, effects = before ++ [.adoptNamespace epoch h.core.1.namespaceTicket] ∧
      ∀ effect ∈ before, effect.nesting = 0

theorem Owes.nil (h : Hub) (hfollows : h.Follows founding) : Owes founding [] h :=
  Or.inl ⟨by simp, hfollows⟩

theorem nesting_broadcasts (ops : List ControlOp) :
    ∀ effect ∈ ops.map Effect.broadcast, effect.nesting = 0 := by
  intro effect hmem
  obtain ⟨op, -, rfl⟩ := List.mem_map.mp hmem
  rfl

theorem not_adopt_broadcasts {ops : List ControlOp} {epoch : U32} {ticket : Bytes} :
    (.adoptNamespace epoch ticket : Effect) ∉ ops.map Effect.broadcast := fun hmem =>
  absurd (nesting_broadcasts ops _ hmem) (by simp [Effect.nesting])

variable [LawfulBeekem]

/-- What a call of the state machine leaves to be done; a call that fails leaves nothing. -/
theorem call_owes (call : Call) (hfollows : h.Follows founding) :
    Wp call.run (fun effects core => Owes founding effects { h with core })
      (fun _ core => ({ h with core } : Hub).Follows founding) h.core := by
  have hsame : ∀ core : WorkspaceState × Rng,
      core.1.namespaceTicket = h.core.1.namespaceTicket →
        ({ h with core } : Hub).Follows founding := by
    intro core hticket hquiet
    show StandsFor founding core.1.namespaceTicket h.inUse
    rw [hticket]
    exact hfollows hquiet
  by_cases hcall : call.aboutNamespace = true
  · refine (call.announced hcall h.core.1 h.core.2).mono (fun effects core hannounced => ?_)
      fun _ core hrefused => ?_
    · cases hannounced with
      | still hrekeyed hsilent hpassed =>
          refine Or.inl ⟨fun epoch ticket hmem => ?_, hsame core hrekeyed.namespaceTicket⟩
          exact absurd (hsilent.quiet _ hmem) (by simp [Effect.aboutNamespace])
      | again ops chunk hcall hrekeyed hticket hchunk =>
          refine Or.inl ⟨fun epoch ticket hmem => ?_, hsame core hrekeyed.namespaceTicket⟩
          rcases List.mem_append.mp hmem with hop | hlast
          · exact not_adopt_broadcasts hop
          · exact absurd (List.mem_singleton.mp hlast) (by simp)
      | minted epoch ticket ops chunk htold hmints hcurrent hcgka hepoch hticket hchunk =>
          refine Or.inr ⟨ops.map Effect.broadcast ++ [.publishNamespace epoch chunk], epoch, ?_, ?_⟩
          · rw [hticket, List.append_assoc]
            rfl
          · intro effect hmem
            rcases List.mem_append.mp hmem with hop | hlast
            · exact nesting_broadcasts ops effect hop
            · rw [List.mem_singleton.mp hlast]
              rfl
      | adopted epoch ticket htold hmints hnewer hcgka hepoch hticket =>
          refine Or.inr ⟨[], epoch, ?_, by simp⟩
          rw [hticket]
          rfl
    · obtain ⟨ops, hrekeyed, -⟩ := hrefused
      exact hsame core hrekeyed.namespaceTicket
  · refine (call.advances (by simpa using hcall) h.core.1 h.core.2).mono
      (fun effects core hmoved => ?_) fun _ core hfailed => hsame core hfailed.namespaceTicket
    refine Or.inl ⟨fun epoch ticket hmem => ?_, hsame core hmoved.2.ticket⟩
    obtain ⟨_, heq⟩ := hmoved.2.rotates _ hmem rfl
    exact absurd heq (by simp)

/-! ## The pump -/

/-- The pump performs whatever a call leaves to be done. -/
def Obliges (founding : Bytes32) (again : List Effect → Pump Unit) : Prop :=
  ∀ effects (h : Hub), Owes founding effects h → h.Stored founding →
    InStep founding (again effects) h

variable {again : List Effect → Pump Unit} {inner : HubInner}

theorem consultOrNothing_inStep {call : Call} {f : List Effect → Pump Unit}
    (hf : ∀ effects (h₁ : Hub), Owes founding effects h₁ → h₁.Stored founding →
      InStep founding (f effects) h₁)
    (hfollows : h.Follows founding) (hstored : h.Stored founding) :
    InStep founding (consultOrNothing call >>= f) h := by
  unfold InStep
  rw [wp_bind, wp_consultOrNothing]
  exact (call_owes call hfollows).mono (fun effects core howes => hf effects _ howes hstored)
    fun _ core hsame => hf [] _ (.nil _ hsame) hstored

theorem offerAll_inStep (hagain : Obliges founding again) (events : List Event)
    (hfollows : h.Follows founding) (hstored : h.Stored founding) :
    InStep founding (offerAll again events) h := by
  induction events generalizing h with
  | nil => exact ⟨hfollows, hstored⟩
  | cons event rest ih =>
      refine (calm_now.inStep hfollows hstored).seq fun time h₁ hfollows₁ hstored₁ => ?_
      refine consultOrNothing_inStep (fun effects h₂ howes hstored₂ => ?_) hfollows₁ hstored₁
      exact (hagain effects h₂ howes hstored₂).seq fun _ h₃ hfollows₃ hstored₃ =>
        ih hfollows₃ hstored₃

/-- What is written to the store is the state at hand with the replica in use. -/
theorem persist_inStep (hfollows : h.Follows founding) (hstored : h.Stored founding) :
    InStep founding (persist inner) h := by
  unfold persist
  split
  · unfold InStep
    rw [wp_bind, wp_get]
    cases hsnapshot : h.core.1.snapshot inner.hashOrder with
    | error e => exact (calm_report _).inStep hfollows hstored
    | ok snapshot =>
        have hwritten : ∀ rest, ({ h with
            outcomes := rest, saved := some (snapshot, h.inUse) } : Hub).Stored founding := by
          intro rest hquiet more id s hsaved hread
          obtain ⟨rfl, rfl⟩ := Prod.mk.inj (Option.some.inj hsaved)
          have hticket := (WorkspaceState.fromSnapshot_ok hsnapshot hread).namespaceTicket
          rw [hticket]
          exact hfollows hquiet
        refine InStep.seq (wp_outside (fun rest => ⟨hfollows, hwritten rest⟩)
          (fun _ _ => ⟨hfollows, hstored⟩) (fun _ _ => hstored) fun rest _ => hwritten rest) ?_
        exact fun written h₁ hfollows₁ hstored₁ =>
          (calm_reporting _ _).inStep hfollows₁ hstored₁
  · exact ⟨hfollows, hstored⟩

theorem republish_inStep (hagain : Obliges founding again) (hfollows : h.Follows founding)
    (hstored : h.Stored founding) : InStep founding (republish inner again) h := by
  refine (Calm.get.inStep hfollows hstored).seq fun hub h₁ hfollows₁ hstored₁ => ?_
  refine (offerAll_inStep hagain _ hfollows₁ hstored₁).seq fun _ h₂ hfollows₂ hstored₂ => ?_
  exact (offerAll_inStep hagain _ hfollows₂ hstored₂).seq fun _ h₃ hfollows₃ hstored₃ =>
    persist_inStep hfollows₃ hstored₃

/-- A replica was moved to, or the adoption was reported to fail. -/
theorem adoptNamespace_inStep (hagain : Obliges founding again) {ticket : Bytes}
    (hticket : h.core.1.namespaceTicket = ticket) (roleMayWrite : Bool)
    (hstored : h.Stored founding) :
    InStep founding (adoptNamespace inner again ticket roleMayWrite) h := by
  have hlost : ∀ (h₁ : Hub) (r : Report), r.losesReplica = true → InStep founding (report r) h₁ := by
    intro h₁ r hr
    have hdisturbed : ¬ ({ h₁ with reports := h₁.reports ++ [r] } : Hub).Undisturbed := fun hquiet =>
      absurd (hr.symm.trans (hquiet r (by simp))) (by simp)
    exact ⟨fun hquiet => absurd hquiet hdisturbed, fun hquiet => absurd hquiet hdisturbed⟩
  unfold adoptNamespace
  cases hdecode : Surroundings.decodeCapability ticket with
  | error e => exact hlost h _ rfl
  | ok capability =>
      generalize hchosen : (if roleMayWrite then capability.write else capability.read) = chosen
      have hstands : StandsFor founding ticket (Surroundings.ticketId chosen) := by
        refine Or.inr ⟨capability, hdecode, ?_⟩
        cases roleMayWrite
        · exact Or.inr (congrArg _ hchosen.symm)
        · exact Or.inl (congrArg _ hchosen.symm)
      dsimp only
      rw [hchosen]
      refine .after (calm_openOrImport _) hstored fun opened h₁ hbeside₁ => ?_
      cases opened with
      | error e => exact hlost h₁ _ rfl
      | ok u =>
          have hstored₁ := hbeside₁.stored hstored
          unfold InStep
          rw [wp_bind, wp_get, wp_bind, wp_modify]
          have hfollows₁ : ({ h₁ with
              inUse := Surroundings.ticketId chosen } : Hub).Follows founding := by
            intro _
            show StandsFor founding h₁.core.1.namespaceTicket _
            rw [hbeside₁.core, hticket]
            exact hstands
          refine ((calm_carryAssets inner h₁.inUse).inStep hfollows₁ hstored₁).seq
            fun _ h₂ hfollows₂ hstored₂ => ?_
          have hleft : Calm (outside fun h : Hub => (.ok (), h)) := calm_outside fun h => .refl h
          refine (hleft.inStep hfollows₂ hstored₂).seq fun left h₃ hfollows₃ hstored₃ => ?_
          refine ((calm_reporting _ left).inStep hfollows₃ hstored₃).seq
            fun _ h₄ hfollows₄ hstored₄ => ?_
          refine InStep.seq (x := modify fun h : Hub => { h with seen := [] })
            ⟨hfollows₄, hstored₄⟩ fun _ h₅ hfollows₅ hstored₅ => ?_
          refine (calm_spawnDataLoop.inStep hfollows₅ hstored₅).seq
            fun subscribed h₆ hfollows₆ hstored₆ => ?_
          refine ((calm_reporting _ subscribed).inStep hfollows₆ hstored₆).seq
            fun _ h₇ hfollows₇ hstored₇ => ?_
          exact (calm_refreshDownloadPolicy.inStep hfollows₇ hstored₇).seq
            fun _ h₈ hfollows₈ hstored₈ => republish_inStep hagain hfollows₈ hstored₈

theorem mintNamespace_inStep (hagain : Obliges founding again) (epoch : U32)
    (hfollows : h.Follows founding) (hstored : h.Stored founding) :
    InStep founding (mintNamespace again epoch) h := by
  have hcreate : Calm (outside fun h : Hub =>
      (.ok (Surroundings.create h.net).1.1, { h with
        replicas := Function.update h.replicas (Surroundings.create h.net).1.1
          (some (Surroundings.create h.net).1.2)
        net := (Surroundings.create h.net).2 })) :=
    calm_outside fun _ => ⟨rfl, rfl, rfl, List.prefix_refl _⟩
  refine (hcreate.inStep hfollows hstored).seq fun fresh h₁ hfollows₁ hstored₁ => ?_
  cases fresh with
  | error e => exact (calm_report _).inStep hfollows₁ hstored₁
  | ok id =>
      have hshare (mode : ShareMode) : Calm (outside fun h : Hub =>
          (.ok (Surroundings.share id mode h.net).1,
            { h with net := (Surroundings.share id mode h.net).2 })) :=
        calm_outside fun _ => ⟨rfl, rfl, rfl, List.prefix_refl _⟩
      refine ((hshare .write).inStep hfollows₁ hstored₁).seq fun write h₂ hfollows₂ hstored₂ => ?_
      refine ((hshare .read).inStep hfollows₂ hstored₂).seq fun read h₃ hfollows₃ hstored₃ => ?_
      cases write with
      | error e => exact (calm_report _).inStep hfollows₃ hstored₃
      | ok write =>
          cases read with
          | error e => exact (calm_report _).inStep hfollows₃ hstored₃
          | ok read =>
              dsimp only
              cases Surroundings.encodeCapability ⟨write, read⟩ with
              | error e => exact (calm_report _).inStep hfollows₃ hstored₃
              | ok ticket =>
                  refine (calm_now.inStep hfollows₃ hstored₃).seq
                    fun time h₄ hfollows₄ hstored₄ => ?_
                  refine consultOrNothing_inStep (fun effects h₅ howes hstored₅ => ?_)
                    hfollows₄ hstored₄
                  split
                  · rename_i hnone
                    rw [List.isEmpty_iff] at hnone
                    subst hnone
                    rcases howes with ⟨-, hfollows₅⟩ | ⟨before, epoch, heq, -⟩
                    · exact ⟨hfollows₅, hstored₅⟩
                    · exact absurd heq (by simp)
                  · exact hagain effects h₅ howes hstored₅

theorem evictUncertified_inStep (hagain : Obliges founding again) (member : Bytes32)
    (hfollows : h.Follows founding) (hstored : h.Stored founding) :
    InStep founding (evictUncertified again member) h := by
  refine (calm_instant.inStep hfollows hstored).seq fun at_ h₁ hfollows₁ hstored₁ => ?_
  unfold InStep
  rw [wp_bind, wp_get]
  dsimp only
  rw [wp_bind, wp_set]
  split
  · refine ((calm_report _).inStep (h := { h₁ with
      evictionCooldown := (h₁.evictionCooldown.claim member at_).2 }) hfollows₁ hstored₁).seq
        fun _ h₂ hfollows₂ hstored₂ => ?_
    refine (calm_now.inStep hfollows₂ hstored₂).seq fun time h₃ hfollows₃ hstored₃ => ?_
    exact consultOrNothing_inStep hagain hfollows₃ hstored₃
  · exact ⟨hfollows₁, hstored₁⟩

theorem reportRejection_inStep {call : Call} {f : List Effect → Pump Unit}
    (hf : ∀ effects (h₁ : Hub), Owes founding effects h₁ → h₁.Stored founding →
      InStep founding (f effects) h₁)
    (hfollows : h.Follows founding) (hstored : h.Stored founding) :
    InStep founding (do
      let outcome ← consult call
      let effects ← reportRejection outcome
      f effects) h := by
  unfold InStep
  rw [wp_bind, wp_consult]
  refine (call_owes call hfollows).mono (fun effects core howes => hf effects _ howes hstored)
    fun e core hsame => ?_
  have hreported := (calm_report .operationRejected).inStep hsame hstored
  rw [wp_bind]
  exact hf [] _ (.nil _ hreported.1) hreported.2

theorem answerAssetKeyRepair_inStep (hagain : Obliges founding again) (requester : Bytes32)
    (asset : DocumentUuid) (hfollows : h.Follows founding) (hstored : h.Stored founding) :
    InStep founding (answerAssetKeyRepair inner again requester asset) h := by
  refine ((calm_fetchIndexedBytes inner _).inStep hfollows hstored).seq
    fun bytes h₁ hfollows₁ hstored₁ => ?_
  cases bytes with
  | none => exact ⟨hfollows₁, hstored₁⟩
  | some bytes =>
      dsimp only
      cases decodeChunk bytes with
      | none => exact (calm_report _).inStep hfollows₁ hstored₁
      | some chunk => exact reportRejection_inStep hagain hfollows₁ hstored₁

/-- An effect that brings nothing about leaves the workspace alone. -/
theorem calm_perform {effect : Effect} (hnesting : effect.nesting = 0) :
    Calm (perform inner again effect) := by
  cases effect with
  | broadcastOp op proof => exact .bind (calm_broadcast _) fun _ => calm_reporting _ _
  | broadcastCerts certs => exact .bind (calm_broadcast _) fun _ => calm_reporting _ _
  | storeChunk key doc chunk => exact .bind (calm_storeChunk _ _ _) fun _ => calm_reporting _ _
  | storeManifest key chunk => exact .bind (calm_storeChunk _ _ _) fun _ => calm_reporting _ _
  | deleteEntry key doc => exact calm_withdraw _ _ _
  | deleteAssetSegments range asset => exact calm_withdraw _ _ _
  | applied doc => exact .pure ()
  | manifestUpdated => exact .bind (calm_refreshRoster _) fun _ => calm_refreshDownloadPolicy
  | publishNamespace epoch chunk => exact .bind (calm_broadcast _) fun _ => calm_reporting _ _
  | requestRepair target epoch => exact calm_requestRepair _ _
  | evictUncertified member => exact absurd hnesting (by simp [Effect.nesting])
  | rotateNamespace epoch => exact absurd hnesting (by simp [Effect.nesting])
  | adoptNamespace epoch ticket => exact absurd hnesting (by simp [Effect.nesting])
  | resealAssetKey requester asset => exact absurd hnesting (by simp [Effect.nesting])

theorem perform_inStep (hagain : Obliges founding again) {effect : Effect}
    (hstay : ∀ epoch ticket, effect ≠ .adoptNamespace epoch ticket)
    (hfollows : h.Follows founding) (hstored : h.Stored founding) :
    InStep founding (perform inner again effect) h := by
  cases effect with
  | evictUncertified member => exact evictUncertified_inStep hagain member hfollows hstored
  | rotateNamespace epoch => exact mintNamespace_inStep hagain epoch hfollows hstored
  | resealAssetKey requester asset =>
      exact answerAssetKeyRepair_inStep hagain requester asset hfollows hstored
  | adoptNamespace epoch ticket => exact absurd rfl (hstay epoch ticket)
  | _ => exact (calm_perform rfl).inStep hfollows hstored

theorem performAll_inStep (hagain : Obliges founding again) {effects : List Effect}
    (howes : Owes founding effects h) (hstored : h.Stored founding) :
    InStep founding (performAll inner again effects) h := by
  rcases howes with ⟨hstay, hfollows⟩ | ⟨before, epoch, rfl, hbefore⟩
  · induction effects generalizing h with
    | nil => exact ⟨hfollows, hstored⟩
    | cons effect rest ih =>
        refine (perform_inStep hagain (fun epoch ticket heq => hstay epoch ticket
          (heq ▸ List.mem_cons_self)) hfollows hstored).seq fun _ h₁ hfollows₁ hstored₁ => ?_
        exact ih hstored₁ (fun epoch ticket hmem =>
          hstay epoch ticket (List.mem_cons_of_mem _ hmem)) hfollows₁
  · induction before generalizing h with
    | nil =>
        -- The move itself: nothing comes after it.
        refine InStep.seq (.after (.bind .get fun _ => .pure _) hstored fun mayWrite h₁ hbeside₁ =>
          adoptNamespace_inStep hagain ?_ mayWrite (hbeside₁.stored hstored))
          fun _ h₂ hfollows₂ hstored₂ => ⟨hfollows₂, hstored₂⟩
        rw [hbeside₁.core]
    | cons effect rest ih =>
        refine .after (calm_perform (hbefore effect List.mem_cons_self)) hstored
          fun _ h₁ hbeside₁ => ?_
        have hrest := ih (h := h₁) (hbeside₁.stored hstored) fun effect' hmem =>
          hbefore effect' (List.mem_cons_of_mem _ hmem)
        rw [hbeside₁.core] at hrest
        exact hrest

/-- At every depth the pump leaves the replica in use in step with the state. -/
theorem applyEffects_obliges (depth : Nat) : Obliges founding (applyEffects inner depth) := by
  induction depth with
  | zero => exact fun effects h howes hstored hcut => absurd hcut (by simp)
  | succ depth ih => exact fun effects h howes hstored => performAll_inStep ih howes hstored

/-! ## Whole runs -/

theorem applied_obliges : Obliges founding (applied inner) := applyEffects_obliges 4

/-- A call, and the program for what it returned. -/
theorem consult_inStep {β : Type} {call : Call}
    {f : Except CoreError (List Effect) → Pump β}
    (hok : ∀ effects (h₁ : Hub), Owes founding effects h₁ → h₁.Stored founding →
      InStep founding (f (.ok effects)) h₁)
    (herror : ∀ e (h₁ : Hub), h₁.Follows founding → h₁.Stored founding →
      InStep founding (f (.error e)) h₁)
    (hfollows : h.Follows founding) (hstored : h.Stored founding) :
    InStep founding (consult call >>= f) h := by
  unfold InStep
  rw [wp_bind, wp_consult]
  exact (call_owes call hfollows).mono (fun effects core howes => hok effects _ howes hstored)
    fun e core hsame => herror e _ hsame hstored

theorem drive_inStep (event : Event) (hfollows : h.Follows founding)
    (hstored : h.Stored founding) : InStep founding (drive inner event) h := by
  refine (calm_now.inStep hfollows hstored).seq fun time h₁ hfollows₁ hstored₁ => ?_
  refine consult_inStep (fun effects h₂ howes hstored₂ => ?_)
    (fun e h₂ hfollows₂ hstored₂ => ⟨hfollows₂, hstored₂⟩) hfollows₁ hstored₁
  refine (applied_obliges effects h₂ howes hstored₂).seq fun _ h₃ hfollows₃ hstored₃ => ?_
  have hpersist : ∀ h₄ : Hub, h₄.Follows founding → h₄.Stored founding → InStep founding (do
      persist inner
      return (.ok () : Except CoreError Unit)) h₄ := fun h₄ hfollows₄ hstored₄ =>
    (persist_inStep hfollows₄ hstored₄).seq fun _ h₅ hfollows₅ hstored₅ => ⟨hfollows₅, hstored₅⟩
  dsimp only
  split
  · exact ((calm_refreshRoster inner).inStep hfollows₃ hstored₃).seq fun _ => hpersist
  · exact hpersist h₃ hfollows₃ hstored₃

theorem method_inStep (call : Call) (hfollows : h.Follows founding) (hstored : h.Stored founding) :
    InStep founding (method inner call) h := by
  refine consult_inStep (fun effects h₁ howes hstored₁ => ?_)
    (fun e h₁ hfollows₁ hstored₁ => ⟨hfollows₁, hstored₁⟩) hfollows hstored
  refine (applied_obliges effects h₁ howes hstored₁).seq fun _ h₂ hfollows₂ hstored₂ => ?_
  exact (persist_inStep hfollows₂ hstored₂).seq
    fun _ h₃ hfollows₃ hstored₃ => ⟨hfollows₃, hstored₃⟩

theorem calm_mayAnswer (msg : ControlMsg) : Calm (mayAnswer msg) := by
  unfold mayAnswer
  split
  · exact .pure true
  · refine .bind calm_instant fun at_ h => ?_
    rw [wp_bind, wp_get]
    exact ⟨rfl, rfl, rfl, List.prefix_refl _⟩

theorem handleControlMsg_inStep (msg : ControlMsg) (hfollows : h.Follows founding)
    (hstored : h.Stored founding) : InStep founding (handleControlMsg inner msg) h := by
  refine ((calm_mayAnswer msg).inStep hfollows hstored).seq fun allowed h₁ hfollows₁ hstored₁ => ?_
  split
  · refine (calm_now.inStep hfollows₁ hstored₁).seq fun time h₂ hfollows₂ hstored₂ => ?_
    exact reportRejection_inStep applied_obliges hfollows₂ hstored₂
  · exact ⟨hfollows₁, hstored₁⟩

end Pump

open Pump

variable [LawfulBeekem]

theorem HubEvent.run_inStep {inner : HubInner} (event : HubEvent) (hfollows : h.Follows founding)
    (hstored : h.Stored founding) : InStep founding (event.run inner) h := by
  cases event with
  | drive event =>
      exact (drive_inStep event hfollows hstored).seq fun _ _ hfollows₁ hstored₁ =>
        ⟨hfollows₁, hstored₁⟩
  | control msg => exact handleControlMsg_inStep msg hfollows hstored
  | method call =>
      exact (method_inStep call hfollows hstored).seq fun _ _ hfollows₁ hstored₁ =>
        ⟨hfollows₁, hstored₁⟩
  | republish => exact republish_inStep applied_obliges hfollows hstored
  | persist => exact persist_inStep hfollows hstored
  | drift => exact ⟨hfollows, hstored⟩
  | reopen => exact ⟨hfollows, hstored⟩

/-- What a run keeps: the state and the replica in use go together while the process is
there, and in the store they always do. -/
def InStepAt (founding : Bytes32) (p : Hub × Bool) : Prop :=
  (p.2 = true → p.1.Follows founding) ∧ p.1.Stored founding

theorem HubStep.inStep {inner : HubInner} {p p' : Hub × Bool} {event : HubEvent}
    (hstep : HubStep inner p event p') (hp : InStepAt founding p) : InStepAt founding p' := by
  cases hstep with
  | returns hrun =>
      have hends := (HubEvent.run_inStep event (hp.1 rfl) hp.2).of_ok hrun
      exact ⟨fun _ => hends.1, hends.2⟩
  | cut hrun =>
      have hends := (HubEvent.run_inStep event (hp.1 rfl) hp.2).of_error hrun
      exact ⟨fun halive => absurd halive (by simp), hends rfl⟩
  | drifts hbeside => exact ⟨fun _ => hbeside.follows (hp.1 rfl), hbeside.stored hp.2⟩
  | reopens hopened =>
      obtain ⟨snapshot, hsaved, hread⟩ := hopened.resumed
      refine ⟨fun _ hquiet => ?_, fun hquiet more id s hmore => ?_⟩
      · exact hp.2 (hquiet.of_prefix hopened.reports) snapshot _ _ hsaved hread
      · rw [hopened.saved] at hmore
        exact hp.2 (hquiet.of_prefix hopened.reports) more id s hmore

/-- Nothing is recorded of a capability before there has been a rotation. -/
theorem namespaceTicket_of_start {s : WorkspaceState} (h : Founded s ∨ Joined s) :
    s.namespaceTicket = [] := by
  obtain ⟨c, secret, epoch, hticket⟩ := part_of_start WorkspaceState.namespaceTicket
    (fun _ _ => rfl) (fun _ _ => rfl) h
  exact hticket

end IrohBeekem

namespace IrohBeekem

open Library WorkspaceState

section Samples

local instance followKeyhive : Keyhive := transparentKeyhive

local instance followBeekem : Beekem := listBeekem

local instance followLawful : LawfulBeekem := listBeekem_live.toLawfulBeekem

local instance followLoro : Loro := listLoro

local instance followPostcard : Postcard := blankPostcard

local instance followStores : Stores := listStores

local instance followTickets : DocTickets := ⟨Bytes32⟩

/-- Surroundings that number the replicas, and whose tickets are their names. -/
@[reducible] def countingSurroundings : Surroundings where
  Net := Nat
  now net := (0, net)
  instant net := (⟨net⟩, net)
  create net := ((Fin.ofNat _ net, []), net + 1)
  share id _ net := (id, net)
  ticketId id := id
  fetched _ net := ([], net)
  download _ _ net := (none, net)
  encodeCapability capability := .ok (Bytes32.toBytes capability.write)
  decodeCapability bytes := .ok ⟨Fin.ofNat _ (ofBeBytes bytes), Fin.ofNat _ (ofBeBytes bytes)⟩
  encodes _ := true

local instance followSurroundings : Surroundings := countingSurroundings

local instance followWire : ChunkWire := ⟨fun _ => none⟩

def followInner : HubInner := ⟨5, 9, 1, 6, true, ascendingOrder⟩

/-- A workspace that has just been created, with a replica of its own. -/
def begunHub : Hub where
  core := (sampleWorkspace 1, (0 : Nat))
  inUse := 7
  replicas := Function.update (fun _ => none) 7 (some [])
  blobs := []
  seen := []
  subscribed := 7
  policy _ := []
  roster := .empty
  repairCooldown := .new 0
  repairAnswerCooldown := .new 0
  evictionCooldown := .new 0
  sent := []
  reports := []
  saved := none
  net := (100 : Nat)
  outcomes := []

/-- It admits a viewer. -/
def admission : HubEvent := .drive (.addUser 2 102 .viewer "second" none)

@[irreducible] def admittedHub : Hub := after (admission.run followInner) begunHub

/-- It removes the viewer again, and so asks for another replica. -/
def eviction : HubEvent := .drive (.removeMember 2)

@[irreducible] def rotatedHub : Hub := after (eviction.run followInner) admittedHub

theorem rotated_run :
    Trace (HubStep followInner) (begunHub, true) [admission, eviction] (rotatedHub, true) := by
  have hadmitted : Library.succeeds (admission.run followInner) begunHub = true := by
    decide +kernel
  have hrotated : Library.succeeds (eviction.run followInner) admittedHub = true := by
    decide +kernel
  obtain ⟨_, hfirst⟩ := run_of_succeeds hadmitted
  obtain ⟨_, hsecond⟩ := run_of_succeeds hrotated
  have hadmission : HubStep followInner (begunHub, true) admission (admittedHub, true) := by
    unfold admittedHub
    exact .returns hfirst
  have heviction : HubStep followInner (admittedHub, true) eviction (rotatedHub, true) := by
    unfold rotatedHub
    exact .returns hsecond
  exact .cons hadmission (.cons heviction .nil)

/-- The replica in use is the one that was made. -/
example : rotatedHub.inUse = 100 := by decide +kernel

end Samples

end IrohBeekem
