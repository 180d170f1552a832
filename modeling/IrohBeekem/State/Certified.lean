import IrohBeekem.State.Shift

/-!
# What a call certifies

The certificates of a node grow in two ways: some arrive with what a call delivers, and
some the node signs itself.  `Call.certifies` says which ones a call may add, from the
call and the node's own key alone, and `Call.Outcome` is a store that it may then leave
behind.  Every call leaves such a store, whether or not it fails (`Call.outcome`).
-/

set_option linter.unusedSectionVars false

namespace IrohBeekem

open Library CgkaController WorkspaceState

variable [Keyhive] [Beekem] [Loro] [Postcard]

/-- The statements a node signs in a call. -/
def Call.signs : Call → Set Payload
  | .handle (.addUser member _ role _ _) _ =>
      { p | (∃ nonce, p = .binding (.new member member nonce)) ∨
        ∃ seq nonce, p = .grant (.new member role seq none nonce) }
  | .handle (.addDevice member _ user _ _) _ => { p | ∃ nonce, p = .binding (.new member user nonce) }
  | .handle (.setRole user role) _ => { p | ∃ seq nonce, p = .grant (.new user role seq none nonce) }
  | .handle (.propose action expires) _ =>
      { p | ∃ seq nonce, p = .proposal (.new action seq expires nonce) }
  | .handle (.approve proposal) _ => { p | ∃ nonce, p = .approval (.new proposal nonce) }
  | _ => ∅

/-- The certificates that arrive with a call. -/
def Call.arriving : Call → List Certificate
  | .handle (.controlOp op) _ => op.proof
  | .handle (.certsArrived certs) _ => certs
  | .onControl (.op _ proof) _ => proof
  | .onControl (.certs certs) _ => certs
  | .onControl (.log _ certs) _ => certs
  | _ => []

/-- The certificates a call may add, on the node with this key. -/
def Call.certifies (call : Call) (signer : Bytes32) : Set Certificate :=
  { x | x ∈ call.arriving ∨ ∃ p ∈ call.signs, ∃ signature, x = p.certificate signer signature }

/-- A store that a call may leave behind. -/
structure Call.Outcome (call : Call) (s : WorkspaceState) (certs : CapabilityStore) : Prop where
  founder : certs.founder = s.capabilities.founder
  kept : s.capabilities.certs ⊆ certs.certs
  gained : ∀ x ∈ certs.certs, x ∈ s.capabilities.certs ∨ x ∈ call.certifies s.cgka.signer

/-! ## Programs -/

/-- The node keeps its key and gains some of these certificates at most. -/
structure Gains (may : Set Certificate) (s s' : WorkspaceState) : Prop where
  signer : s'.cgka.signer = s.cgka.signer
  founder : s'.cgka.certs.founder = s.cgka.certs.founder
  kept : s.cgka.certs.certs ⊆ s'.cgka.certs.certs
  gained : ∀ x ∈ s'.cgka.certs.certs, x ∈ s.cgka.certs.certs ∨ x ∈ may

namespace Gains

variable {may : Set Certificate} {s s' s'' : WorkspaceState}

theorem of_same (hsigner : s'.cgka.signer = s.cgka.signer) (hcerts : s'.cgka.certs = s.cgka.certs) :
    Gains may s s' where
  signer := hsigner
  founder := by rw [hcerts]
  kept := by
    rw [hcerts]
    exact fun _ => id
  gained := by
    rw [hcerts]
    exact fun _ => Or.inl

theorem trans (h : Gains may s s') (h' : Gains may s' s'') : Gains may s s'' where
  signer := h'.signer.trans h.signer
  founder := h'.founder.trans h.founder
  kept := fun x hx => h'.kept x (h.kept x hx)
  gained := by
    intro x hx
    rcases h'.gained x hx with hx | hx
    · exact h.gained x hx
    · exact Or.inr hx

theorem of_rekeyed {ops : List ControlOp} (h : Rekeyed s s' ops) : Gains may s s' :=
  .of_same h.cgka.progress.evolves.signer h.cgka.certs

end Gains

namespace WorkspaceState

/-- Every outcome of the program, on a node with this key, gains some of these certificates
at most. -/
def Certifies {α : Type} (signer : Bytes32) (may : Set Certificate) (x : Run α) : Prop :=
  ∀ s rng, s.cgka.signer = signer →
    Wp x (fun _ p => Gains may s p.1) (fun _ p => Gains may s p.1) (s, rng)

section Programs

variable {α β : Type} {signer : Bytes32} {may : Set Certificate} {x : Run α} {f : α → Run β}

theorem Certifies.pure (a : α) : Certifies signer may (pure a : Run α) :=
  fun _ _ _ => .of_same rfl rfl

theorem Certifies.throw (e : CoreError) : Certifies signer may (throw e : Run α) :=
  fun _ _ _ => .of_same rfl rfl

theorem Certifies.bind (hx : Certifies signer may x) (hf : ∀ a, Certifies signer may (f a)) :
    Certifies signer may (x >>= f) := by
  intro s rng hsigner
  refine (hx s rng hsigner).seq ?_ fun _ _ => id
  intro a p h
  exact (hf a p.1 p.2 (h.signer.trans hsigner)).mono (fun _ _ h' => h.trans h')
    fun _ _ h' => h.trans h'

theorem Harmless.certifies (hx : Harmless x) : Certifies signer may x := fun s rng _ =>
  (hx s rng).mono (fun _ _ h => .of_rekeyed h) fun _ _ h => .of_rekeyed h

theorem Emits.certifies {out : α → List Effect} (hx : Emits out x) : Certifies signer may x := by
  intro s rng _
  refine (hx s rng).mono ?_ ?_
  · rintro a p ⟨ops, h, -⟩
    exact .of_rekeyed h
  · rintro e p ⟨ops, h, -⟩
    exact .of_rekeyed h

theorem certify_certifies {p : Payload}
    (hp : ∀ signature, p.certificate signer signature ∈ may) :
    Certifies signer may (onCgka (certify p)) := by
  intro s rng hsigner
  rw [wp_onCgka]
  refine (certify_run s.cgka p).mono ?_ ?_
  · rintro cert c ⟨hsign, isNew, certs, hinsert, rfl⟩
    obtain ⟨hfounder, hkept, -, hgained⟩ := CapabilityStore.insert_cases hinsert
    refine ⟨rfl, hfounder, hkept, fun x hx => (hgained x hx).imp_right ?_⟩
    rintro rfl
    unfold Payload.sign at hsign
    cases htry : Keyhive.trySign s.cgka.signer p with
    | ok signature =>
        rw [htry] at hsign
        rw [← Except.ok.inj hsign, hsigner]
        exact hp signature
    | error message =>
        rw [htry] at hsign
        exact absurd hsign (by simp)
  · rintro e c rfl
    exact .of_same rfl rfl

theorem certifyRole_certifies {user : Bytes32} {role : Role} {nonce : Bytes16}
    (hp : ∀ seq signature,
      (Payload.grant (.new user role seq none nonce)).certificate signer signature ∈ may) :
    Certifies signer may (onCgka (certifyRole user role nonce)) := by
  intro s rng hsigner
  have hspec := certify_certifies (hp (s.cgka.certs.nextSeq user)) s rng hsigner
  rw [wp_onCgka] at hspec ⊢
  unfold certifyRole
  rw [wp_bind, wp_get]
  exact hspec

theorem Certifies.update {h : WorkspaceState → WorkspaceState} (hcgka : ∀ s, (h s).cgka = s.cgka) :
    Certifies signer may (WorkspaceState.update h) := by
  intro s rng _
  exact .of_same (by rw [hcgka]) (by rw [hcgka])

variable [LawfulBeekem]

/-! ## Members -/

theorem addMember_certifies (member shareKey : Bytes32) :
    Certifies signer may (onCgka (addMember member shareKey)) := by
  intro s rng _
  rw [wp_onCgka]
  refine (addMember_spec s.cgka member shareKey).mono ?_ ?_
  · rintro op c ⟨hprogress, hcerts, -⟩
    exact .of_same hprogress.evolves.signer hcerts
  · rintro e c ⟨hprogress, hcerts, -⟩
    exact .of_same hprogress.evolves.signer hcerts

theorem admitLeaf_certifies (member shareKey : Bytes32) (certs : List Certificate)
    (record : EStateM CoreError Manifest Unit) :
    Certifies signer may (admitLeaf member shareKey certs record) := by
  refine (addMember_certifies member shareKey).bind fun op => ?_
  cases op with
  | some op =>
      exact (Harmless.onManifest record).certifies.bind fun _ =>
        (publishManifest_publishes .current).certifies.bind fun _ => .pure _
  | none => exact (publishManifest_publishes .current).certifies.bind fun _ => .pure _

theorem onAddUser_certifies {member : Bytes32} (shareKey : Bytes32) {role : Role}
    (displayName : String) (endpoint : Option Bytes32)
    (hbinding : ∀ nonce signature,
      (Payload.binding (.new member member nonce)).certificate signer signature ∈ may)
    (hgrant : ∀ seq nonce signature,
      (Payload.grant (.new member role seq none nonce)).certificate signer signature ∈ may) :
    Certifies signer may (onAddUser member shareKey role displayName endpoint) := by
  have hadmit : Certifies signer may (do
      let nonce ← randomNonce
      let binding ← onCgka (certifyDevice member member nonce)
      let nonce ← randomNonce
      let grant ← onCgka (certifyRole member role nonce)
      admitLeaf member shareKey [binding, grant] (userRecords member displayName endpoint)) :=
    randomNonce_harmless.certifies.bind fun nonce =>
      (certify_certifies (hbinding nonce)).bind fun _ =>
        randomNonce_harmless.certifies.bind fun nonce' =>
          (certifyRole_certifies fun seq => hgrant seq nonce').bind fun _ =>
            admitLeaf_certifies member shareKey _ _
  refine Harmless.self.certifies.bind fun s => ?_
  dsimp only
  split_ifs
  · exact (requireQuorum_harmless _).certifies.bind fun _ => hadmit
  · exact hadmit

/-! ## Roles and quorum -/

theorem onSetRole_certifies {user : Bytes32} {role : Role}
    (hgrant : ∀ seq nonce signature,
      (Payload.grant (.new user role seq none nonce)).certificate signer signature ∈ may) :
    Certifies signer may (onSetRole user role) := by
  have hmint : Certifies signer may (do
      let nonce ← randomNonce
      let cert ← onCgka (certifyRole user role nonce)
      return [Effect.broadcastCerts [cert]]) :=
    randomNonce_harmless.certifies.bind fun nonce =>
      (certifyRole_certifies fun seq => hgrant seq nonce).bind fun _ => .pure _
  have hguarded : Certifies signer may (do
      requireNotLastAdmin user
      let nonce ← randomNonce
      let cert ← onCgka (certifyRole user role nonce)
      return [Effect.broadcastCerts [cert]]) :=
    (requireNotLastAdmin_harmless user).certifies.bind fun _ => hmint
  refine Harmless.self.certifies.bind fun s => ?_
  dsimp only
  split_ifs
  · exact requireAdmin_harmless.certifies.bind fun _ => hmint
  · exact requireAdmin_harmless.certifies.bind fun _ => hguarded
  · exact (requireQuorum_harmless _).certifies.bind fun _ => .pure _
  · exact (requireQuorum_harmless _).certifies.bind fun _ => hmint
  · exact (requireQuorum_harmless _).certifies.bind fun _ => hguarded

theorem onPropose_certifies {action : AdminAction} {expires : Option U64}
    (hproposal : ∀ seq nonce signature,
      (Payload.proposal (.new action seq expires nonce)).certificate signer signature ∈ may) :
    Certifies signer may (onPropose action expires) :=
  requireAdmin_harmless.certifies.bind fun _ => Harmless.self.certifies.bind fun _ =>
    randomNonce_harmless.certifies.bind fun nonce =>
      (certify_certifies (hproposal _ nonce)).bind fun _ => .pure _

/-- A quorum pass leaves the certificates alone. -/
theorem runQuorumActions_certs (s : WorkspaceState) (rng : Rng) :
    Wp runQuorumActions (fun _ p => p.1.cgka.certs = s.cgka.certs)
      (fun _ p => p.1.cgka.certs = s.cgka.certs) (s, rng) := by
  have hpass : Wp runQuorumActions
      (fun _ p => Shift Set.univ Set.univ (quorumMandate s s.cgka.certs) s p.1 ∧
        p.1.cgka.certs = s.cgka.certs)
      (fun _ p => Shift Set.univ Set.univ (quorumMandate s s.cgka.certs) s p.1 ∧
        p.1.cgka.certs = s.cgka.certs) (s, rng) :=
    runQuorumActions_shift s rng fun _ _ => Set.mem_univ _
  exact hpass.mono (fun _ _ h => h.2) fun _ _ h => h.2

/-! ## The namespace -/

theorem encryptKeyed_certifies (plaintext : Bytes) (preds : List Bytes32) (keying : Keying) :
    Certifies signer may (encryptKeyed plaintext preds keying) := by
  intro s rng _
  refine (encryptKeyed_spec plaintext preds keying s rng).mono ?_ ?_
  · rintro r p ⟨hrekeyed, -⟩
    exact .of_rekeyed hrekeyed
  · rintro e p ⟨ops, hrekeyed, -⟩
    exact .of_rekeyed hrekeyed

theorem republishNamespace_certifies (keying : Keying) :
    Certifies signer may (republishNamespace keying) := by
  refine Harmless.self.certifies.bind fun s => ?_
  dsimp only
  split_ifs
  · exact .pure _
  · exact (encryptKeyed_certifies _ _ keying).bind fun _ =>
      Harmless.self.certifies.bind fun _ => .pure _

theorem onNamespaceMinted_certifies (epoch : U32) (ticket : Bytes) :
    Certifies signer may (onNamespaceMinted epoch ticket) := by
  refine Harmless.self.certifies.bind fun s => ?_
  dsimp only
  split_ifs
  · exact .pure _
  · exact (encryptKeyed_certifies ticket [] .fresh).bind fun _ =>
      Certifies.bind (.update fun _ => rfl) fun _ => .pure _

theorem onNamespaceArrived_certifies (epoch : U32) (chunk : Chunk OpHash) :
    Certifies signer may (onNamespaceArrived epoch chunk) := by
  refine (decrypt_harmless chunk).certifies.bind fun outcome => ?_
  cases outcome with
  | awaitingOp => exact .pure _
  | unreachable => exact .pure _
  | plaintext ticket =>
      refine Harmless.self.certifies.bind fun s => ?_
      split_ifs
      · exact .pure _
      · exact Certifies.bind (.update fun _ => rfl) fun _ => .pure _

theorem onRepairRequested_certifies (requester : Bytes32) :
    Certifies signer may (onRepairRequested requester .namespace_) := by
  refine Harmless.self.certifies.bind fun s => ?_
  split_ifs
  · refine (republishNamespace_certifies .fresh).bind fun effects => ?_
    split_ifs
    · exact Certifies.bind (.update fun _ => rfl) fun _ => .pure _
    · exact .pure _
  · exact .throw _

end Programs

end WorkspaceState

/-! ## Every call -/

section Calls

variable [LawfulBeekem] {call : Call} {s : WorkspaceState} {rng : Rng} {α : Type}

theorem Call.Outcome.of_same {certs : CapabilityStore} (h : certs = s.cgka.certs) :
    call.Outcome s certs := by
  subst h
  exact ⟨rfl, fun _ => id, fun _ => Or.inl⟩

theorem Call.Outcome.of_extend {certs : CapabilityStore}
    (h : certs = (s.cgka.certs.extend call.arriving).2) : call.Outcome s certs := by
  subst h
  refine ⟨CapabilityStore.extend_founder _ _, CapabilityStore.subset_extend _ _, fun x hx => ?_⟩
  exact (CapabilityStore.mem_extend hx).imp_right Or.inl

theorem WorkspaceState.Certifies.outcome {x : Run α}
    (h : Certifies s.cgka.signer (call.certifies s.cgka.signer) x) :
    Wp x (fun _ p => call.Outcome s p.1.cgka.certs) (fun _ p => call.Outcome s p.1.cgka.certs)
      (s, rng) :=
  (h s rng rfl).mono (fun _ _ hgains => ⟨hgains.founder, hgains.kept, hgains.gained⟩)
    fun _ _ hgains => ⟨hgains.founder, hgains.kept, hgains.gained⟩

theorem Call.signed_mem (call : Call) {p : Payload} (hp : p ∈ call.signs) (signer : Bytes32)
    (signature : Bytes64) : p.certificate signer signature ∈ call.certifies signer :=
  Or.inr ⟨p, hp, signature, rfl⟩

/-- An approval is signed, and the quorum pass after it leaves the certificates alone. -/
theorem onApprove_outcome (proposal : Bytes32) (now : UnixSeconds) (s : WorkspaceState)
    (rng : Rng) :
    Wp (onApprove proposal)
      (fun _ p => Call.Outcome (.handle (.approve proposal) now) s p.1.cgka.certs)
      (fun _ p => Call.Outcome (.handle (.approve proposal) now) s p.1.cgka.certs) (s, rng) := by
  have hcertify : Certifies s.cgka.signer
      (Call.certifies (.handle (.approve proposal) now) s.cgka.signer) (do
        requireAdmin
        let nonce ← randomNonce
        onCgka (certifyApproval proposal nonce)) :=
    requireAdmin_harmless.certifies.bind fun _ => randomNonce_harmless.certifies.bind fun nonce =>
      certify_certifies (Call.signed_mem (.handle (.approve proposal) now) ⟨nonce, rfl⟩ _)
  have hsplit : onApprove proposal = (do
      requireAdmin
      let nonce ← randomNonce
      onCgka (certifyApproval proposal nonce)) >>= fun cert => do
        let performed ← runQuorumActions
        return Effect.broadcastCerts [cert] :: performed := by
    unfold onApprove
    simp only [bind_assoc]
  rw [hsplit]
  refine (WorkspaceState.Certifies.outcome hcertify).seq ?_ fun _ _ => id
  intro cert p houtcome
  refine (runQuorumActions_certs p.1 p.2).seq ?_ ?_
  · intro performed q hsame
    rw [wp_pure, hsame]
    exact houtcome
  · intro e q hsame
    rw [hsame]
    exact houtcome

theorem onControlOp_outcome (a : AuthorizedOp) (hcall : call.arriving = a.proof)
    (s : WorkspaceState) (rng : Rng) :
    Wp (onControlOp a) (fun _ p => call.Outcome s p.1.cgka.certs)
      (fun _ p => call.Outcome s p.1.cgka.certs) (s, rng) := by
  refine (onControlOp_spec a s rng).mono ?_ ?_
  · rintro effects p ⟨-, hcerts⟩
    exact .of_extend (hcall ▸ hcerts)
  · rintro e p ⟨-, -, hcerts | hcerts⟩
    · exact .of_same hcerts
    · exact .of_extend (hcall ▸ hcerts)

theorem onCertsArrived_outcome (certs : List Certificate) (hcall : call.arriving = certs)
    (s : WorkspaceState) (rng : Rng) :
    Wp (onCertsArrived certs) (fun _ p => call.Outcome s p.1.cgka.certs)
      (fun _ p => call.Outcome s p.1.cgka.certs) (s, rng) := by
  refine (onCertsArrived_shift certs s rng (Set.Subset.refl Set.univ)
    fun _ _ => Set.mem_univ _).mono ?_ ?_
  · exact fun _ _ h => .of_extend (hcall ▸ h.2)
  · exact fun _ _ h => .of_extend (hcall ▸ h.2)

theorem handle_outcome (event : Event) (now : UnixSeconds) (s : WorkspaceState) (rng : Rng) :
    Wp (handle event now) (fun _ p => Call.Outcome (.handle event now) s p.1.cgka.certs)
      (fun _ p => Call.Outcome (.handle event now) s p.1.cgka.certs) (s, rng) := by
  by_cases hpublishes : event.publishes = true
  · exact (handle_publishes event now hpublishes).certifies.outcome
  · cases event with
    | controlOp op => exact onControlOp_outcome op rfl s rng
    | certsArrived certs => exact onCertsArrived_outcome certs rfl s rng
    | addUser member shareKey role displayName endpoint =>
        refine (requireAdmin_harmless.certifies.bind fun _ =>
          onAddUser_certifies shareKey displayName endpoint ?_ ?_).outcome
        · exact fun nonce => Call.signed_mem _ (Or.inl ⟨nonce, rfl⟩) _
        · exact fun seq nonce => Call.signed_mem _ (Or.inr ⟨seq, nonce, rfl⟩) _
    | addDevice member shareKey user label endpoint =>
        refine ((requireMayAddDeviceTo_harmless user).certifies.bind fun _ =>
          randomNonce_harmless.certifies.bind fun nonce => (certify_certifies ?_).bind fun _ =>
            admitLeaf_certifies member shareKey _ _).outcome
        exact Call.signed_mem (.handle (.addDevice member shareKey user label endpoint) now)
          ⟨nonce, rfl⟩ _
    | removeMember member =>
        exact (onRemoveMember_shifted member now s rng).mono (fun _ _ h => .of_same h.2)
          fun _ _ h => .of_same h.2
    | leave =>
        exact (onLeave_shifted now s rng).mono (fun _ _ h => .of_same h.2)
          fun _ _ h => .of_same h.2
    | propose action expires =>
        refine (onPropose_certifies fun seq nonce => ?_).outcome
        exact Call.signed_mem (.handle (.propose action expires) now) ⟨seq, nonce, rfl⟩ _
    | approve proposal => exact onApprove_outcome proposal now s rng
    | setRole user role =>
        refine (onSetRole_certifies fun seq nonce => ?_).outcome
        exact Call.signed_mem (.handle (.setRole user role) now) ⟨seq, nonce, rfl⟩ _
    | namespaceMinted epoch ticket => exact (onNamespaceMinted_certifies epoch ticket).outcome
    | namespaceArrived epoch chunk => exact (onNamespaceArrived_certifies epoch chunk).outcome
    | resyncNamespace => exact (republishNamespace_certifies .current).outcome
    | repairRequested requester target epoch =>
        cases target with
        | namespace_ => exact (onRepairRequested_certifies requester).outcome
        | _ => exact absurd rfl hpublishes
    | _ => exact absurd rfl hpublishes

/-- What any call leaves of certificates, whether or not it fails. -/
theorem Call.outcome_spec (call : Call) (s : WorkspaceState) (rng : Rng) :
    Wp call.run (fun _ p => call.Outcome s p.1.cgka.certs)
      (fun _ p => call.Outcome s p.1.cgka.certs) (s, rng) := by
  cases call with
  | handle event now => exact handle_outcome event now s rng
  | onControl msg now =>
      cases msg with
      | op op proof => exact onControlOp_outcome ⟨op, proof⟩ rfl s rng
      | certs certs =>
          refine (refuseOversized_spec 0 certs.length (s, rng)).seq ?_ ?_
          · rintro _ p rfl
            exact onCertsArrived_outcome certs rfl s rng
          · rintro e p rfl
            exact .of_same rfl
      | log ops certs =>
          refine (refuseOversized_spec ops.length certs.length (s, rng)).seq ?_ ?_
          · rintro _ p rfl
            have hcerts : Wp (WorkspaceState.handle (.certsArrived certs) now)
                (fun _ p => Call.Outcome (.onControl (.log ops certs) now) s p.1.cgka.certs)
                (fun _ p => Call.Outcome (.onControl (.log ops certs) now) s p.1.cgka.certs)
                (s, rng) := onCertsArrived_outcome certs rfl s rng
            refine hcerts.seq ?_ fun _ _ => id
            intro effects p houtcome
            refine (handleLog_spec now ops effects p.1 p.2).mono ?_ fun _ _ => False.elim
            rintro effects' p' ⟨l, -, -, hsame⟩
            rw [hsame]
            exact houtcome
          · rintro e p rfl
            exact .of_same rfl
      | announce key => exact Certifies.outcome (.pure [])
      | namespace_ epoch chunk => exact (onNamespaceArrived_certifies epoch chunk).outcome
      | repair member target epoch =>
          refine Certifies.outcome ((verdict_harmless _).certifies.bind fun requester => ?_)
          by_cases htarget : target = .namespace_
          · rw [htarget]
            exact onRepairRequested_certifies requester
          · exact (onRepairRequested_publishes requester htarget).certifies
  | checkpoint name message now => exact (checkpoint_emits name message now).effects.certifies.outcome
  | restoreCheckpoint digest now => exact (restoreCheckpoint_emits digest now).effects.certifies.outcome
  | addAssetVersion doc content assetMeta now =>
      exact (addAssetVersion_publishes doc content assetMeta now).certifies.outcome
  | revertAsset doc content now => exact (revertAsset_publishes doc content now).certifies.outcome
  | sealAssetKey asset => exact (sealAssetKey_emits asset).effects.certifies.outcome
  | openAssetKey keyChunk =>
      exact ((openAssetKey_harmless keyChunk).certifies.bind fun _ => .pure []).outcome
  | resealAssetKey requester asset keyChunk =>
      exact (resealAssetKey_publishes requester asset keyChunk).certifies.outcome

/-- Every call leaves a store that is among its outcomes. -/
theorem Call.outcome (call : Call) (s : WorkspaceState) (rng : Rng) :
    call.Outcome s (after call.run (s, rng)).1.cgka.certs :=
  Wp.after (P := fun p : WorkspaceState × Rng => call.Outcome s p.1.cgka.certs)
    (call.outcome_spec s rng)

end Calls

end IrohBeekem
