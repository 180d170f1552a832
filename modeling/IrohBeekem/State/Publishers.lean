import IrohBeekem.State.Quiet

/-!
# The handlers that publish

Every handler that edits, publishes, repairs or merges content is `Quiet` or
`Publishes`, and so is every direct method.  The proofs follow the programs: a
permission check, a read or a write of a document is harmless, and one encryption
emits the operations it took in.
-/

set_option linter.unusedSectionVars false

namespace IrohBeekem

open Library CgkaController

variable [Keyhive] [Beekem] [Loro] [Postcard] [LawfulBeekem]

namespace WorkspaceState

/-! ## Checks and reads -/

theorem requireAdmin_harmless : Harmless requireAdmin := by
  refine Harmless.self.bind fun s => ?_
  split_ifs
  · exact .pure _
  · exact .throw _

theorem requireWrite_harmless : Harmless requireWrite := by
  refine Harmless.self.bind fun s => ?_
  cases s.capabilities.roleOfMember s.memberId with
  | none => exact .pure _
  | some role =>
      dsimp only
      split_ifs
      · exact .pure _
      · exact .throw _

theorem requireQuorum_harmless (action : AdminAction) : Harmless (requireQuorum action) := by
  refine requireAdmin_harmless.bind fun _ => Harmless.self.bind fun s => ?_
  split_ifs
  · exact .pure _
  · exact .pure _
  · exact .throw _

theorem requireMayAddDeviceTo_harmless (user : Bytes32) :
    Harmless (requireMayAddDeviceTo user) := by
  refine Harmless.self.bind fun s => ?_
  split_ifs
  · exact .pure _
  · exact .throw _

theorem requireNotLastAdmin_harmless (user : Bytes32) : Harmless (requireNotLastAdmin user) := by
  refine Harmless.self.bind fun s => ?_
  split_ifs
  · exact .throw _
  · exact .pure _

theorem randomNonce_harmless : Harmless randomNonce := fun s _ => Rekeyed.refl s

/-- Decrypting takes no operation in. -/
theorem decrypt_harmless (chunk : Chunk OpHash) : Harmless (onCgka (decrypt chunk)) := by
  intro s rng
  rw [wp_onCgka]
  have hrekeyed : ∀ c, (∃ g, Grows s.cgka.cgka g [] ∧ c = { s.cgka with cgka := g }) →
      Rekeyed s { s with cgka := c } [] := by
    rintro c ⟨g, hgrows, rfl⟩
    exact ⟨.of_grows hgrows trivial (by simp) rfl id, rfl, rfl, rfl⟩
  exact (decrypt_spec s.cgka chunk).mono (fun _ c h => hrekeyed c h) fun _ c h => hrekeyed c h

theorem openDoc_sure (doc : DocumentUuid) : Sure (openDoc doc) := by
  refine Sure.self.bind fun s => ?_
  cases s.docs.get? doc with
  | some loro => exact .pure _
  | none =>
      exact Sure.bind (.update (fun _ => rfl) (fun _ => rfl) (fun _ => rfl) fun _ => rfl) fun _ => .pure _

theorem openDoc_harmless (doc : DocumentUuid) : Harmless (openDoc doc) := (openDoc_sure doc).harmless

theorem isPublished_harmless (doc : DocumentUuid) : Harmless (isPublished doc) := by
  refine Harmless.self.bind fun s => ?_
  split
  · exact Harmless.bind (.update (fun _ => rfl) (fun _ => rfl) (fun _ => rfl) fun _ => rfl) fun _ => .pure _
  · exact .pure _

theorem recordEndpoint_harmless : Harmless recordEndpoint := by
  refine Harmless.self.bind fun s => ?_
  split
  · exact .pure _
  · split_ifs
    · exact .pure _
    · refine (Harmless.onManifest _).attempt.bind fun r => ?_
      split
      · exact .pure _
      · exact .pure _
      · exact .throw _

theorem openAssetKey_harmless (chunk : Chunk OpHash) : Harmless (openAssetKey chunk) := by
  refine (decrypt_harmless chunk).attempt.bind fun r => ?_
  split
  · split <;> exact .pure _
  · exact .pure _
  · exact .pure _
  · exact .pure _

/-! ## Arriving chunks -/

theorem tryApply_sure (doc : DocumentUuid) (chunk : Chunk OpHash) :
    Sure (tryApply doc chunk) := by
  refine (decrypt_harmless chunk).sure.bind fun r => ?_
  split
  · refine (openDoc_sure doc).bind fun _ => (Harmless.onDoc doc _ _).sure.bind fun r => ?_
    split
    · exact Sure.bind (.update (fun _ => rfl) (fun _ => rfl) (fun _ => rfl) fun _ => rfl) fun _ => .pure _
    · exact .pure _
  · exact .pure _
  · exact .pure _
  · exact .pure _

/-- One pass over the queue adds silent effects. -/
theorem drainRound_quiet (queue : List Parked) (applied : Nat) (effects : List Effect)
    (h : Silent effects) (s : WorkspaceState) (rng : Rng) :
    Wp (drainRound queue applied effects) (fun r p => Rekeyed s p.1 [] ∧ Silent r.2)
      (fun _ _ => False) (s, rng) := by
  induction queue generalizing applied effects s rng with
  | nil => exact ⟨Rekeyed.refl s, h⟩
  | cons parked rest ih =>
      have hnext : ∀ (x : Run PUnit) (applied : Nat) (effects : List Effect), Sure x →
          Silent effects → ∀ (s : WorkspaceState) (rng : Rng),
          Wp (do x; drainRound rest applied effects)
            (fun r p => Rekeyed s p.1 [] ∧ Silent r.2) (fun _ _ => False) (s, rng) := by
        intro x applied effects hx heffects s rng
        refine (hx s rng).seq ?_ fun _ _ => id
        intro _ p hp
        exact (ih applied effects heffects p.1 p.2).mono (fun _ _ h => ⟨hp.trans h.1, h.2⟩)
          fun _ _ => id
      have hrequeue : Sure (update (requeue parked)) :=
        .update (fun _ => rfl) (fun _ => rfl) (fun _ => rfl) fun _ => rfl
      have hcons : ∀ effect : Effect, Effect.sent? effect = none →
          effect.aboutNamespace = false → Silent (effects ++ [effect]) := by
        intro effect hsent hquiet
        exact h.append ⟨by simp [sent, hsent], by simpa using hquiet⟩
      unfold drainRound
      refine (tryApply_sure parked.doc parked.chunk s rng).seq ?_ fun _ _ => id
      intro verdict p hp
      -- what the pass has done so far is harmless, whatever the rest does
      refine Wp.mono (Q := fun r p' => Rekeyed p.1 p'.1 [] ∧ Silent r.2)
        (E := fun _ _ => False) ?_ (fun _ _ h => ⟨hp.trans h.1, h.2⟩) fun _ _ => id
      cases verdict with
      | applied => exact ih _ _ (hcons _ rfl rfl) p.1 p.2
      | awaitingKey => exact hnext _ _ _ hrequeue h p.1 p.2
      | awaitingDeps =>
          dsimp only
          split_ifs
          · exact hnext _ _ _ hrequeue (hcons _ rfl rfl) p.1 p.2
          · exact hnext _ _ _ hrequeue h p.1 p.2
      | unreachable =>
          dsimp only
          refine hnext _ _ _ ?_ (hcons _ rfl rfl) p.1 p.2
          exact .update (fun _ => rfl) (fun _ => rfl) (fun _ => rfl) fun _ => rfl
      | corrupt =>
          dsimp only
          refine hnext _ _ _ ?_ h p.1 p.2
          exact .update (fun _ => rfl) (fun _ => rfl) (fun _ => rfl) fun _ => rfl

theorem drainRounds_quiet (fuel : Nat) (effects : List Effect) (h : Silent effects)
    (s : WorkspaceState) (rng : Rng) :
    Wp (drainRounds fuel effects) (fun effects p => Rekeyed s p.1 [] ∧ Silent effects)
      (fun _ _ => False) (s, rng) := by
  induction fuel generalizing effects s rng with
  | zero => exact ⟨Rekeyed.refl s, h⟩
  | succ fuel ih =>
      unfold drainRounds
      rw [wp_bind, wp_self, wp_bind, wp_update]
      refine (drainRound_quiet s.pendingChunks 0 effects h _ rng).seq ?_ fun _ _ => id
      rintro ⟨applied, effects'⟩ p ⟨hp, heffects⟩
      have htaken : Rekeyed s { s with pendingChunks := [], pendingBytes := 0 } [] :=
        .of_same rfl rfl rfl rfl
      have hround : Rekeyed s p.1 [] := htaken.trans hp
      dsimp only at heffects ⊢
      split_ifs
      · exact ⟨hround, heffects⟩
      · exact (ih effects' heffects p.1 p.2).mono (fun _ _ h => ⟨hround.trans h.1, h.2⟩)
          fun _ _ => id

/-- Draining the queue does not fail. -/
theorem drainPending_spec (s : WorkspaceState) (rng : Rng) :
    Wp drainPending (fun effects p => Rekeyed s p.1 [] ∧ Silent effects) (fun _ _ => False)
      (s, rng) := by
  unfold drainPending
  rw [wp_bind, wp_self]
  exact drainRounds_quiet _ [] .nil s rng

theorem drainPending_quiet : Quiet drainPending := fun s rng =>
  (drainPending_spec s rng).mono (fun _ _ => id) fun _ _ => False.elim

theorem onChunkArrived_quiet (doc : DocumentUuid) (chunk : Chunk OpHash) :
    Quiet (onChunkArrived doc chunk) := by
  refine Harmless.self.quiet fun s => ?_
  dsimp only
  split_ifs
  · exact drainPending_quiet
  · refine Harmless.quiet (.update (fun _ => rfl) (fun _ => rfl) (fun _ => rfl) fun _ => rfl) fun _ =>
      drainPending_quiet

/-! ## Encrypting -/

theorem encryptKeyed_spec (plaintext : Bytes) (preds : List Bytes32) (keying : Keying)
    (s : WorkspaceState) (rng : Rng) :
    Wp (encryptKeyed plaintext preds keying)
      (fun r p => Rekeyed s p.1 r.2 ∧ ∃ secret, Beekem.tryEncrypt secret plaintext = some r.1)
      (fun _ p => ∃ ops, Rekeyed s p.1 ops ∧ (Steady → ops = [])) (s, rng) := by
  have hcipher : (∃ secret, Beekem.tryEncrypt secret plaintext = none) → ¬ Steady := by
    rintro ⟨secret, hnone⟩ hsteady
    obtain ⟨chunk, hsome⟩ := hsteady.encrypts secret plaintext
    exact absurd (hsome.symm.trans hnone) (by simp)
  cases keying with
  | current =>
      unfold encryptKeyed
      rw [wp_bind, wp_onCgkaRng]
      refine (encrypt_spec s.cgka plaintext preds rng).mono ?_ ?_
      · rintro ⟨chunk, implicit⟩ q ⟨hrekeys, hchunk, -⟩
        exact ⟨⟨hrekeys, rfl, rfl, rfl⟩, hchunk⟩
      · rintro e q ⟨op, hrekeys, ⟨rfl, -⟩ | hnone⟩
        · exact ⟨[], ⟨hrekeys, rfl, rfl, rfl⟩, fun _ => rfl⟩
        · exact ⟨_, ⟨hrekeys, rfl, rfl, rfl⟩, fun h => absurd h (hcipher hnone)⟩
  | fresh =>
      unfold encryptKeyed
      rw [wp_onCgkaRng]
      refine (encryptFresh_spec s.cgka plaintext preds rng).mono ?_ ?_
      · rintro r q ⟨hrekeys, hchunk⟩
        exact ⟨⟨hrekeys, rfl, rfl, rfl⟩, hchunk⟩
      · rintro e q ⟨ops, hrekeys, rfl | hnone | ⟨_, _, _, _, _, _, hupdate, hkeyable⟩⟩
        · exact ⟨[], ⟨hrekeys, rfl, rfl, rfl⟩, fun _ => rfl⟩
        · exact ⟨_, ⟨hrekeys, rfl, rfl, rfl⟩, fun h => absurd h (hcipher hnone)⟩
        · exact ⟨_, ⟨hrekeys, rfl, rfl, rfl⟩, fun h =>
            absurd (h.keyable_update _ _ _ _ _ _ hupdate) hkeyable⟩

/-- With steady libraries an encryption fails only for want of a key, and leaves the
tree with one. -/
theorem encryptKeyed_reliable (plaintext : Bytes) (preds : List Bytes32) (s : WorkspaceState)
    (rng : Rng) :
    Wp (encryptKeyed plaintext preds .current) (fun _ p => Steady → Keyable p.1.cgka.cgka)
      (fun _ _ => Steady → ¬ Keyable s.cgka.cgka) (s, rng) := by
  unfold encryptKeyed
  rw [wp_bind, wp_onCgkaRng]
  refine (encrypt_spec s.cgka plaintext preds rng).mono ?_ ?_
  · rintro ⟨chunk, implicit⟩ q ⟨-, -, _, _, _, _, _, hrun⟩ hsteady
    exact hsteady.keyable_secret _ _ _ _ _ _ _ hrun
  · rintro e q ⟨op, -, ⟨-, hkeyable⟩ | ⟨secret, hnone⟩⟩ hsteady
    · exact hkeyable
    · obtain ⟨chunk, hsome⟩ := hsteady.encrypts secret plaintext
      exact absurd (hsome.symm.trans hnone) (by simp)

/-- One encryption, and then nothing but the emission of its operations. -/
theorem encryptKeyed_publishes {plaintext : Bytes} {preds : List Bytes32} {keying : Keying}
    {k : Chunk OpHash × List ControlOp → Run (List Effect)}
    (hk : ∀ chunk ops s rng, Wp (k (chunk, ops))
      (fun effects p => Rekeyed s p.1 [] ∧ Announces effects ops) (fun _ _ => False) (s, rng)) :
    Publishes (encryptKeyed plaintext preds keying >>= k) := by
  intro s rng
  refine (encryptKeyed_spec plaintext preds keying s rng).seq ?_ fun _ _ h => h
  rintro ⟨chunk, ops⟩ p ⟨h, -⟩
  refine (hk chunk ops p.1 p.2).mono ?_ fun _ _ => False.elim
  rintro effects p' ⟨h', hsent⟩
  exact ⟨ops, by simpa using h.trans h', hsent⟩

/-- Broadcasts followed by one silent effect. -/
theorem announces_broadcasts {ops : List ControlOp} {effect : Effect}
    (hsent : Effect.sent? effect = none) (hquiet : effect.aboutNamespace = false) :
    Announces (ops.map Effect.broadcast ++ [effect]) ops := by
  have hlast : Silent [effect] := ⟨by simp [sent, hsent], by simpa using hquiet⟩
  simpa using (Announces.broadcasts ops).append hlast.announces

theorem publishManifest_publishes (keying : Keying) : Publishes (publishManifest keying) := by
  refine (Harmless.onManifest _).emits fun snapshot => encryptKeyed_publishes ?_
  intro chunk ops s rng
  exact ⟨Rekeyed.refl s, announces_broadcasts rfl rfl⟩

theorem publishManifest_reliable (s : WorkspaceState) (rng : Rng) :
    Wp (publishManifest .current) (fun _ _ => True) (fun _ _ => Steady → ¬ Keyable s.cgka.cgka)
      (s, rng) := by
  unfold publishManifest
  have hexport : Wp (onManifest Manifest.exportSnapshot) (fun _ p => p.1.cgka = s.cgka)
      (fun _ _ => ¬ Steady) (s, rng) := by
    unfold onManifest Manifest.exportSnapshot
    rw [wp_zoom, wp_bind, wp_modify, wp_bind, wp_get, wp_verdict]
    cases hrun : Loro.exportAs .snapshot (Loro.commit s.manifest) with
    | ok bytes => rfl
    | error message =>
        intro hsteady
        obtain ⟨bytes, hok⟩ := hsteady.exports .snapshot (Loro.commit s.manifest)
        exact absurd (hok.symm.trans hrun) (by simp)
  refine hexport.seq ?_ fun _ _ hnot hsteady => absurd hsteady hnot
  intro snapshot p hcgka
  refine (encryptKeyed_reliable snapshot [] p.1 p.2).seq (fun _ _ _ => trivial) ?_
  intro e q h
  rwa [hcgka] at h

theorem publishAssetKey_publishes (asset : DocumentUuid) (key : Bytes32) (keying : Keying) :
    Publishes (publishAssetKey asset key keying) := by
  refine encryptKeyed_publishes ?_
  intro chunk ops s rng
  exact ⟨Rekeyed.refl s, announces_broadcasts rfl rfl⟩

theorem publishKeyed_publishes (doc : DocumentUuid) (keying : Keying) (extent : Extent) :
    Publishes (publishKeyed doc keying extent) := by
  refine Harmless.self.emits fun s => (openDoc_harmless doc).emits fun loro => ?_
  refine Harmless.emits ?_ fun exported => Harmless.self.emits fun s => encryptKeyed_publishes ?_
  · intro s rng
    rw [wp_verdict]
    split <;> exact Rekeyed.refl s
  · intro chunk ops s rng
    exact ⟨.of_same rfl rfl rfl rfl, announces_broadcasts rfl rfl⟩

theorem publish_publishes (doc : DocumentUuid) : Publishes (publish doc) :=
  Harmless.self.emits fun _ => publishKeyed_publishes _ _ _

/-! ## Editing -/

theorem onTextEdit_publishes (doc : DocumentUuid) (now : UnixSeconds)
    (mutate : EStateM String LoroDoc Unit) : Publishes (onTextEdit doc now mutate) :=
  requireWrite_harmless.emits fun _ => Harmless.self.emits fun _ =>
    (openDoc_harmless doc).emits fun _ => (Harmless.onDoc doc _ _).emits fun _ =>
      (Harmless.onDoc doc _ _).emits fun _ => (Harmless.onDoc doc _ _).emits fun _ =>
        publish_publishes doc

theorem onRevert_publishes (doc : DocumentUuid) (version : VersionId) (now : UnixSeconds) :
    Publishes (onRevert doc version now) := by
  refine requireWrite_harmless.emits fun _ => ?_
  split_ifs
  · refine Harmless.self.emits fun s => ?_
    cases s.docs.get? doc with
    | none => exact .throw _
    | some loro =>
        exact (Harmless.onDoc doc _ _).emits fun _ => (Harmless.onDoc doc _ _).emits fun _ =>
          (Harmless.onDoc doc _ _).emits fun _ => publish_publishes doc
  · exact .throw _

theorem onResync_publishes (doc : DocumentUuid) : Publishes (onResync doc) := by
  refine requireWrite_harmless.emits fun _ => Harmless.self.emits fun s => ?_
  split_ifs
  · exact (Quiet.pure .nil).publishes
  · refine (isPublished_harmless doc).emits fun published => ?_
    split_ifs
    · exact (Quiet.pure .nil).publishes
    · exact publishKeyed_publishes _ _ _

theorem onManifestArrived_publishes (chunk : Chunk OpHash) :
    Publishes (onManifestArrived chunk) := by
  refine (decrypt_harmless chunk).attempt.emits fun r => ?_
  split
  · refine (Harmless.onManifest _).emits fun _ => recordEndpoint_harmless.emits fun landed => ?_
    split_ifs
    · refine (publishManifest_publishes .current).andThen fun more s rng => ?_
      exact ⟨Rekeyed.refl s, [.manifestUpdated], ⟨rfl, by simp [Effect.aboutNamespace]⟩, rfl⟩
    · exact (Quiet.pure ⟨rfl, by simp [Effect.aboutNamespace]⟩).publishes
  · exact (Quiet.pure .nil).publishes
  · refine Harmless.emits (.update (fun _ => rfl) (fun _ => rfl) (fun _ => rfl) fun _ => rfl) fun _ => ?_
    exact (Quiet.pure ⟨rfl, by simp [Effect.aboutNamespace]⟩).publishes
  · refine Harmless.emits (.update (fun _ => rfl) (fun _ => rfl) (fun _ => rfl) fun _ => rfl) fun _ => ?_
    exact (Quiet.pure .nil).publishes

theorem onDeleteFile_publishes (doc : DocumentUuid) : Publishes (onDeleteFile doc) := by
  refine requireWrite_harmless.emits fun _ => Harmless.self.emits fun s =>
    (Harmless.onManifest _).emits fun _ => ?_
  refine Harmless.emits (.update (fun _ => rfl) (fun _ => rfl) (fun _ => rfl) fun _ => rfl) fun _ => ?_
  refine (publishManifest_publishes .current).andThen fun more s' rng => ?_
  refine ⟨Rekeyed.refl s', _, ?_, rfl⟩
  split_ifs
  · exact ⟨rfl, by simp [Effect.aboutNamespace]⟩
  · generalize s.manifest.assetVersions doc = versions
    induction versions with
    | nil => exact .nil
    | cons version rest ih =>
        rw [List.flatMap_cons]
        exact Silent.append ⟨rfl, by simp [Effect.aboutNamespace]⟩ ih

/-! ## Direct methods -/

/-- Counting an answer changes nothing else. -/
theorem answer_publishes {x : Run (List Effect)} (h : Publishes x) :
    Publishes (do
      let effects ← x
      if effects ≠ [] then
        update fun s => { s with repairsAnswered := s.repairsAnswered + 1 }
      return effects) := by
  refine Emits.andThen h fun effects s rng => ?_
  split_ifs
  · exact ⟨.of_same rfl rfl rfl rfl, [], .nil, rfl⟩
  · exact ⟨Rekeyed.refl s, [], .nil, rfl⟩

theorem checkpoint_emits (name message : String) (now : UnixSeconds) :
    Emits Prod.fst (checkpoint name message now) := by
  refine requireWrite_harmless.emits fun _ => Harmless.self.emits fun s =>
    (Harmless.onManifest _).emits fun _ => ?_
  exact (publishManifest_publishes .current).andThen fun effects s rng =>
    ⟨Rekeyed.refl s, [], .nil, rfl⟩

theorem addAssetVersion_publishes (doc content : DocumentUuid) (assetMeta : AssetMeta)
    (now : UnixSeconds) : Publishes (addAssetVersion doc content assetMeta now) :=
  requireWrite_harmless.emits fun _ => Harmless.self.emits fun _ =>
    (Harmless.onManifest _).emits fun _ => publishManifest_publishes .current

theorem revertAsset_publishes (doc content : DocumentUuid) (now : UnixSeconds) :
    Publishes (revertAsset doc content now) := by
  refine requireWrite_harmless.emits fun _ => Harmless.self.emits fun s => ?_
  split
  · exact .throw _
  · exact addAssetVersion_publishes _ _ _ _

theorem sealAssetKey_emits (asset : DocumentUuid) : Emits Prod.snd (sealAssetKey asset) := by
  refine requireWrite_harmless.emits fun _ => ?_
  intro s rng
  have hpublish : Emits Prod.snd (do
      let effects ← publishAssetKey asset (Beekem.randomKey rng).1 .current
      return ((Beekem.randomKey rng).1, effects)) :=
    (publishAssetKey_publishes asset _ .current).andThen fun effects s rng =>
      ⟨Rekeyed.refl s, [], .nil, rfl⟩
  rw [wp_bind, wp_get]
  dsimp only
  rw [wp_bind, wp_set]
  exact hpublish s (Beekem.randomKey rng).2

theorem resealAssetKey_publishes (requester : Bytes32) (asset : DocumentUuid)
    (keyChunk : Chunk OpHash) : Publishes (resealAssetKey requester asset keyChunk) := by
  refine Harmless.self.emits fun s => ?_
  split_ifs
  · refine requireWrite_harmless.emits fun _ => (openAssetKey_harmless keyChunk).emits fun r => ?_
    split
    · exact answer_publishes (publishAssetKey_publishes asset _ .fresh)
    · exact (Quiet.pure .nil).publishes
  · exact .throw _

/-! ## Repairs -/

theorem repairDocument_publishes (doc : DocumentUuid) (keying : Keying) :
    Publishes (repairDocument doc keying) := by
  refine Harmless.self.emits fun s => ?_
  split_ifs
  · refine requireWrite_harmless.attempt.emits fun r => ?_
    cases r with
    | ok u => exact publishKeyed_publishes doc keying .full
    | error e => exact (Quiet.pure .nil).publishes
  · exact (Quiet.pure .nil).publishes

theorem onRepairRequested_publishes (requester : Bytes32) {target : RepairTarget}
    (h : target ≠ .namespace_) : Publishes (onRepairRequested requester target) := by
  refine Harmless.self.emits fun s => ?_
  split_ifs
  · cases target with
    | manifest => exact answer_publishes (publishManifest_publishes .fresh)
    | namespace_ => exact absurd rfl h
    | document doc => exact answer_publishes (repairDocument_publishes doc .fresh)
    | documentHistory doc => exact answer_publishes (repairDocument_publishes doc .current)
    | assetKey asset => exact (Quiet.pure ⟨rfl, by simp [Effect.aboutNamespace]⟩).publishes
  · exact .throw _

end WorkspaceState

end IrohBeekem
