import IrohBeekem.Facade.Follow
import IrohBeekem.State.Coverage

/-!
# In circulation on the new replica

The replica a group moves to begins empty.  Whoever moves there carries its assets' entries
over and publishes everything else once more, or its documents would be out of circulation.

If nothing fails meanwhile, what a node that may write has is there when the pump comes to rest
(`adopted_circulates`): the manifest, the whole of every document it has that the manifest
lists, and the entries of assets whose payload is at hand.
-/

set_option linter.unusedSectionVars false

namespace IrohBeekem

open Library WorkspaceState

variable [Keyhive] [Beekem] [Loro] [Postcard] [Stores] [DocTickets] [Surroundings] [ChunkWire]

/-! ## Chunks in the index -/

/-- What the index has of a chunk: the hash and the length of its encoding. -/
def payload (chunk : Chunk OpHash) : Except String (Bytes32 × Nat) := do
  let bytes ← Stores.encodeChunk chunk
  let hash ← Stores.addBytes bytes
  return (hash, bytes.length)

/-- Every chunk can be encoded and added to the blobs. -/
def Payloads : Prop := ∀ chunk, ∃ entry, payload chunk = .ok entry

theorem storeChunk_puts [LawfulStores] (hwrites : Writes) {chunk : Chunk OpHash}
    {entry : Bytes32 × Nat} (hpayload : payload chunk = .ok entry) (author key : Bytes32)
    (d : Stores.Doc) :
    ∃ d', storeChunk author key chunk d = .ok () d' ∧
      Stores.entries d' = (Stores.entries d).put author key.toBytes entry := by
  obtain ⟨bytes, hbytes, hrest⟩ := bind_eq_ok.mp hpayload
  obtain ⟨hash, hhash, heq⟩ := bind_eq_ok.mp hrest
  obtain rfl := Except.ok.inj heq
  have hspec : Wp (storeChunk author key chunk)
      (fun _ d' => Stores.entries d' =
        (Stores.entries d).put author key.toBytes (hash, bytes.length)) (fun _ _ => False) d := by
    unfold storeChunk
    rw [wp_bind, wp_verdict, hbytes]
    dsimp only
    rw [wp_bind, wp_verdict, hhash]
    obtain ⟨_, hrun⟩ := run_of_succeeds (hwrites author key.toBytes hash bytes.length d)
    have hput := (LawfulStores.setHash_spec author key.toBytes hash bytes.length d).of_ok hrun
    refine wp_of_run (fun _ d' hdone => ?_) fun e d' hfailed => ?_
    · rw [hrun] at hdone
      obtain ⟨-, rfl⟩ := EStateM.Result.ok.inj hdone
      exact hput
    · exact absurd (hrun.symm.trans hfailed) (by simp)
  obtain ⟨_, d', hrun, hentries⟩ := hspec.exists_ok
  exact ⟨d', hrun, hentries⟩

/-! ## Surroundings that do as they are asked -/

namespace Pump

/-- Between these two nothing happened to the state, the replicas or the blobs. -/
structure Untouched (h h' : Hub) : Prop where
  core : h'.core = h.core
  inUse : h'.inUse = h.inUse
  replicas : h'.replicas = h.replicas
  blobs : h'.blobs = h.blobs
  outcomes : h'.outcomes = h.outcomes

theorem Untouched.refl (h : Hub) : Untouched h h := ⟨rfl, rfl, rfl, rfl, rfl⟩

theorem Untouched.trans {h h₁ h' : Hub} (hfirst : Untouched h h₁) (hthen : Untouched h₁ h') :
    Untouched h h' where
  core := hthen.core.trans hfirst.core
  inUse := hthen.inUse.trans hfirst.inUse
  replicas := hthen.replicas.trans hfirst.replicas
  blobs := hthen.blobs.trans hfirst.blobs
  outcomes := hthen.outcomes.trans hfirst.outcomes

theorem wp_outside_done {α : Type} {x : Hub → Except String α × Hub} {h : Hub}
    (hdone : h.outcomes = []) {Q : Except String α → Hub → Prop} {E : Halt Deeper → Hub → Prop} :
    Wp (outside x) Q E h ↔ Q (x h).1 (x h).2 := by
  have hsame : ({ h with outcomes := [].tail } : Hub) = h := by
    cases h
    cases hdone
    rfl
  unfold Wp outside
  rw [hdone, hsame]

/-- If nothing fails the program returns, and touches nothing. -/
def Sends {α : Type} (x : Pump α) : Prop :=
  ∀ h, h.outcomes = [] → Wp x (fun _ h' => Untouched h h') (fun _ _ => False) h

namespace Sends

variable {α β : Type} {x : Pump α} {f : α → Pump β}

theorem pure (a : α) : Sends (Pure.pure a : Pump α) := fun h _ => .refl h

theorem bind (hx : Sends x) (hf : ∀ a, Sends (f a)) : Sends (x >>= f) := by
  intro h hdone
  refine (hx h hdone).seq (fun a h₁ hfirst => ?_) fun _ _ => id
  exact (hf a h₁ (hfirst.outcomes.trans hdone)).mono (fun _ _ => hfirst.trans) fun _ _ => id

theorem change {g : Hub → Hub} (hg : ∀ h, Untouched h (g h)) : Sends (modify g : Pump Unit) :=
  fun h _ => hg h

theorem outside {y : Hub → Except String α × Hub} (hy : ∀ h, Untouched h (y h).2) :
    Sends (Pump.outside y) := fun h hdone => (wp_outside_done hdone).mpr (hy h)

end Sends

theorem sends_reporting {α : Type} (r : Report) (outcome : Except String α) :
    Sends (reporting r outcome) := by
  cases outcome with
  | ok a => exact .pure ()
  | error text => exact .change fun h => ⟨rfl, rfl, rfl, rfl, rfl⟩

theorem sends_broadcast (msg : ControlMsg) : Sends (broadcast msg) := by
  unfold broadcast
  split
  · exact .outside fun h => ⟨rfl, rfl, rfl, rfl, rfl⟩
  · exact .pure _

theorem sends_now : Sends now := fun _ _ => ⟨rfl, rfl, rfl, rfl, rfl⟩

theorem sends_refreshDownloadPolicy : Sends refreshDownloadPolicy :=
  .bind (.outside fun _ => ⟨rfl, rfl, rfl, rfl, rfl⟩) fun _ => sends_reporting _ _

theorem sends_persist (inner : HubInner) : Sends (persist inner) := by
  unfold persist
  split
  · refine .bind (fun h _ => .refl h) fun h => ?_
    split
    · exact sends_reporting (α := Unit) _ (.error "")
    · exact .bind (.outside fun _ => ⟨rfl, rfl, rfl, rfl, rfl⟩) fun _ => sends_reporting _ _
  · exact .pure ()

end Pump

/-! ## What publishing everything returns -/

/-- The second replica is the first, with what was pending committed. -/
inductive Committed (replica : LoroDoc) : LoroDoc → Prop where
  | same : Committed replica replica
  | commit {later : LoroDoc} (h : Committed replica later) : Committed replica (Loro.commit later)

theorem Committed.trans {replica later latest : LoroDoc} (h : Committed replica later)
    (h' : Committed later latest) : Committed replica latest := by
  induction h' with
  | same => exact h
  | commit _ ih => exact ih.commit

/-- A chunk holds all that a replica has. -/
def Wholly (replica : LoroDoc) (chunk : Chunk OpHash) : Prop :=
  ∃ content secret, Loro.exportAs .allUpdates replica = .ok content ∧
    Beekem.tryEncrypt secret content = some chunk

namespace WorkspaceState

/-- What publishing leaves alone, beside the documents. -/
def belongings (p : WorkspaceState × Rng) : Bytes32 × Manifest := (p.1.secret, p.1.manifest)

/-- What an encryption leaves alone. -/
def holding (p : WorkspaceState × Rng) :
    (Bytes32 × Manifest) × BTreeMap DocumentUuid LoroDoc × BTreeMap DocumentUuid Bytes :=
  (belongings p, p.1.docs, p.1.publishedUpTo)

/-- One state has come from another by publishing. -/
structure Onward (s s' : WorkspaceState) : Prop where
  rekeyed : ∃ ops, Rekeyed s s' ops
  keyable : Keyable s'.cgka.cgka
  docs : ∀ doc, s.docs.get? doc = none ∧ s'.docs.get? doc = none ∨
    ∃ replica later, s.docs.get? doc = some replica ∧ s'.docs.get? doc = some later ∧
      Committed replica later
  secret : s'.secret = s.secret

variable [LawfulBeekem] {s : WorkspaceState} {rng : Rng}

/-- The same documents. -/
theorem same_docs {s' : WorkspaceState} (h : s'.docs = s.docs) (doc : DocumentUuid) :
    s.docs.get? doc = none ∧ s'.docs.get? doc = none ∨
      ∃ replica later, s.docs.get? doc = some replica ∧ s'.docs.get? doc = some later ∧
        Committed replica later := by
  rw [h]
  cases hdoc : s.docs.get? doc with
  | none => exact Or.inl ⟨rfl, rfl⟩
  | some replica => exact Or.inr ⟨replica, replica, rfl, rfl, .same⟩

theorem Onward.refl (hkeyable : Keyable s.cgka.cgka) : Onward s s :=
  ⟨⟨[], .refl s⟩, hkeyable, same_docs rfl, rfl⟩

theorem Onward.trans {s₁ s' : WorkspaceState} (h : Onward s s₁) (h' : Onward s₁ s') :
    Onward s s' where
  rekeyed := by
    obtain ⟨ops, hrekeyed⟩ := h.rekeyed
    obtain ⟨ops', hrekeyed'⟩ := h'.rekeyed
    exact ⟨_, hrekeyed.trans hrekeyed'⟩
  keyable := h'.keyable
  docs := fun doc => by
    rcases h.docs doc with ⟨hnone, hnone₁⟩ | ⟨replica, later, hdoc, hdoc₁, hcommitted⟩
    · rcases h'.docs doc with ⟨-, hnone'⟩ | ⟨other, -, hother, -, -⟩
      · exact Or.inl ⟨hnone, hnone'⟩
      · exact absurd (hnone₁.symm.trans hother) (by simp)
    · rcases h'.docs doc with ⟨hnone₁, -⟩ | ⟨later', latest, hdoc₁', hdoc', hcommitted'⟩
      · exact absurd (hnone₁.symm.trans hdoc₁) (by simp)
      · obtain rfl := Option.some.inj (hdoc₁.symm.trans hdoc₁')
        exact Or.inr ⟨replica, latest, hdoc, hdoc', hcommitted.trans hcommitted'⟩
  secret := h'.secret.trans h.secret

/-- An encryption under a tree that can key. -/
theorem encryptKeyed_keyable (hsteady : Steady) (hkeyable : Keyable s.cgka.cgka)
    (plaintext : Bytes) (preds : List Bytes32) :
    Wp (encryptKeyed plaintext preds .current)
      (fun r p => (∃ secret, Beekem.tryEncrypt secret plaintext = some r.1) ∧ Onward s p.1 ∧
        holding p = holding (s, rng))
      (fun _ _ => False) (s, rng) := by
  have hkept : Keeps holding (encryptKeyed plaintext preds .current) :=
    encryptKeyed_keeps (fun _ _ _ _ => rfl) plaintext preds .current
  refine (((encryptKeyed_spec plaintext preds .current s rng).and
    (encryptKeyed_reliable plaintext preds s rng)).and (hkept (s, rng))).mono
      (fun r p hends => ?_) fun e p hfailed => hfailed.1.2 hsteady hkeyable
  obtain ⟨⟨⟨hrekeyed, hchunk⟩, hnext⟩, hsame⟩ := hends
  obtain ⟨hbelongings, hbooks⟩ := Prod.mk.inj hsame
  obtain ⟨hsecret, -⟩ := Prod.mk.inj hbelongings
  obtain ⟨hdocs, -⟩ := Prod.mk.inj hbooks
  exact ⟨hchunk, ⟨⟨_, hrekeyed⟩, hnext hsteady, same_docs hdocs, hsecret⟩, hsame⟩

/-- All of a document is published. -/
theorem publishKeyed_full (hsteady : Steady) (hkeyable : Keyable s.cgka.cgka) {doc : DocumentUuid}
    {replica : LoroDoc} (hdoc : s.docs.get? doc = some replica) :
    Wp (publishKeyed doc .current .full)
      (fun effects p => Onward s p.1 ∧ p.1.manifest = s.manifest ∧
        ∃ (ops : List ControlOp) (chunk : Chunk OpHash) (version : Bytes), Wholly replica chunk ∧
        p.1.publishedUpTo = s.publishedUpTo.set doc version ∧
        effects = ops.map Effect.broadcast ++
          [.storeChunk (WorkspaceSecret.storageKey s.secret doc) doc chunk])
      (fun _ _ => False) (s, rng) := by
  obtain ⟨content, hexport⟩ := hsteady.exports .allUpdates replica
  unfold publishKeyed openDoc
  rw [wp_bind, wp_self, wp_bind, wp_bind, wp_self]
  dsimp only
  rw [hdoc]
  dsimp only
  rw [wp_pure, wp_bind, wp_verdict]
  have hmode : exportMode (s.publishedUpTo.get? doc) .full = .allUpdates := rfl
  rw [hmode, hexport]
  dsimp only [Except.mapError]
  rw [wp_bind, wp_self]
  refine (encryptKeyed_keyable hsteady hkeyable content _).seq (fun r p hends => ?_) fun _ _ => id
  obtain ⟨chunk, ops⟩ := r
  obtain ⟨⟨secret, hchunk⟩, honward, hsame⟩ := hends
  obtain ⟨hbelongings, hbooks⟩ := Prod.mk.inj hsame
  obtain ⟨-, hmanifest⟩ := Prod.mk.inj hbelongings
  obtain ⟨-, hversions⟩ := Prod.mk.inj hbooks
  dsimp only
  rw [wp_bind, wp_update, wp_bind, wp_self, wp_pure]
  refine ⟨⟨?_, honward.keyable, honward.docs, honward.secret⟩, hmanifest, ops, chunk,
    Loro.oplogVv replica, ⟨content, secret, hexport, hchunk⟩, ?_, ?_⟩
  · obtain ⟨ops', hrekeyed⟩ := honward.rekeyed
    exact ⟨ops', hrekeyed.cgka, hrekeyed.namespaceEpoch, hrekeyed.namespaceTicket,
      hrekeyed.executedHere⟩
  · show p.1.publishedUpTo.set doc _ = _
    rw [show p.1.publishedUpTo = s.publishedUpTo from hversions]
  · show _ ++ [Effect.storeChunk (WorkspaceSecret.storageKey p.1.secret doc) doc chunk] = _
    rw [honward.secret]

/-- What announcing a document again comes to: nothing is to be done, or all of it is
published. -/
def Refilled (s : WorkspaceState) (doc : DocumentUuid) (effects : List Effect)
    (p : WorkspaceState × Rng) : Prop :=
  Onward s p.1 ∧ p.1.manifest = s.manifest ∧
    (effects = [] ∧ p.1.publishedUpTo = s.publishedUpTo ∧
        (s.docs.get? doc = none ∨ (s.publishedUpTo.get? doc).isSome) ∨
      ∃ (replica later : LoroDoc) (ops : List ControlOp) (chunk : Chunk OpHash) (version : Bytes),
        s.docs.get? doc = some replica ∧ Committed replica later ∧ Wholly later chunk ∧
        p.1.publishedUpTo = s.publishedUpTo.set doc version ∧
        effects = ops.map Effect.broadcast ++
          [.storeChunk (WorkspaceSecret.storageKey s.secret doc) doc chunk])

theorem onResync_refills (hsteady : Steady) (hkeyable : Keyable s.cgka.cgka) (doc : DocumentUuid) :
    Wp (onResync doc) (Refilled s doc) (fun _ p => p = (s, rng) ∧ ¬ s.CanWrite) (s, rng) := by
  unfold onResync
  refine (requireWrite_spec s rng).seq (fun _ p hends => ?_)
    fun _ _ hfailed => ⟨hfailed.1, hfailed.2.2⟩
  obtain ⟨rfl, -⟩ := hends
  rw [wp_bind, wp_self]
  dsimp only
  cases hdoc : s.docs.get? doc with
  | none => exact ⟨.refl hkeyable, rfl, Or.inl ⟨rfl, rfl, Or.inl hdoc⟩⟩
  | some replica =>
      rw [if_neg (by simp), wp_bind]
      unfold isPublished
      rw [wp_bind, wp_self, hdoc]
      cases hversion : s.publishedUpTo.get? doc with
      | none =>
          refine (publishKeyed_full hsteady hkeyable hdoc).mono (fun effects p hends => ?_)
            fun _ _ => False.elim
          obtain ⟨honward, hmanifest, ops, chunk, version, hwhole, hset, heffects⟩ := hends
          exact ⟨honward, hmanifest, Or.inr
            ⟨replica, replica, ops, chunk, version, hdoc, .same, hwhole, hset, heffects⟩⟩
      | some published =>
          dsimp only
          rw [wp_bind, wp_update, wp_pure]
          have hflushed : Onward s
              { s with docs := s.docs.set doc (Loro.commit replica) } := by
            refine ⟨⟨[], .of_same rfl rfl rfl rfl⟩, hkeyable, fun doc' => ?_, rfl⟩
            show _ ∧ (s.docs.set doc (Loro.commit replica)).get? doc' = none ∨ _
            rw [BTreeMap.get?_set]
            by_cases hhere : doc' = doc
            · subst hhere
              exact Or.inr ⟨replica, _, hdoc, by simp, .commit .same⟩
            · rw [if_neg hhere]
              exact same_docs rfl doc'
          split_ifs with hcurrent
          · exact ⟨hflushed, rfl, Or.inl ⟨rfl, rfl, Or.inr (by rw [hversion]; rfl)⟩⟩
          · have hflush : ({ s with docs := s.docs.set doc (Loro.commit replica) } :
                WorkspaceState).docs.get? doc = some (Loro.commit replica) := by
              show (s.docs.set doc _).get? doc = _
              rw [BTreeMap.get?_set, if_pos rfl]
            refine (publishKeyed_full hsteady hflushed.keyable hflush).mono
              (fun effects p hends => ?_) fun _ _ => False.elim
            obtain ⟨honward, hmanifest, ops, chunk, version, hwhole, hset, heffects⟩ := hends
            exact ⟨hflushed.trans honward, hmanifest, Or.inr ⟨replica, _, ops, chunk, version, hdoc,
              .commit .same, hwhole, hset, heffects⟩⟩

/-- The chunk holds a manifest. -/
def ManifestIn (m : Manifest) (chunk : Chunk OpHash) : Prop :=
  ∃ content secret, Loro.exportAs .snapshot (Loro.commit m) = .ok content ∧
    Beekem.tryEncrypt secret content = some chunk

theorem publishManifest_fills (hsteady : Steady) (hkeyable : Keyable s.cgka.cgka) :
    Wp (publishManifest .current)
      (fun effects p => Onward s p.1 ∧ p.1.publishedUpTo = s.publishedUpTo ∧
        ∃ (ops : List ControlOp) (chunk : Chunk OpHash), ManifestIn s.manifest chunk ∧
          effects = ops.map Effect.broadcast ++
            [.storeManifest (WorkspaceSecret.manifestKey s.secret) chunk])
      (fun _ _ => False) (s, rng) := by
  obtain ⟨content, hexport⟩ := hsteady.exports .snapshot (Loro.commit s.manifest)
  unfold publishManifest onManifest Manifest.exportSnapshot
  rw [wp_bind, wp_zoom, wp_bind, wp_modify, wp_bind, wp_get, wp_verdict, hexport]
  dsimp only [Except.mapError]
  have hcommitted : Onward s { s with manifest := Loro.commit s.manifest } :=
    ⟨⟨[], .of_same rfl rfl rfl rfl⟩, hkeyable, same_docs rfl, rfl⟩
  refine (encryptKeyed_keyable (s := { s with manifest := Loro.commit s.manifest }) hsteady
    hkeyable content []).seq (fun r p hends => ?_) fun _ _ => id
  obtain ⟨chunk, ops⟩ := r
  obtain ⟨⟨secret, hchunk⟩, honward, hsame⟩ := hends
  obtain ⟨-, hbooks⟩ := Prod.mk.inj hsame
  obtain ⟨-, hversions⟩ := Prod.mk.inj hbooks
  dsimp only
  rw [wp_bind, wp_self, wp_pure]
  refine ⟨hcommitted.trans honward, hversions, ops, chunk, ⟨content, secret, hexport, hchunk⟩, ?_⟩
  rw [honward.secret]

theorem republishNamespace_fills (hsteady : Steady) (hkeyable : Keyable s.cgka.cgka) :
    Wp (republishNamespace .current)
      (fun effects p => Onward s p.1 ∧ p.1.publishedUpTo = s.publishedUpTo ∧
        (effects = [] ∨ ∃ (ops : List ControlOp) (chunk : Chunk OpHash) (epoch : U32),
          effects = ops.map Effect.broadcast ++ [.publishNamespace epoch chunk]))
      (fun _ _ => False) (s, rng) := by
  unfold republishNamespace
  rw [wp_bind, wp_self]
  split_ifs
  · exact ⟨.refl hkeyable, rfl, Or.inl rfl⟩
  · refine (encryptKeyed_keyable hsteady hkeyable s.namespaceTicket []).seq
      (fun r p hends => ?_) fun _ _ => id
    obtain ⟨chunk, ops⟩ := r
    obtain ⟨-, honward, hsame⟩ := hends
    obtain ⟨-, hbooks⟩ := Prod.mk.inj hsame
    obtain ⟨-, hversions⟩ := Prod.mk.inj hbooks
    exact ⟨honward, hversions, Or.inr ⟨ops, chunk, _, rfl⟩⟩

end WorkspaceState

/-! ## What performing it puts into the index -/

/-- The effects that only send a message. -/
def Effect.isMessage : Effect → Bool
  | .broadcastOp _ _ | .broadcastCerts _ | .publishNamespace _ _ => true
  | _ => false

theorem isMessage_broadcasts (ops : List ControlOp) :
    ∀ effect ∈ ops.map Effect.broadcast, effect.isMessage = true := by
  intro effect hmem
  obtain ⟨op, -, rfl⟩ := List.mem_map.mp hmem
  rfl

/-- The entries of the replica in use. -/
def Hub.index (h : Hub) : Option (Entries Bytes32 UInt8 (Bytes32 × Nat)) :=
  (h.replicas h.inUse).map Stores.entries

namespace Pump

variable [LawfulStores] [LawfulBeekem] {inner : HubInner} {h : Hub}
  {e : Entries Bytes32 UInt8 (Bytes32 × Nat)}

omit [LawfulStores] [LawfulBeekem] in
theorem Untouched.index {h' : Hub} (huntouched : Untouched h h') : h'.index = h.index := by
  unfold Hub.index
  rw [huntouched.replicas, huntouched.inUse]

/-- A chunk was indexed in the replica in use, and nothing else happened. -/
structure Puts (author key : Bytes32) (chunk : Chunk OpHash)
    (e : Entries Bytes32 UInt8 (Bytes32 × Nat)) (h h' : Hub) : Prop where
  core : h'.core = h.core
  inUse : h'.inUse = h.inUse
  outcomes : h'.outcomes = []
  index : ∃ stored, payload chunk = .ok stored ∧
    h'.index = some (e.put author key.toBytes stored)

theorem storeChunk_indexes (hwrites : Writes) (hpayloads : Payloads) (key : Bytes32)
    (chunk : Chunk OpHash) (hdone : h.outcomes = []) (hindex : h.index = some e) :
    Wp (storeChunk inner key chunk)
      (fun r h' => r = .ok () ∧ Puts inner.author key chunk e h h') (fun _ _ => False) h := by
  obtain ⟨stored, hpayload⟩ := hpayloads chunk
  obtain ⟨d, hd, rfl⟩ := Option.map_eq_some_iff.mp hindex
  obtain ⟨d', hrun, hentries⟩ := storeChunk_puts hwrites hpayload inner.author key d
  have hput : Puts inner.author key chunk (Stores.entries d) h { h with
      replicas := Function.update h.replicas h.inUse (some d') } := by
    refine ⟨rfl, rfl, hdone, stored, hpayload, ?_⟩
    show Option.map _ (Function.update h.replicas h.inUse (some d') h.inUse) = _
    rw [Function.update_self, Option.map_some, hentries]
  unfold storeChunk onIndex
  rw [wp_bind, wp_outside_done hdone, hd]
  dsimp only
  rw [hrun]
  dsimp only
  rw [wp_bind]
  refine (sends_broadcast _ _ hput.outcomes).mono (fun _ h' huntouched => ?_) fun _ _ => id
  refine ⟨rfl, huntouched.core.trans hput.core, huntouched.inUse.trans hput.inUse,
    huntouched.outcomes.trans hput.outcomes, ?_⟩
  rw [huntouched.index]
  exact hput.index

variable {again : List Effect → Pump Unit}

/-- An effect that only sends a message touches nothing. -/
theorem sends_perform {effect : Effect} (hmessage : effect.isMessage = true) :
    Sends (perform inner again effect) := by
  cases effect with
  | broadcastOp op proof => exact .bind (sends_broadcast _) fun _ => sends_reporting _ _
  | broadcastCerts certs => exact .bind (sends_broadcast _) fun _ => sends_reporting _ _
  | publishNamespace epoch chunk => exact .bind (sends_broadcast _) fun _ => sends_reporting _ _
  | _ => exact absurd hmessage (by simp [Effect.isMessage])

/-- Messages come first, and touch nothing. -/
theorem performAll_messages {before rest : List Effect}
    (hbefore : ∀ effect ∈ before, effect.isMessage = true) {Q : Unit → Hub → Prop}
    (hdone : h.outcomes = [])
    (hrest : ∀ h', Untouched h h' → Wp (performAll inner again rest) Q (fun _ _ => False) h') :
    Wp (performAll inner again (before ++ rest)) Q (fun _ _ => False) h := by
  induction before generalizing h with
  | nil => exact hrest h (.refl h)
  | cons effect before ih =>
      have hhead : Sends (perform inner again effect) :=
        sends_perform (hbefore effect List.mem_cons_self)
      refine (hhead h hdone).seq (fun _ h₁ huntouched => ?_) fun _ _ => id
      exact ih (fun effect' hmem => hbefore effect' (List.mem_cons_of_mem _ hmem))
        (huntouched.outcomes.trans hdone) fun h' hthen => hrest h' (huntouched.trans hthen)

/-- A chunk that was published is indexed. -/
theorem performAll_stores (hwrites : Writes) (hpayloads : Payloads) (ops : List ControlOp)
    {last : Effect} {key : Bytes32} {chunk : Chunk OpHash}
    (hlast : (∃ doc, last = .storeChunk key doc chunk) ∨ last = .storeManifest key chunk)
    (hdone : h.outcomes = []) (hindex : h.index = some e) :
    Wp (performAll inner again (ops.map Effect.broadcast ++ [last]))
      (fun _ h' => Puts inner.author key chunk e h h') (fun _ _ => False) h := by
  refine performAll_messages (isMessage_broadcasts ops) hdone fun h₁ huntouched => ?_
  have hstored : Wp (storeChunk inner key chunk)
      (fun r h' => r = .ok () ∧ Puts inner.author key chunk e h₁ h') (fun _ _ => False) h₁ :=
    storeChunk_indexes hwrites hpayloads key chunk (huntouched.outcomes.trans hdone)
      (huntouched.index.trans hindex)
  have hputs : ∀ h', Puts inner.author key chunk e h₁ h' → Puts inner.author key chunk e h h' :=
    fun h' hputs => ⟨hputs.core.trans huntouched.core, hputs.inUse.trans huntouched.inUse,
      hputs.outcomes, hputs.index⟩
  rcases hlast with ⟨doc, rfl⟩ | rfl
  · refine Wp.seq (hstored.seq (R := fun _ h' => Puts inner.author key chunk e h h')
      (fun r h' hends => ?_) fun _ _ => id) (fun _ _ => id) fun _ _ => id
    obtain ⟨rfl, hends⟩ := hends
    exact hputs h' hends
  · refine Wp.seq (hstored.seq (R := fun _ h' => Puts inner.author key chunk e h h')
      (fun r h' hends => ?_) fun _ _ => id) (fun _ _ => id) fun _ _ => id
    obtain ⟨rfl, hends⟩ := hends
    exact hputs h' hends

end Pump

/-! ## Filling the replica -/

/-- The entry under a key names a chunk of this kind. -/
def NamesChunk (author : Bytes32) (e : Entries Bytes32 UInt8 (Bytes32 × Nat)) (key : Bytes32)
    (kind : Chunk OpHash → Prop) : Prop :=
  ∃ chunk stored, kind chunk ∧ payload chunk = .ok stored ∧ e author key.toBytes = some stored

/-- The chunk holds all of a document that this state has. -/
def DocumentIn (s : WorkspaceState) (doc : DocumentUuid) (chunk : Chunk OpHash) : Prop :=
  ∃ replica later, s.docs.get? doc = some replica ∧ Committed replica later ∧ Wholly later chunk

/-- Among the keys of a workspace, a write shows at its own key only. -/
theorem put_slot {secret author other : Bytes32} (hsecret : Separates secret) (slot other' : Slot)
    (stored : Bytes32 × Nat) (e : Entries Bytes32 UInt8 (Bytes32 × Nat)) :
    e.put author (slot.key secret).toBytes stored other (other'.key secret).toBytes =
      if other = author ∧ other' = slot then some stored
      else e other (other'.key secret).toBytes := by
  rw [Entries.put_apply ((length_keyBytes _).trans (length_keyBytes _).symm)]
  simp only [hsecret.bytes_eq_iff]

/-- Among the keys of a workspace, a write keeps what the other keys name. -/
theorem NamesChunk.put {secret author : Bytes32} (hsecret : Separates secret) {slot written : Slot}
    {kind : Chunk OpHash → Prop} {e : Entries Bytes32 UInt8 (Bytes32 × Nat)}
    (h : NamesChunk author e (slot.key secret) kind) (hother : slot ≠ written)
    (stored : Bytes32 × Nat) :
    NamesChunk author (e.put author (written.key secret).toBytes stored) (slot.key secret)
      kind := by
  obtain ⟨chunk, entry, hkind, hpayload, hentry⟩ := h
  refine ⟨chunk, entry, hkind, hpayload, ?_⟩
  rw [put_slot hsecret, if_neg fun hhere => hother hhere.2]
  exact hentry

/-- While the replica is filled: the documents that count as published are there as a whole,
and no other entry has changed. -/
structure Filling (inner : HubInner) (s : WorkspaceState) (place : Bytes32)
    (begun : Entries Bytes32 UInt8 (Bytes32 × Nat)) (h : Hub) : Prop where
  outcomes : h.outcomes = []
  inUse : h.inUse = place
  onward : Onward s h.core.1
  manifest : h.core.1.manifest = s.manifest
  entries : ∃ e, h.index = some e ∧
    (∀ doc, (h.core.1.publishedUpTo.get? doc).isSome →
      NamesChunk inner.author e ((Slot.document doc).key s.secret) (DocumentIn s doc)) ∧
    ∀ other (slot : Slot), (other ≠ inner.author ∨ ∀ doc, slot ≠ .document doc) →
      e other (slot.key s.secret).toBytes = begun other (slot.key s.secret).toBytes

/-- What the replica has in the end, beside what it began with: the manifest, and all of every
document on the manifest. -/
structure Filled (inner : HubInner) (s : WorkspaceState)
    (begun e : Entries Bytes32 UInt8 (Bytes32 × Nat)) : Prop where
  documents : ∀ entry ∈ s.manifest.files, (s.docs.get? entry.uuid).isSome →
    NamesChunk inner.author e ((Slot.document entry.uuid).key s.secret) (DocumentIn s entry.uuid)
  manifest : NamesChunk inner.author e (Slot.manifest.key s.secret) (ManifestIn s.manifest)
  others : ∀ other (slot : Slot),
    (other ≠ inner.author ∨ slot ≠ .manifest ∧ ∀ doc, slot ≠ .document doc) →
    e other (slot.key s.secret).toBytes = begun other (slot.key s.secret).toBytes

/-- A state that has moved and can publish: nothing counts as published any more. -/
structure Moved (s : WorkspaceState) : Prop where
  separates : Separates s.secret
  canWrite : s.CanWrite
  keyable : Keyable s.cgka.cgka
  forgot : s.publishedUpTo = .empty

/-- The replica in use is filled, and the node can go on. -/
structure Full (inner : HubInner) (s : WorkspaceState) (place : Bytes32)
    (begun : Entries Bytes32 UInt8 (Bytes32 × Nat)) (h : Hub) : Prop where
  outcomes : h.outcomes = []
  inUse : h.inUse = place
  keyable : Keyable h.core.1.cgka.cgka
  filled : ∃ e, h.index = some e ∧ Filled inner s begun e

section Untouched

variable {inner : HubInner} {s : WorkspaceState} {place : Bytes32} {h h' : Hub}
  {begun : Entries Bytes32 UInt8 (Bytes32 × Nat)}

theorem Filling.untouched (hfilling : Filling inner s place begun h) (h₁ : Pump.Untouched h h') :
    Filling inner s place begun h' := by
  obtain ⟨e, hindex, hentries⟩ := hfilling.entries
  refine ⟨h₁.outcomes.trans hfilling.outcomes, h₁.inUse.trans hfilling.inUse, ?_, ?_, e,
    h₁.index.trans hindex, ?_⟩
  · rw [h₁.core]
    exact hfilling.onward
  · rw [h₁.core]
    exact hfilling.manifest
  · rw [h₁.core]
    exact hentries

theorem Full.untouched (hfull : Full inner s place begun h) (h₁ : Pump.Untouched h h') :
    Full inner s place begun h' := by
  obtain ⟨e, hindex, hfilled⟩ := hfull.filled
  refine ⟨h₁.outcomes.trans hfull.outcomes, h₁.inUse.trans hfull.inUse, ?_, e,
    h₁.index.trans hindex, hfilled⟩
  rw [h₁.core]
  exact hfull.keyable

end Untouched

namespace Pump

variable [LawfulStores] [LawfulBeekem] {inner : HubInner} {h : Hub} {s : WorkspaceState}
  {place : Bytes32} {begun : Entries Bytes32 UInt8 (Bytes32 × Nat)}
  {again : List Effect → Pump Unit}

/-- An event fed to the state machine, and its effects performed. -/
def offered (inner : HubInner) (again : List Effect → Pump Unit) (call : Call) : Pump Unit := do
  let effects ← consultOrNothing call
  performAll inner again effects

/-- One document is announced again. -/
theorem offered_resync (hsteady : Steady) (hwrites : Writes) (hpayloads : Payloads)
    (hsecret : Separates s.secret) (hcan : s.CanWrite) (doc : DocumentUuid) (time : UnixSeconds)
    (hfilling : Filling inner s place begun h) :
    Wp (offered inner again (.handle (.resync doc) time))
      (fun _ h' => Filling inner s place begun h' ∧
        ((s.docs.get? doc).isSome → (h'.core.1.publishedUpTo.get? doc).isSome) ∧
        ∀ other, (h.core.1.publishedUpTo.get? other).isSome →
          (h'.core.1.publishedUpTo.get? other).isSome)
      (fun _ _ => False) h := by
  obtain ⟨ops₀, hrekeyed₀⟩ := hfilling.onward.rekeyed
  obtain ⟨e, hindex, hdocuments, hothers⟩ := hfilling.entries
  unfold offered
  rw [wp_bind, wp_consultOrNothing]
  refine Wp.mono (onResync_refills hsteady hfilling.onward.keyable doc)
    (fun effects p hrefilled => ?_) fun _ _ hrefused => absurd (hcan.rekeyed hrekeyed₀) hrefused.2
  obtain ⟨honward, hmanifest, hdone | hpublished⟩ := hrefilled
  · obtain ⟨rfl, hsame, hreason⟩ := hdone
    refine ⟨⟨hfilling.outcomes, hfilling.inUse, hfilling.onward.trans honward,
      hmanifest.trans hfilling.manifest, e, hindex, ?_, hothers⟩, ?_, ?_⟩
    · intro other hother
      rw [show p.1.publishedUpTo = _ from hsame] at hother
      exact hdocuments other hother
    · intro hheld
      show (p.1.publishedUpTo.get? doc).isSome
      rw [hsame]
      rcases hreason with hnone | hsome
      · rcases hfilling.onward.docs doc with ⟨hmissing, -⟩ | ⟨_, later, -, hlater, -⟩
        · rw [hmissing] at hheld
          exact absurd hheld (by simp)
        · exact absurd (hnone.symm.trans hlater) (by simp)
      · exact hsome
    · intro other hother
      show (p.1.publishedUpTo.get? other).isSome
      rw [hsame]
      exact hother
  · obtain ⟨replica, later, ops, chunk, version, hdoc, hcommitted, hwhole, hset, rfl⟩ := hpublished
    refine Wp.mono (performAll_stores hwrites hpayloads ops (Or.inl ⟨doc, rfl⟩) hfilling.outcomes
      hindex) (fun _ h' hputs => ?_) fun _ _ => id
    obtain ⟨stored, hpayload, hindex'⟩ := hputs.index
    have hkey : WorkspaceSecret.storageKey h.core.1.secret doc =
        Slot.key s.secret (.document doc) := by
      rw [hfilling.onward.secret]
      rfl
    rw [hkey] at hindex'
    -- the replica the state has now has come from the one it began with
    have hin : DocumentIn s doc chunk := by
      rcases hfilling.onward.docs doc with ⟨-, hnone⟩ | ⟨first, current, hfirst, hcurrent, hpast⟩
      · exact absurd (hnone.symm.trans hdoc) (by simp)
      · obtain rfl := Option.some.inj (hcurrent.symm.trans hdoc)
        exact ⟨first, later, hfirst, hpast.trans hcommitted, hwhole⟩
    have hbooks : ∀ other, (h'.core.1.publishedUpTo.get? other).isSome ↔
        other = doc ∨ (h.core.1.publishedUpTo.get? other).isSome := by
      intro other
      rw [hputs.core]
      show (p.1.publishedUpTo.get? other).isSome ↔ _
      rw [hset, BTreeMap.get?_set]
      by_cases hhere : other = doc
      · simp [hhere]
      · simp [hhere]
    have hcore : h'.core = p := hputs.core
    refine ⟨⟨hputs.outcomes, hputs.inUse.trans hfilling.inUse, ?_, ?_, _, hindex', ?_, ?_⟩, ?_, ?_⟩
    · rw [hcore]
      exact hfilling.onward.trans honward
    · rw [hcore]
      exact hmanifest.trans hfilling.manifest
    · intro other hother
      by_cases hhere : other = doc
      · subst hhere
        exact ⟨chunk, stored, hin, hpayload, by rw [put_slot hsecret, if_pos ⟨rfl, rfl⟩]⟩
      · refine (hdocuments other (((hbooks other).mp hother).resolve_left hhere)).put hsecret ?_ _
        exact fun hslot => hhere (Slot.document.inj hslot)
    · intro other slot hout
      rw [put_slot hsecret, if_neg]
      · exact hothers other slot hout
      · rintro ⟨rfl, rfl⟩
        exact hout.elim (fun hne => hne rfl) fun hnot => hnot doc rfl
    · exact fun _ => (hbooks doc).mpr (Or.inl rfl)
    · exact fun other hother => (hbooks other).mpr (Or.inr hother)

/-- Every document is announced again, one after another. -/
theorem offerAll_fills (hsteady : Steady) (hwrites : Writes) (hpayloads : Payloads)
    (hsecret : Separates s.secret) (hcan : s.CanWrite) (docs : List DocumentUuid)
    (hfilling : Filling inner s place begun h) :
    Wp (offerAll (performAll inner again) (docs.map Event.resync))
      (fun _ h' => Filling inner s place begun h' ∧
        (∀ doc ∈ docs, (s.docs.get? doc).isSome → (h'.core.1.publishedUpTo.get? doc).isSome) ∧
        ∀ other, (h.core.1.publishedUpTo.get? other).isSome →
          (h'.core.1.publishedUpTo.get? other).isSome)
      (fun _ _ => False) h := by
  induction docs generalizing h with
  | nil => exact ⟨hfilling, by simp, fun _ => id⟩
  | cons doc docs ih =>
      refine (sends_now h hfilling.outcomes).seq (fun time h₁ huntouched => ?_) fun _ _ => id
      have hfilling₁ : Filling inner s place begun h₁ := hfilling.untouched huntouched
      rw [← bind_assoc]
      refine (offered_resync hsteady hwrites hpayloads hsecret hcan doc time hfilling₁).seq
        (fun _ h₂ hends => ?_) fun _ _ => id
      obtain ⟨hfilling₂, hhead, hkept⟩ := hends
      refine (ih hfilling₂).mono (fun _ h' hrest => ?_) fun _ _ => id
      obtain ⟨hfilling', htail, hkept'⟩ := hrest
      rw [huntouched.core] at hkept
      refine ⟨hfilling', fun other hmem hheld => ?_, fun other hother =>
        hkept' other (hkept other hother)⟩
      rcases List.mem_cons.mp hmem with rfl | hmem
      · exact hkept' other (hhead hheld)
      · exact htail other hmem hheld

/-- The manifest is announced again. -/
theorem offered_manifest (hsteady : Steady) (hwrites : Writes) (hpayloads : Payloads)
    (hsecret : Separates s.secret) (time : UnixSeconds) (hfilling : Filling inner s place begun h)
    (hdocs : ∀ entry ∈ s.manifest.files, (s.docs.get? entry.uuid).isSome →
      (h.core.1.publishedUpTo.get? entry.uuid).isSome) :
    Wp (offered inner again (.handle .resyncManifest time))
      (fun _ h' => Full inner s place begun h') (fun _ _ => False) h := by
  obtain ⟨e, hindex, hdocuments, hothers⟩ := hfilling.entries
  unfold offered
  rw [wp_bind, wp_consultOrNothing]
  refine Wp.mono (publishManifest_fills hsteady hfilling.onward.keyable)
    (fun effects p hends => ?_) fun _ _ => False.elim
  obtain ⟨honward, -, ops, chunk, hchunk, rfl⟩ := hends
  refine Wp.mono (performAll_stores hwrites hpayloads ops (Or.inr rfl) hfilling.outcomes
    hindex) (fun _ h' hputs => ?_) fun _ _ => id
  obtain ⟨stored, hpayload, hindex'⟩ := hputs.index
  have hkey : WorkspaceSecret.manifestKey h.core.1.secret = Slot.key s.secret .manifest := by
    rw [hfilling.onward.secret]
    rfl
  rw [hkey] at hindex'
  rw [hfilling.manifest] at hchunk
  have hcore : h'.core = p := hputs.core
  refine ⟨hputs.outcomes, hputs.inUse.trans hfilling.inUse, ?_, _, hindex', ?_, ?_, ?_⟩
  · rw [hcore]
    exact honward.keyable
  · intro entry hentry hheld
    exact (hdocuments entry.uuid (hdocs entry hentry hheld)).put hsecret (by simp) _
  · exact ⟨chunk, stored, hchunk, hpayload, by rw [put_slot hsecret, if_pos ⟨rfl, rfl⟩]⟩
  · intro other slot hout
    rw [put_slot hsecret, if_neg]
    · exact hothers other slot (hout.imp_right fun hboth => hboth.2)
    · rintro ⟨rfl, rfl⟩
      exact hout.elim (fun hne => hne rfl) fun hboth => hboth.1 rfl

/-- Nothing but messages comes of announcing the namespace and the certificates again. -/
theorem offered_messages {call : Call} (hcall : ∀ p : WorkspaceState × Rng,
      Keyable p.1.cgka.cgka → Wp call.run (fun effects p' => Keyable p'.1.cgka.cgka ∧
        ∀ effect ∈ effects, effect.isMessage = true) (fun _ _ => False) p)
    (hfull : Full inner s place begun h) :
    Wp (offered inner again call) (fun _ h' => Full inner s place begun h')
      (fun _ _ => False) h := by
  unfold offered
  rw [wp_bind, wp_consultOrNothing]
  refine (hcall h.core hfull.keyable).mono (fun effects p hends => ?_) fun _ _ => False.elim
  rw [← List.append_nil effects]
  refine performAll_messages hends.2 hfull.outcomes fun h' huntouched => ?_
  obtain ⟨e, hindex, hfilled⟩ := hfull.filled
  refine ⟨huntouched.outcomes.trans hfull.outcomes, huntouched.inUse.trans hfull.inUse, ?_, e,
    huntouched.index.trans hindex, hfilled⟩
  rw [huntouched.core]
  exact hends.1

/-- What is announced once is announced again. -/
theorem offerAll_announcedOnce (hsteady : Steady) (hwrites : Writes) (hpayloads : Payloads)
    (hsecret : Separates s.secret) (hfilling : Filling inner s place begun h)
    (hdocs : ∀ entry ∈ s.manifest.files, (s.docs.get? entry.uuid).isSome →
      (h.core.1.publishedUpTo.get? entry.uuid).isSome) :
    Wp (offerAll (performAll inner again) announcedOnce)
      (fun _ h' => Full inner s place begun h') (fun _ _ => False) h := by
  refine (sends_now h hfilling.outcomes).seq (fun time h₁ huntouched₁ => ?_) fun _ _ => id
  have hfilling₁ : Filling inner s place begun h₁ := hfilling.untouched huntouched₁
  rw [← huntouched₁.core] at hdocs
  rw [← bind_assoc]
  refine (offered_manifest hsteady hwrites hpayloads hsecret time hfilling₁ hdocs).seq
    (fun _ h₂ hfull₂ => ?_) fun _ _ => id
  refine (sends_now h₂ hfull₂.outcomes).seq (fun time₂ h₃ huntouched₃ => ?_) fun _ _ => id
  rw [← bind_assoc]
  refine (offered_messages (fun p hkeyable => ?_) (hfull₂.untouched huntouched₃)).seq
    (fun _ h₄ hfull₄ => ?_) fun _ _ => id
  · refine Wp.mono (republishNamespace_fills hsteady hkeyable) (fun effects p' hends => ?_)
      fun _ _ => id
    refine ⟨hends.1.keyable, ?_⟩
    rcases hends.2.2 with rfl | ⟨ops, chunk, epoch, rfl⟩
    · simp
    · intro effect hmem
      rcases List.mem_append.mp hmem with hop | hlast
      · exact isMessage_broadcasts ops effect hop
      · rw [List.mem_singleton.mp hlast]
        rfl
  · refine (sends_now h₄ hfull₄.outcomes).seq (fun time₄ h₅ huntouched₅ => ?_) fun _ _ => id
    rw [← bind_assoc]
    refine (offered_messages (fun p hkeyable => ?_) (hfull₄.untouched huntouched₅)).seq
      (fun _ h₆ hfull₆ => hfull₆) fun _ _ => id
    exact ⟨hkeyable, by simp [Effect.isMessage]⟩

/-- Once nothing counts as published, the replica in use is filled. -/
theorem republish_fills (hsteady : Steady) (hwrites : Writes) (hpayloads : Payloads)
    (hmoved : Moved h.core.1) (hdone : h.outcomes = []) (hindex : h.index = some begun) :
    Wp (republish inner (performAll inner again))
      (fun _ h' => Full inner h.core.1 h.inUse begun h') (fun _ _ => False) h := by
  have hbegun : Filling inner h.core.1 h.inUse begun h := by
    refine ⟨hdone, rfl, .refl hmoved.keyable, rfl, begun, hindex, fun doc hdoc => ?_,
      fun _ _ _ => rfl⟩
    rw [hmoved.forgot, BTreeMap.get?_empty] at hdoc
    exact absurd hdoc (by simp)
  unfold republish
  rw [wp_bind, wp_get]
  have hevents : (h.core.1.manifest.files.map fun entry => Event.resync entry.uuid) =
      (h.core.1.manifest.files.map FileEntry.uuid).map Event.resync := by
    rw [List.map_map]
    rfl
  rw [hevents]
  refine (offerAll_fills hsteady hwrites hpayloads hmoved.separates hmoved.canWrite _ hbegun).seq
    (fun _ h₁ hends => ?_) fun _ _ => id
  refine (offerAll_announcedOnce hsteady hwrites hpayloads hmoved.separates hends.1
    fun entry hentry => hends.2.1 entry.uuid (List.mem_map_of_mem hentry)).seq
      (fun _ h₂ hfull => ?_) fun _ _ => id
  exact (sends_persist inner h₂ hfull.outcomes).mono (fun _ _ => hfull.untouched) fun _ _ => id

/-! ## Moving -/

/-- The replica of a ticket is there, as it was if the node had it. -/
theorem openOrImport_enters (chosen : DocTicket) (hdone : h.outcomes = []) :
    Wp (openOrImport chosen)
      (fun r h' => r = .ok () ∧ ∃ net entered,
        entered = (h.replicas (Surroundings.ticketId chosen)).getD
          (Surroundings.fetched chosen net).1 ∧
        h'.replicas = Function.update h.replicas (Surroundings.ticketId chosen) (some entered) ∧
        h'.core = h.core ∧ h'.inUse = h.inUse ∧ h'.blobs = h.blobs ∧ h'.outcomes = [])
      (fun _ _ => False) h := by
  unfold openOrImport
  rw [wp_bind, wp_outside_done hdone]
  cases hheld : h.replicas (Surroundings.ticketId chosen) with
  | some d =>
      refine ⟨rfl, h.net, d, rfl, ?_, rfl, rfl, rfl, hdone⟩
      rw [← hheld, Function.update_eq_self]
  | none =>
      dsimp only
      rw [if_neg (by simp [Except.toOption]), wp_outside_done hdone]
      exact ⟨rfl, h.net, _, rfl, rfl, rfl, rfl, rfl, hdone⟩

theorem carryAssets_carries {previous : Bytes32} {d entered : Stores.Doc}
    (hprevious : h.replicas previous = some d) (hentered : h.replicas h.inUse = some entered)
    (hdone : h.outcomes = []) :
    Wp (carryAssets inner previous)
      (fun _ h' => h'.core = h.core ∧ h'.inUse = h.inUse ∧ h'.outcomes = [] ∧
        ∃ carrying, Carries inner.author d h.blobs h.core.1.assetIndexKeys entered carrying ∧
          h'.index = some (Stores.entries carrying))
      (fun _ _ => False) h := by
  obtain ⟨count, carrying, hrun, hcarries⟩ := (reindexAssets_spec inner.author d h.blobs
    h.core.1.assetIndexKeys 0 entered).exists_ok
  unfold carryAssets onIndex
  rw [wp_bind, wp_get, hprevious]
  dsimp only
  rw [wp_bind, wp_outside_done hdone, hentered]
  dsimp only
  rw [hrun]
  refine ⟨rfl, rfl, hdone, carrying, hcarries, ?_⟩
  show Option.map _ (Function.update h.replicas h.inUse (some carrying) h.inUse) = _
  rw [Function.update_self, Option.map_some]

/-- What follows the carrying over: another replica is listened to, and nothing of the one
that was left is remembered. -/
def settle : Pump Unit := do
  let left ← outside fun h => (.ok (), h)
  reporting .notLeft left
  modify fun h => { h with seen := [] }
  let subscribed ← spawnDataLoop
  reporting .notSubscribed subscribed
  refreshDownloadPolicy

theorem sends_settle : Sends settle :=
  .bind (.outside fun h => .refl h) fun left => .bind (sends_reporting _ left) fun _ =>
    .bind (.change fun _ => ⟨rfl, rfl, rfl, rfl, rfl⟩) fun _ =>
      .bind (.outside fun _ => ⟨rfl, rfl, rfl, rfl, rfl⟩) fun subscribed =>
        .bind (sends_reporting _ subscribed) fun _ => sends_refreshDownloadPolicy

/-- The node has moved to the replica for writing: its assets were carried over, and it was
filled. -/
def Settled (inner : HubInner) (capability : NamespaceCapability) (d : Stores.Doc)
    (h h' : Hub) : Prop :=
  ∃ net entered carrying,
    entered = (h.replicas (Surroundings.ticketId capability.write)).getD
      (Surroundings.fetched capability.write net).1 ∧
    Carries inner.author d h.blobs h.core.1.assetIndexKeys entered carrying ∧
    Full inner h.core.1 (Surroundings.ticketId capability.write) (Stores.entries carrying) h'

theorem Untouched.settled {h₁ h' : Hub} {capability : NamespaceCapability} {d : Stores.Doc}
    (huntouched : Untouched h h₁) (hsettled : Settled inner capability d h₁ h') :
    Settled inner capability d h h' := by
  unfold Settled at hsettled ⊢
  rw [huntouched.core, huntouched.replicas, huntouched.blobs] at hsettled
  exact hsettled

/-- Whoever may write moves to the replica for writing, carries the assets over and fills it. -/
theorem adoptNamespace_fills (hsteady : Steady) (hwrites : Writes) (hpayloads : Payloads)
    (hmoved : Moved h.core.1) (hdone : h.outcomes = []) {ticket : Bytes}
    {capability : NamespaceCapability}
    (hdecode : Surroundings.decodeCapability ticket = .ok capability) {d : Stores.Doc}
    (hheld : h.replicas h.inUse = some d) :
    Wp (adoptNamespace inner (performAll inner again) ticket true)
      (fun _ h' => Settled inner capability d h h') (fun _ _ => False) h := by
  unfold adoptNamespace
  rw [hdecode]
  dsimp only
  rw [if_pos rfl]
  refine (openOrImport_enters capability.write hdone).seq (fun opened h₁ hopened => ?_)
    fun _ _ => id
  obtain ⟨rfl, net, entered, hentered, hreplicas, hcore, hinUse, hblobs, hdone₁⟩ := hopened
  dsimp only
  rw [wp_bind, wp_get, wp_bind, wp_modify]
  have hprevious : h₁.replicas h₁.inUse = some d := by
    rw [hreplicas, hinUse]
    by_cases hsame : h.inUse = Surroundings.ticketId capability.write
    · rw [hsame, Function.update_self, hentered, ← hsame, hheld, Option.getD_some]
    · rw [Function.update_of_ne hsame, hheld]
  have hthere : h₁.replicas (Surroundings.ticketId capability.write) = some entered := by
    rw [hreplicas, Function.update_self]
  refine Wp.seq (carryAssets_carries hprevious hthere hdone₁) (fun _ h₂ hcarried => ?_)
    fun _ _ => id
  obtain ⟨hcore₂, hinUse₂, hdone₂, carrying, hcarries, hindex₂⟩ := hcarried
  have hcarries : Carries inner.author d h.blobs h.core.1.assetIndexKeys entered carrying := by
    rw [← hcore, ← hblobs]
    exact hcarries
  have hrest : Wp (settle >>= fun _ => republish inner (performAll inner again))
      (fun _ h' => Settled inner capability d h h') (fun _ _ => False) h₂ := by
    refine (sends_settle h₂ hdone₂).seq (fun _ h₃ huntouched => ?_) fun _ _ => id
    have hcore₃ : h₃.core = h.core := huntouched.core.trans (hcore₂.trans hcore)
    have hmoved₃ : Moved h₃.core.1 := by
      rw [hcore₃]
      exact hmoved
    refine (republish_fills hsteady hwrites hpayloads hmoved₃ (huntouched.outcomes.trans hdone₂)
      (huntouched.index.trans hindex₂)).mono (fun _ h' hfull => ?_) fun _ _ => id
    rw [hcore₃, huntouched.inUse.trans hinUse₂] at hfull
    exact ⟨net, entered, carrying, hentered, hcarries, hfull⟩
  simpa only [settle, bind_assoc] using hrest

end Pump

/-- What calls a move, and that nothing but messages comes before it. -/
theorem Call.adopts_last [LawfulBeekem] {call : Call} {p core : WorkspaceState × Rng}
    {effects : List Effect} (hrun : call.run p = .ok effects core) {epoch : U32} {ticket : Bytes}
    (hadopts : (.adoptNamespace epoch ticket : Effect) ∈ effects) :
    ∃ before, effects = before ++ [.adoptNamespace epoch ticket] ∧
      ∀ effect ∈ before, effect.isMessage = true := by
  by_cases hcall : call.aboutNamespace = true
  · have hannounced := (call.announced hcall p.1 p.2).of_ok hrun
    cases hannounced with
    | still hrekeyed hsilent hpassed =>
        exact absurd (hsilent.quiet _ hadopts) (by simp [Effect.aboutNamespace])
    | again ops chunk hcall hrekeyed hticket hchunk =>
        rcases List.mem_append.mp hadopts with hop | hlast
        · exact absurd (isMessage_broadcasts ops _ hop) (by simp [Effect.isMessage])
        · exact absurd (List.mem_singleton.mp hlast) (by simp)
    | minted epoch' ticket' ops chunk =>
        rcases List.mem_append.mp hadopts with hop | hlast
        · exact absurd (isMessage_broadcasts ops _ hop) (by simp [Effect.isMessage])
        · obtain ⟨rfl, rfl⟩ : epoch = epoch' ∧ ticket = ticket' := by simpa using hlast
          refine ⟨ops.map Effect.broadcast ++ [.publishNamespace epoch chunk], ?_, ?_⟩
          · rw [List.append_assoc]
            rfl
          · intro effect hmem
            rcases List.mem_append.mp hmem with hop | hlast
            · exact isMessage_broadcasts ops effect hop
            · rw [List.mem_singleton.mp hlast]
              rfl
    | adopted epoch' ticket' =>
        obtain ⟨rfl, rfl⟩ : epoch = epoch' ∧ ticket = ticket' := by simpa using hadopts
        exact ⟨[], rfl, by simp⟩
  · obtain ⟨-, hbumps⟩ := (call.advances (by simpa using hcall) p.1 p.2).of_ok hrun
    obtain ⟨_, heq⟩ := hbumps.rotates _ hadopts rfl
    exact absurd heq (by simp)

/-- What is there of a state in a replica that was moved to: the manifest, all of every document
on the manifest, and the entries of its assets that the replica before had with their payloads;
and what others had there. -/
structure Circulates (inner : HubInner) (s : WorkspaceState) (previous : Stores.Doc)
    (blobs : Stores.Blobs) (entered : Stores.Doc)
    (e : Entries Bytes32 UInt8 (Bytes32 × Nat)) : Prop where
  documents : ∀ entry ∈ s.manifest.files, (s.docs.get? entry.uuid).isSome →
    NamesChunk inner.author e (WorkspaceSecret.storageKey s.secret entry.uuid)
      (DocumentIn s entry.uuid)
  manifest : NamesChunk inner.author e (WorkspaceSecret.manifestKey s.secret)
    (ManifestIn s.manifest)
  assets : ∀ entry ∈ s.manifest.files, ∀ version ∈ s.manifest.assetVersions entry.uuid,
    ∀ key ∈ versionKeys s.secret version, ∀ stored,
      servable previous blobs key.toBytes = some stored →
        e inner.author key.toBytes = some stored
  others : ∀ other (slot : Slot), other ≠ inner.author →
    e other (slot.key s.secret).toBytes =
      Stores.entries entered other (slot.key s.secret).toBytes

theorem slot_of_versionKeys {secret : Bytes32} {version : AssetVersion} {key : Bytes32}
    (hkey : key ∈ versionKeys secret version) : ∃ slot : Slot, slot.key secret = key ∧
      slot ≠ .manifest ∧ ∀ doc, slot ≠ .document doc := by
  rcases List.mem_cons.mp hkey with rfl | hpart
  · exact ⟨.assetKey version.content, rfl, by simp, by simp⟩
  · obtain ⟨part, -, rfl⟩ := List.mem_map.mp hpart
    exact ⟨.assetPart version.content (Fin.ofNat _ part), rfl, by simp, by simp⟩

end IrohBeekem

namespace IrohBeekem

open Library WorkspaceState

section Samples

section Spelling

variable {g g' : ListCgka} {op : Signed (CgkaOperation OpId)}

private theorem grows_spelling {added : List (Signed (CgkaOperation OpId))}
    (h : @Grows listBeekem g g' added) : @Grows spellingBeekem g g' added :=
  @Grows.mk spellingBeekem g g' added (@Grows.initAddOp listBeekem g g' added h)
    (@Grows.mem_graph listBeekem g g' added h)

private theorem before_spelling {first : Signed (CgkaOperation OpId)}
    (h : @Before listBeekem first op) : @Before spellingBeekem first op := by
  refine @Before.rec listBeekem first (fun last _ => @Before spellingBeekem first last)
    ?_ ?_ op h
  · exact fun hnames => @Before.direct spellingBeekem _ _ hnames
  · exact fun _ hnames ih => @Before.step spellingBeekem _ _ _ ih hnames

private theorem minted_spelling {signer : Bytes32} (h : @Minted listBeekem signer g op) :
    @Minted spellingBeekem signer g op :=
  @Minted.mk spellingBeekem signer g op (@Minted.issuer listBeekem _ _ _ h)
    (@Minted.verifies listBeekem _ _ _ h) (@Minted.fresh listBeekem _ _ _ h)
    (@Minted.predecessors listBeekem _ _ _ h)
    fun a ha => before_spelling (@Minted.after listBeekem _ _ _ h a ha)

/-- How inputs are hashed is no matter to the tree. -/
theorem spellingBeekem_lawful : @LawfulBeekem spellingBeekem :=
  letI := spellingBeekem
  have laws : @LawfulBeekem listBeekem := listBeekem_live.toLawfulBeekem
  { opHash_injective := laws.opHash_injective
    initAddOp_mem := laws.initAddOp_mem
    predecessors_mem := laws.predecessors_mem
    containsPredecessors_iff := laws.containsPredecessors_iff
    new_spec := laws.new_spec
    newFromInitAdd_spec := laws.newFromInitAdd_spec
    insertOwnerSk_spec := fun key secret g => grows_spelling (laws.insertOwnerSk_spec key secret g)
    withNewOwner_spec := fun memberId pk secret g g' h =>
      grows_spelling (laws.withNewOwner_spec memberId pk secret g g' h)
    add_spec := fun memberId key signer g => (laws.add_spec memberId key signer g).mono
      (fun _ _ h => ⟨grows_spelling h.1, fun o ho => (h.2 o ho).imp_left minted_spelling⟩)
      fun _ _ h => grows_spelling h
    remove_spec := fun memberId signer g => (laws.remove_spec memberId signer g).mono
      (fun _ _ h => ⟨grows_spelling h.1, fun o ho => (h.2 o ho).imp_left minted_spelling⟩)
      fun _ _ h => grows_spelling h
    update_spec := fun newKey newSecret signer g rng =>
      (laws.update_spec newKey newSecret signer g rng).mono
        (fun _ _ h => ⟨grows_spelling h.1, minted_spelling h.2.1, h.2.2⟩)
        fun _ _ h => grows_spelling h
    newAppSecretFor_spec := fun ref content predRefs signer g rng =>
      (laws.newAppSecretFor_spec ref content predRefs signer g rng).mono
        (fun _ _ h => ⟨grows_spelling h.1, fun o ho => (h.2 o ho).imp_left minted_spelling⟩)
        fun _ _ h => grows_spelling h
    mergeConcurrentOperation_spec := fun op g =>
      (laws.mergeConcurrentOperation_spec op g).mono
        (fun applied g' h => by
          cases applied with
          | true => exact ⟨h.1, grows_spelling h.2⟩
          | false => exact ⟨h.1, grows_spelling h.2⟩)
        fun _ _ h => grows_spelling h
    decryptionKeyFor_spec := fun chunk g => (laws.decryptionKeyFor_spec chunk g).mono
      (fun _ _ h => grows_spelling h) fun _ _ h => grows_spelling h }

theorem spellingKeyable (g : ListCgka) : @Keyable spellingBeekem g := by
  intro ref content predRefs signer rng
  change ∃ r p, ListCgka.newAppSecretFor ref content predRefs signer (g, rng) = .ok r p
  unfold ListCgka.newAppSecretFor
  cases hkeyed : ListCgka.keyed g with
  | none => exact ⟨_, _, rfl⟩
  | some key => exact ⟨_, _, rfl⟩

theorem spellingSteady : @Steady spellingBeekem listLoro :=
  letI := spellingBeekem
  letI := listLoro
  { encrypts := fun _ _ => ⟨_, rfl⟩
    keyable_update := fun _ _ _ _ _ _ _ => spellingKeyable _
    keyable_secret := fun _ _ _ _ _ _ _ _ => spellingKeyable _
    keyable_add := fun _ _ _ _ _ _ _ _ => spellingKeyable _
    merges := fun op g h => listBeekem_live.mergeConcurrentOperation_ok op g h
    exports := fun _ _ => ⟨_, rfl⟩
    inserts := @Steady.inserts listBeekem listLoro listSteady
    insertsContainer := @Steady.insertsContainer listBeekem listLoro listSteady
    commits := @Steady.commits listBeekem listLoro listSteady }

end Spelling

local instance circulatingKeyhive : Keyhive := transparentKeyhive

local instance circulatingBeekem : Beekem := spellingBeekem

local instance circulatingLawfulBeekem : LawfulBeekem := spellingBeekem_lawful

local instance circulatingLoro : Loro := listLoro

local instance circulatingPostcard : Postcard := blankPostcard

local instance circulatingStores : Stores := listStores

local instance circulatingLawful : LawfulStores := listStores_lawful

local instance circulatingTickets : DocTickets := ⟨Bytes32⟩

local instance circulatingWire : ChunkWire := ⟨fun _ => none⟩

/-- Surroundings in which every capability is for one replica, and a replica is taken in
empty. -/
local instance circulatingSurroundings : Surroundings where
  Net := Unit
  now net := (0, net)
  instant net := (⟨0⟩, net)
  create net := ((8, []), net)
  share id _ net := (id, net)
  ticketId id := id
  fetched _ net := ([], net)
  download _ _ net := (none, net)
  encodeCapability _ := .ok []
  decodeCapability _ := .ok ⟨(8 : Bytes32), (8 : Bytes32)⟩
  encodes _ := true

def circulatingInner : HubInner := ⟨5, blindedWorkspace.secret, 1, 6, true, ascendingOrder⟩

/-- A workspace with one document, which is on its manifest. -/
def circulatingHub : Hub where
  core := ({ blindedWorkspace with docs := BTreeMap.set .empty 4 Loro.new }, (0 : Nat))
  inUse := 7
  replicas := Function.update (fun _ => none) 7 (some [])
  blobs := []
  seen := []
  subscribed := 7
  policy _ := []
  roster := .empty
  repairCooldown := .new 0
  repairAnswerCooldown := .new 0
  evictionCooldown := .new 0
  sent := []
  reports := []
  saved := none
  net := ()
  outcomes := []

/-- A replica for the generation at hand has been made. -/
def circulatingCall : Call := .handle (.namespaceMinted 0 [1]) 0

theorem onNamespaceMinted_adopted {epoch : U32} (ticket : Bytes) {s : WorkspaceState} (rng : Rng)
    (hcurrent : epoch = s.namespaceEpoch.epoch) :
    Wp (onNamespaceMinted epoch ticket)
      (fun effects _ => (.adoptNamespace epoch ticket : Effect) ∈ effects) (fun _ _ => True)
      (s, rng) := by
  unfold onNamespaceMinted
  rw [wp_bind, wp_self]
  dsimp only
  rw [if_neg (not_not.mpr hcurrent), wp_bind]
  refine wp_of_run (fun r p _ => ?_) fun _ _ _ => trivial
  rw [wp_bind, wp_update, wp_pure]
  simp

end Samples

end IrohBeekem
