import IrohBeekem.Library.Keeps
import IrohBeekem.State.Shift

/-!
# What is recorded of publishing

For every document a node records the version it has published and how many deltas it
has published since a full export.  Of all that a node does only four things touch
these books: a publish, a deletion, a change of namespace, and a restart.  The handlers
that do none of it leave the books as they are (`aside`); a handler that publishes a
document issues one chunk of it (`Issues`).
-/

set_option linter.unusedSectionVars false

namespace IrohBeekem

open Library CgkaController

variable [Keyhive] [Beekem] [Loro] [Postcard]

/-- What a node has on record about what it published. -/
def WorkspaceState.record (s : WorkspaceState) :
    BTreeMap DocumentUuid Bytes × BTreeMap DocumentUuid Nat :=
  (s.publishedUpTo, s.deltasSinceFull)

/-- The record, as a part of what a program runs on. -/
def books (p : WorkspaceState × Rng) : BTreeMap DocumentUuid Bytes × BTreeMap DocumentUuid Nat :=
  p.1.record

/-- The chunks that wait, with what is counted about them. -/
def WorkspaceState.queue (s : WorkspaceState) : List Parked × Nat × Nat :=
  (s.pendingChunks, s.pendingBytes, s.evictedChunks)

/-- The record and the queue, which most programs have nothing to do with. -/
def ledgers (p : WorkspaceState × Rng) :
    (BTreeMap DocumentUuid Bytes × BTreeMap DocumentUuid Nat) × List Parked × Nat × Nat :=
  (p.1.record, p.1.queue)

theorem Library.Keeps.books {α : Type} {x : Run α} (h : Keeps ledgers x) :
    Keeps IrohBeekem.books x := h.map Prod.fst

theorem Library.Keeps.queue {α : Type} {x : Run α} (h : Keeps ledgers x) :
    Keeps (fun p : WorkspaceState × Rng => p.1.queue) x := h.map Prod.snd

namespace WorkspaceState

/-! ## Programs that leave the books and the queue alone -/

section Parts

variable {α : Type}

theorem self_aside : Keeps ledgers self := .bind .get fun _ => .pure _

theorem update_aside {f : WorkspaceState → WorkspaceState}
    (h : ∀ p : WorkspaceState × Rng, ledgers (f p.1, p.2) = ledgers p) : Keeps ledgers (update f) :=
  .modify h

theorem onCgka_aside (x : EStateM CoreError CgkaController α) : Keeps ledgers (onCgka x) := by
  unfold onCgka
  refine .zoom ?_ x
  exact fun _ _ => rfl

theorem onCgkaRng_aside (x : EStateM CoreError (CgkaController × Rng) α) :
    Keeps ledgers (onCgkaRng x) := by
  unfold onCgkaRng
  refine .zoom ?_ x
  exact fun _ _ => rfl

theorem onManifest_aside (x : EStateM CoreError Manifest α) : Keeps ledgers (onManifest x) := by
  unfold onManifest
  refine .zoom ?_ x
  exact fun _ _ => rfl

theorem onDoc_aside (doc : DocumentUuid) (rename : String → CoreError)
    (x : EStateM String LoroDoc α) : Keeps ledgers (onDoc doc rename x) := by
  unfold onDoc
  refine .zoom ?_ x
  exact fun _ _ => rfl

theorem randomNonce_aside : Keeps ledgers randomNonce := fun _ => rfl

theorem requireAdmin_aside : Keeps ledgers requireAdmin :=
  self_aside.bind fun _ => .ite (.pure _) (.throw _)

theorem requireQuorum_aside (action : AdminAction) : Keeps ledgers (requireQuorum action) :=
  requireAdmin_aside.bind fun _ => self_aside.bind fun _ =>
    .ite (.pure _) (.ite (.pure _) (.throw _))

theorem requireMayAddDeviceTo_aside (user : Bytes32) : Keeps ledgers (requireMayAddDeviceTo user) :=
  self_aside.bind fun _ => .ite (.pure _) (.throw _)

theorem requireNotLastAdmin_aside (user : Bytes32) : Keeps ledgers (requireNotLastAdmin user) :=
  self_aside.bind fun _ => .ite (.throw _) (.pure _)

/-- A check touches nothing. -/
theorem requireWrite_alone : Keeps id requireWrite := by
  refine (Keeps.bind .get fun _ => .pure _ : Keeps id self).bind fun s => ?_
  cases s.capabilities.roleOfMember s.memberId with
  | none => exact .pure _
  | some role => exact .ite (.throw _) (.pure _)

theorem requireWrite_aside : Keeps ledgers requireWrite := fun p =>
  (requireWrite_alone p).mono (fun _ _ h => congrArg ledgers h) fun _ _ h => congrArg ledgers h

theorem openDoc_aside (doc : DocumentUuid) : Keeps ledgers (openDoc doc) := by
  refine self_aside.bind fun s => ?_
  cases s.docs.get? doc with
  | some loro => exact .pure _
  | none => exact (update_aside fun _ => rfl).bind fun _ => .pure _

/-- Encrypting touches the controller and the generator. -/
theorem encryptKeyed_keeps {γ : Type} {part : WorkspaceState × Rng → γ}
    (h : ∀ (c : CgkaController) (s : WorkspaceState) (rng rng' : Rng),
      part ({ s with cgka := c }, rng') = part (s, rng))
    (plaintext : Bytes) (preds : List Bytes32) (keying : Keying) :
    Keeps part (encryptKeyed plaintext preds keying) := by
  have hrun : ∀ {α : Type} (x : EStateM CoreError (CgkaController × Rng) α),
      Keeps part (onCgkaRng x) := by
    intro α x
    unfold onCgkaRng
    refine .zoom ?_ x
    exact fun q p => h q.1 p.1 p.2 q.2
  cases keying with
  | current => exact (hrun _).bind fun _ => .pure _
  | fresh => exact hrun _

theorem encryptKeyed_aside (plaintext : Bytes) (preds : List Bytes32) (keying : Keying) :
    Keeps ledgers (encryptKeyed plaintext preds keying) :=
  encryptKeyed_keeps (fun _ _ _ _ => rfl) plaintext preds keying

end Parts

section Handlers

theorem publishManifest_aside (keying : Keying) : Keeps ledgers (publishManifest keying) :=
  (onManifest_aside _).bind fun _ => (encryptKeyed_aside _ _ _).bind fun _ =>
    self_aside.bind fun _ => .pure _

theorem republishNamespace_aside (keying : Keying) : Keeps ledgers (republishNamespace keying) :=
  self_aside.bind fun _ => .ite (.pure _) ((encryptKeyed_aside _ _ _).bind fun _ =>
    self_aside.bind fun _ => .pure _)

theorem publishAssetKey_aside (asset : DocumentUuid) (key : Bytes32) (keying : Keying) :
    Keeps ledgers (publishAssetKey asset key keying) :=
  (encryptKeyed_aside _ _ _).bind fun _ => self_aside.bind fun _ => .pure _

theorem isPublished_aside (doc : DocumentUuid) : Keeps ledgers (isPublished doc) := by
  refine self_aside.bind fun s => ?_
  split
  · exact (update_aside fun _ => rfl).bind fun _ => .pure _
  · exact .pure _

theorem tryApply_aside (doc : DocumentUuid) (chunk : Chunk OpHash) :
    Keeps ledgers (tryApply doc chunk) := by
  refine (onCgka_aside _).attempt.bind fun outcome => ?_
  split
  · refine (openDoc_aside doc).bind fun _ => (onDoc_aside _ _ _).attempt.bind fun merged => ?_
    split
    · exact (update_aside fun _ => rfl).bind fun _ => .pure _
    · exact .pure _
  · exact .pure _
  · exact .pure _
  · exact .pure _

theorem recordEndpoint_aside : Keeps ledgers recordEndpoint := by
  refine self_aside.bind fun s => ?_
  cases s.endpointId with
  | none => exact .pure _
  | some endpointId =>
      refine .ite (.pure _) ((onManifest_aside _).attempt.bind fun outcome => ?_)
      split
      · exact .pure _
      · exact .pure _
      · exact .throw _

theorem onManifestArrived_aside (chunk : Chunk OpHash) : Keeps ledgers (onManifestArrived chunk) := by
  refine (onCgka_aside _).attempt.bind fun outcome => ?_
  split
  · refine (onManifest_aside _).bind fun _ => recordEndpoint_aside.bind fun written => ?_
    exact .ite ((publishManifest_aside _).bind fun _ => .pure _) (.pure _)
  · exact .pure _
  · exact (update_aside fun _ => rfl).bind fun _ => .pure _
  · exact (update_aside fun _ => rfl).bind fun _ => .pure _

theorem checkpoint_aside (name message : String) (now : UnixSeconds) :
    Keeps ledgers (checkpoint name message now) :=
  requireWrite_aside.bind fun _ => self_aside.bind fun _ => (onManifest_aside _).bind fun _ =>
    (publishManifest_aside _).bind fun _ => .pure _

theorem addAssetVersion_aside (doc content : DocumentUuid) (assetMeta : AssetMeta)
    (now : UnixSeconds) : Keeps ledgers (addAssetVersion doc content assetMeta now) :=
  requireWrite_aside.bind fun _ => self_aside.bind fun _ => (onManifest_aside _).bind fun _ =>
    publishManifest_aside _

theorem revertAsset_aside (doc content : DocumentUuid) (now : UnixSeconds) :
    Keeps ledgers (revertAsset doc content now) := by
  refine requireWrite_aside.bind fun _ => self_aside.bind fun s => ?_
  split
  · exact .throw _
  · exact addAssetVersion_aside _ _ _ _

theorem sealAssetKey_aside (asset : DocumentUuid) : Keeps ledgers (sealAssetKey asset) := by
  intro p
  refine (requireWrite_aside p).seq (fun _ q hq => ?_) fun _ _ => id
  rw [wp_bind, wp_get]
  dsimp only
  rw [wp_bind, wp_set]
  refine (publishAssetKey_aside asset _ .current _).seq (fun effects r hr => ?_) fun _ r hr => ?_
  · exact hr.trans hq
  · exact hr.trans hq

theorem openAssetKey_aside (keyChunk : Chunk OpHash) : Keeps ledgers (openAssetKey keyChunk) := by
  refine (onCgka_aside _).attempt.bind fun outcome => ?_
  split
  · split
    · exact .pure _
    · exact .pure _
  · exact .pure _
  · exact .pure _
  · exact .pure _

theorem resealAssetKey_aside (requester : Bytes32) (asset : DocumentUuid)
    (keyChunk : Chunk OpHash) : Keeps ledgers (resealAssetKey requester asset keyChunk) := by
  refine self_aside.bind fun s => .ite (.throw _) (requireWrite_aside.bind fun _ => ?_)
  refine (openAssetKey_aside _).bind fun outcome => ?_
  split
  · refine (publishAssetKey_aside _ _ _).bind fun effects => ?_
    dsimp only
    split_ifs
    · exact (update_aside fun _ => rfl).bind fun _ => .pure _
    · exact .pure _
  · exact .pure _

/-! ## Membership and certificates -/

theorem admitLeaf_aside (member shareKey : Bytes32) (certs : List Certificate)
    (record : EStateM CoreError Manifest Unit) :
    Keeps ledgers (admitLeaf member shareKey certs record) := by
  refine (onCgka_aside _).bind fun op => ?_
  cases op with
  | some op => exact (onManifest_aside _).bind fun _ => (publishManifest_aside _).bind fun _ => .pure _
  | none => exact (publishManifest_aside _).bind fun _ => .pure _

theorem onAddUser_aside (member shareKey : Bytes32) (role : Role) (displayName : String)
    (endpoint : Option Bytes32) :
    Keeps ledgers (onAddUser member shareKey role displayName endpoint) := by
  have hadmit : Keeps ledgers (do
      let nonce ← randomNonce
      let binding ← onCgka (CgkaController.certifyDevice member member nonce)
      let nonce ← randomNonce
      let grant ← onCgka (CgkaController.certifyRole member role nonce)
      admitLeaf member shareKey [binding, grant] (userRecords member displayName endpoint)) :=
    randomNonce_aside.bind fun _ => (onCgka_aside _).bind fun _ =>
      randomNonce_aside.bind fun _ => (onCgka_aside _).bind fun _ => admitLeaf_aside _ _ _ _
  refine self_aside.bind fun s => ?_
  dsimp only
  split_ifs
  · exact (requireQuorum_aside _).bind fun _ => hadmit
  · exact hadmit

theorem onAddDevice_aside (member shareKey user : Bytes32) (label : String)
    (endpoint : Option Bytes32) : Keeps ledgers (onAddDevice member shareKey user label endpoint) :=
  randomNonce_aside.bind fun _ => (onCgka_aside _).bind fun _ => admitLeaf_aside _ _ _ _

theorem performRemoval_aside (member : Bytes32) : Keeps ledgers (performRemoval member) := by
  refine self_aside.bind fun s => ?_
  dsimp only
  split_ifs
  on_goal 1 => refine (requireNotLastAdmin_aside _).bind fun _ => ?_
  -- the removal itself, which both branches end in
  all_goals
    refine (onCgka_aside _).bind fun op => ?_
    cases op with
    | none => exact .pure _
    | some op => exact (update_aside fun _ => rfl).bind fun _ => self_aside.bind fun _ => .pure _

theorem performActions_aside (pending : List (Bytes32 × AdminAction)) (effects : List Effect) :
    Keeps ledgers (performActions pending effects) := by
  induction pending generalizing effects with
  | nil => exact .pure _
  | cons entry rest ih =>
      obtain ⟨digest, action⟩ := entry
      have hdone : Keeps ledgers
          (update fun s => { s with executedHere := s.executedHere.insert digest }) :=
        update_aside fun _ => rfl
      unfold performActions
      cases action with
      | setRole user role => exact hdone.bind fun _ => ih _
      | removeMember member =>
          dsimp only
          cases memberFromBytes member with
          | error err => exact hdone.bind fun _ => ih _
          | ok member =>
              refine (performRemoval_aside _).attempt.bind fun outcome => ?_
              cases outcome with
              | ok produced => exact hdone.bind fun _ => ih _
              | error err => exact ih _

theorem runQuorumActions_aside : Keeps ledgers runQuorumActions :=
  self_aside.bind fun _ => performActions_aside _ _

theorem removeDevices_aside (devices : List Bytes32) (effects : List Effect) :
    Keeps ledgers (removeDevices devices effects) := by
  induction devices generalizing effects with
  | nil => exact .pure _
  | cons device rest ih =>
      unfold removeDevices
      cases memberFromBytes device with
      | error err => exact ih _
      | ok member =>
          refine (onCgka_aside _).bind fun op => ?_
          cases op with
          | some op => exact ih _
          | none => exact ih _

theorem onSetRole_aside (user : Bytes32) (role : Role) : Keeps ledgers (onSetRole user role) := by
  have hmint : Keeps ledgers (do
      if ¬ role.canAdminister then requireNotLastAdmin user
      let nonce ← randomNonce
      let cert ← onCgka (CgkaController.certifyRole user role nonce)
      return [Effect.broadcastCerts [cert]]) := by
    have hcertify : Keeps ledgers (do
        let nonce ← randomNonce
        let cert ← onCgka (CgkaController.certifyRole user role nonce)
        return [Effect.broadcastCerts [cert]]) :=
      randomNonce_aside.bind fun _ => (onCgka_aside _).bind fun _ => .pure _
    dsimp only
    split_ifs
    · exact hcertify
    · exact (requireNotLastAdmin_aside _).bind fun _ => hcertify
  refine self_aside.bind fun s => .ite (requireAdmin_aside.bind fun _ => hmint) ?_
  exact (requireQuorum_aside _).bind fun _ => .ite (.pure _) hmint

end Handlers

/-! ## Programs that only work on the queue -/

section Drains

theorem drainRound_books (queue : List Parked) (applied : Nat) (effects : List Effect) :
    Keeps books (drainRound queue applied effects) := by
  induction queue generalizing applied effects with
  | nil => exact .pure _
  | cons parked rest ih =>
      have hrequeue : Keeps books (update (requeue parked)) := .modify fun _ => rfl
      unfold drainRound
      refine (tryApply_aside _ _).books.bind fun outcome => ?_
      cases outcome with
      | applied => exact ih _ _
      | awaitingKey => exact hrequeue.bind fun _ => ih _ _
      | awaitingDeps => exact hrequeue.bind fun _ => .ite (ih _ _) (ih _ _)
      | unreachable => exact (update_aside fun _ => rfl).books.bind fun _ => ih _ _
      | corrupt => exact (update_aside fun _ => rfl).books.bind fun _ => ih _ _

theorem drainPending_books : Keeps books drainPending := by
  have hrounds : ∀ fuel effects, Keeps books (drainRounds fuel effects) := by
    intro fuel
    induction fuel with
    | zero => exact fun _ => .pure _
    | succ fuel ih =>
        intro effects
        unfold drainRounds
        refine self_aside.books.bind fun s => .bind (.modify fun _ => rfl) fun _ => ?_
        exact (drainRound_books _ _ _).bind fun _ => .ite (.pure _) (ih _)
  exact self_aside.books.bind fun s => hrounds _ _

theorem onChunkArrived_books (doc : DocumentUuid) (chunk : Chunk OpHash) :
    Keeps books (onChunkArrived doc chunk) := by
  refine self_aside.books.bind fun s => ?_
  dsimp only
  split_ifs
  · exact drainPending_books
  · exact .bind (.modify fun _ => rfl) fun _ => drainPending_books

theorem onControlOp_books (authorized : AuthorizedOp) : Keeps books (onControlOp authorized) := by
  refine (onCgka_aside _).books.bind fun outcome => ?_
  split
  · exact (onCgka_aside _).books.bind fun _ => drainPending_books.bind fun _ =>
      self_aside.books.bind fun _ => .pure _
  · exact .pure _

theorem onCertsArrived_books (certs : List Certificate) : Keeps books (onCertsArrived certs) :=
  (onCgka_aside _).books.bind fun _ => .ite
    ((onCgka_aside _).books.bind fun _ => drainPending_books.bind fun _ =>
      runQuorumActions_aside.books.bind fun _ => .pure _)
    runQuorumActions_aside.books

theorem handleLog_books (now : UnixSeconds) (ops : List ControlOp) (effects : List Effect) :
    Keeps books (handleLog now ops effects) := by
  induction ops generalizing effects with
  | nil => exact .pure _
  | cons op rest ih =>
      unfold handleLog
      refine (onControlOp_books (.bare op)).attempt.bind fun outcome => ?_
      cases outcome with
      | ok more => exact ih _
      | error err => exact ih _

end Drains

/-! ## Programs that publish a document -/

/-- How much of a document an edit would publish. -/
def publishExtent (s : WorkspaceState) (doc : DocumentUuid) : Extent :=
  if (s.publishedUpTo.get? doc).isSome ∧
      (s.deltasSinceFull.get? doc).getD 0 < fullPublishEvery then .delta
  else .full

/-- The deltas since a full export, after one more publish. -/
def nextDeltas (deltas : Nat) : Extent → Nat
  | .delta => deltas + 1
  | .full => 0

/-- One chunk of a document went out between these states: it holds this export of the
replica, and the books have it. -/
structure Shipped (doc : DocumentUuid) (extent : Extent) (content : Bytes)
    (s s' : WorkspaceState) : Prop where
  content : ∃ replica, s'.docs.get? doc = some replica ∧
    Loro.exportAs (exportMode (s.publishedUpTo.get? doc) extent) replica = .ok content ∧
    s'.publishedUpTo = s.publishedUpTo.set doc (Loro.oplogVv replica)
  deltas : s'.deltasSinceFull =
    s.deltasSinceFull.set doc (nextDeltas ((s.deltasSinceFull.get? doc).getD 0) extent)

theorem Shipped.of_books {doc : DocumentUuid} {extent : Extent} {content : Bytes}
    {s s₁ s' : WorkspaceState} (h : Shipped doc extent content s₁ s')
    (hbooks : s₁.record = s.record) : Shipped doc extent content s s' := by
  obtain ⟨hversions, hdeltas⟩ := Prod.mk.inj hbooks
  obtain ⟨hcontent, hcount⟩ := h
  rw [hversions] at hcontent
  rw [hdeltas] at hcount
  exact ⟨hcontent, hcount⟩

/-- What the chunk that went out between two states holds. -/
def shippedContent (doc : DocumentUuid) (extent : Extent) (s s' : WorkspaceState) : Bytes :=
  match (s'.docs.get? doc).map (Loro.exportAs (exportMode (s.publishedUpTo.get? doc) extent)) with
  | some (.ok content) => content
  | _ => []

theorem Shipped.content_eq {doc : DocumentUuid} {extent : Extent} {content : Bytes}
    {s s' : WorkspaceState} (h : Shipped doc extent content s s') :
    shippedContent doc extent s s' = content := by
  obtain ⟨replica, hdoc, hexport, -⟩ := h.content
  unfold shippedContent
  rw [hdoc, Option.map_some, hexport]

/-- The program publishes at most one chunk, of this document, to this extent; if it fails
or has no effects, it has published none. -/
def Ships (doc : DocumentUuid) (extent : WorkspaceState → Extent) (x : Run (List Effect)) : Prop :=
  ∀ s rng, Wp x
    (fun effects p => effects = [] ∧ books p = books (s, rng) ∨
      effects ≠ [] ∧ Shipped doc (extent s) (shippedContent doc (extent s) s p.1) s p.1)
    (fun _ p => books p = books (s, rng)) (s, rng)

theorem publishExtent_of_books {s s' : WorkspaceState} (h : s'.record = s.record) (doc : DocumentUuid) :
    s'.publishExtent doc = s.publishExtent doc := by
  obtain ⟨hversions, hdeltas⟩ := Prod.mk.inj h
  unfold publishExtent
  rw [hversions, hdeltas]

section Ships

variable {doc : DocumentUuid} {extent : WorkspaceState → Extent} {α : Type}

/-- What a program does beside the books before it publishes does not matter. -/
theorem Ships.after_aside {x : Run α} {f : α → Run (List Effect)} (hx : Keeps ledgers x)
    (hf : ∀ a, Ships doc extent (f a))
    (hextent : ∀ s s', s'.record = s.record → extent s' = extent s) :
    Ships doc extent (x >>= f) := by
  intro s rng
  refine (hx.books (s, rng)).seq (fun a p hp => ?_) fun _ _ => id
  refine (hf a p.1 p.2).mono (fun effects p' hshipped => ?_) fun _ p' h => h.trans hp
  rcases hshipped with ⟨hnone, hsame⟩ | ⟨hsome, hshipped⟩
  · exact Or.inl ⟨hnone, hsame.trans hp⟩
  · rw [hextent s p.1 hp] at hshipped
    have hshipped' := hshipped.of_books hp
    refine Or.inr ⟨hsome, ?_⟩
    rw [hshipped'.content_eq]
    exact hshipped'

theorem Ships.nil : Ships doc extent (return []) := fun _ _ => Or.inl ⟨rfl, rfl⟩

theorem Ships.throw (err : CoreError) : Ships doc extent (throw err) := fun _ _ => rfl

/-- What the bookkeeping of a publish makes of a state whose books are those of `s`. -/
theorem recordPublish_shipped {loro : LoroDoc} {extent : Extent} {content : Bytes}
    {s q : WorkspaceState} (hdoc : q.docs.get? doc = some loro)
    (hexport : Loro.exportAs (exportMode (s.publishedUpTo.get? doc) extent) loro = .ok content)
    (hbooks : q.record = s.record) (contentRef : Bytes32) :
    Shipped doc extent content s (recordPublish doc extent (Loro.oplogVv loro) contentRef q) := by
  obtain ⟨hversions, hdeltas⟩ := Prod.mk.inj hbooks
  refine ⟨⟨loro, hdoc, hexport, ?_⟩, ?_⟩
  · change BTreeMap.set q.publishedUpTo doc _ = _
    rw [hversions]
  · change BTreeMap.set q.deltasSinceFull doc _ = _
    rw [hdeltas]
    cases extent with
    | delta => rfl
    | full => rfl

theorem openDoc_opens (doc : DocumentUuid) (s : WorkspaceState) (rng : Rng) :
    Wp (openDoc doc)
      (fun loro p => p.1.docs.get? doc = some loro ∧ books p = books (s, rng))
      (fun _ _ => False) (s, rng) := by
  unfold openDoc
  rw [wp_bind, wp_self]
  cases hdoc : s.docs.get? doc with
  | some loro => exact ⟨hdoc, rfl⟩
  | none =>
      refine ⟨?_, rfl⟩
      exact BTreeMap.get?_set.trans (if_pos rfl)

theorem publishKeyed_ships (doc : DocumentUuid) (keying : Keying) (extent : Extent) :
    Ships doc (fun _ => extent) (publishKeyed doc keying extent) := by
  intro s rng
  unfold publishKeyed
  rw [wp_bind, wp_self]
  refine (openDoc_opens doc s rng).seq ?_ fun _ _ => False.elim
  rintro loro p ⟨hdoc, hbooks⟩
  rw [wp_bind, wp_verdict]
  cases hexport : Loro.exportAs (exportMode (s.publishedUpTo.get? doc) extent) loro with
  | error err => exact hbooks
  | ok content =>
      change Wp (self >>= _) _ _ p
      rw [wp_bind, wp_self]
      have hkeeps : Keeps (fun p : WorkspaceState × Rng => (books p, p.1.docs))
          (encryptKeyed content (p.1.lastRef.get? doc).toList keying) :=
        encryptKeyed_keeps (fun _ _ _ _ => rfl) content _ keying
      refine (hkeeps p).seq ?_ fun _ q hq => (congrArg Prod.fst hq).trans hbooks
      rintro ⟨chunk, ops⟩ q hq
      have hbooks' : q.1.record = s.record := (congrArg Prod.fst hq).trans hbooks
      have hdocs : q.1.docs = p.1.docs := congrArg Prod.snd hq
      have hreplica : q.1.docs.get? doc = some loro := by
        rw [hdocs]
        exact hdoc
      have hshipped := recordPublish_shipped hreplica hexport hbooks' chunk.contentRef
      rw [wp_bind, wp_update, wp_bind, wp_self, wp_pure]
      refine Or.inr ⟨by simp, ?_⟩
      rw [hshipped.content_eq]
      exact hshipped

/-- Every edit publishes to the extent the books call for. -/
theorem publish_ships (doc : DocumentUuid) :
    Ships doc (fun s => s.publishExtent doc) (publish doc) := by
  intro s rng
  unfold publish
  rw [wp_bind, wp_self]
  exact publishKeyed_ships doc .current (s.publishExtent doc) s rng

theorem Ships.after_edit {x : Run α} {f : α → Run (List Effect)} (hx : Keeps ledgers x)
    (hf : ∀ a, Ships doc (fun s => s.publishExtent doc) (f a)) :
    Ships doc (fun s => s.publishExtent doc) (x >>= f) :=
  .after_aside hx hf fun _ _ h => publishExtent_of_books h doc

theorem onTextEdit_ships (doc : DocumentUuid) (now : UnixSeconds)
    (mutate : EStateM String LoroDoc Unit) :
    Ships doc (fun s => s.publishExtent doc) (onTextEdit doc now mutate) :=
  .after_edit requireWrite_aside fun _ => .after_edit self_aside fun _ =>
    .after_edit (openDoc_aside doc) fun _ => .after_edit (onDoc_aside _ _ _) fun _ =>
      .after_edit (onDoc_aside _ _ _) fun _ => .after_edit (onDoc_aside _ _ _) fun _ =>
        publish_ships doc

theorem onRevert_ships (doc : DocumentUuid) (version : VersionId) (now : UnixSeconds) :
    Ships doc (fun s => s.publishExtent doc) (onRevert doc version now) := by
  refine .after_edit requireWrite_aside fun _ => ?_
  split_ifs
  · refine .after_edit self_aside fun s => ?_
    cases s.docs.get? doc with
    | none => exact .throw _
    | some loro =>
        exact .after_edit (onDoc_aside _ _ _) fun _ => .after_edit (onDoc_aside _ _ _) fun _ =>
          .after_edit (onDoc_aside _ _ _) fun _ => publish_ships doc
  · exact .throw _

theorem Ships.after_full {x : Run α} {f : α → Run (List Effect)} (hx : Keeps ledgers x)
    (hf : ∀ a, Ships doc (fun _ => .full) (f a)) : Ships doc (fun _ => .full) (x >>= f) :=
  .after_aside hx hf fun _ _ _ => rfl

theorem onResync_ships (doc : DocumentUuid) : Ships doc (fun _ => .full) (onResync doc) := by
  refine .after_full requireWrite_aside fun _ => .after_full self_aside fun s => ?_
  split_ifs
  · exact .nil
  · refine .after_full (isPublished_aside doc) fun published => ?_
    split_ifs
    · exact .nil
    · exact publishKeyed_ships doc .current .full

theorem repairDocument_ships (doc : DocumentUuid) (keying : Keying) :
    Ships doc (fun _ => .full) (repairDocument doc keying) := by
  refine .after_full self_aside fun s => ?_
  split_ifs
  · refine .after_full requireWrite_aside.attempt fun outcome => ?_
    cases outcome with
    | ok u => exact publishKeyed_ships doc keying .full
    | error err => exact .nil
  · exact .nil

end Ships

/-! ## Where a run begins -/

/-- Founding a workspace only writes the manifest and certificates. -/
theorem part_of_start {γ : Type} (part : WorkspaceState → γ) {s : WorkspaceState}
    (hcgka : ∀ s c, part { s with cgka := c } = part s)
    (hmanifest : ∀ s m, part { s with manifest := m } = part s) (hstart : Founded s ∨ Joined s) :
    ∃ c secret epoch, part s = part (joined c secret epoch) := by
  rcases hstart with ⟨_, _, secret, threshold, _, _, c, -, hfound⟩ |
    ⟨_, _, _, secret, _, _, epoch, c, -, rfl⟩
  · have hmanifests : ∀ x : EStateM CoreError Manifest Unit,
        Keeps part (zoom WorkspaceState.manifest (fun m s => { s with manifest := m }) id x) :=
      .zoom fun m s => hmanifest s m
    have hcertifies : ∀ x : EStateM CoreError CgkaController Certificate,
        Keeps part (zoom WorkspaceState.cgka (fun c s => { s with cgka := c }) id x) :=
      .zoom fun c s => hcgka s c
    have hkeeps : Keeps part (foundingRecords threshold) :=
      Keeps.bind .get fun _ => (hmanifests _).bind fun _ => (hmanifests _).bind fun _ =>
        (hcertifies _).bind fun _ => (hcertifies _).bind fun _ => (hcertifies _).bind fun _ =>
          .pure _
    have hrun := hkeeps (joined c secret NamespaceEpoch.initial.epoch)
    unfold WorkspaceState.found at hfound
    unfold Wp at hrun
    cases hrecords : foundingRecords threshold (joined c secret NamespaceEpoch.initial.epoch) with
    | ok u s₁ =>
        rw [hrecords] at hfound hrun
        obtain rfl : s₁ = s := Except.ok.inj hfound
        exact ⟨c, secret, _, hrun⟩
    | error err s₁ =>
        rw [hrecords] at hfound
        exact absurd hfound (by simp)
  · exact ⟨c, secret, epoch, rfl⟩

end WorkspaceState

end IrohBeekem
