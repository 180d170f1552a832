import IrohBeekem.Docs.History
import IrohBeekem.State.Books

/-!
# The replicas of a node

What the events about documents do to the replicas a node keeps of them.  Publishing leaves
every replica as it is; an edit or a revert adds operations that depend on all there were;
merging a chunk, and the passes over the queue of parked chunks, lose nothing a node holds.
-/

set_option linter.unusedSectionVars false

namespace IrohBeekem

open Library WorkspaceState

variable [Keyhive] [Beekem] [Loro] [Postcard]

/-! ## Replicas of a node -/

namespace WorkspaceState

/-- The replica of a document, which is a new one if the node has none. -/
def replica (s : WorkspaceState) (doc : DocumentUuid) : LoroDoc := (s.docs.get? doc).getD newDoc

/-- The replicas, as a part of what a program runs on. -/
def replicas (p : WorkspaceState × Rng) : DocumentUuid → LoroDoc := p.1.replica

/-- The operations a node holds of each document. -/
def holdings {Op : Type} (h : History Op) (p : WorkspaceState × Rng) : DocumentUuid → Set Op :=
  fun doc => h.ops (p.1.replica doc)

theorem replica_set (s : WorkspaceState) (doc doc' : DocumentUuid) (loro : LoroDoc) :
    ({ s with docs := s.docs.set doc loro } : WorkspaceState).replica doc' =
      if doc' = doc then loro else s.replica doc' := by
  unfold replica
  dsimp only
  rw [BTreeMap.get?_set]
  split_ifs
  · rfl
  · rfl

/-! ## Programs that leave the replicas alone -/

section Replicas

variable {α : Type}

theorem self_replicas : Keeps replicas self := .bind .get fun _ => .pure _

theorem update_replicas {f : WorkspaceState → WorkspaceState}
    (hf : ∀ s, (f s).replica = s.replica) : Keeps replicas (update f) :=
  .modify fun p => hf p.1

theorem requireWrite_replicas : Keeps replicas requireWrite := fun p =>
  (requireWrite_alone p).mono (fun _ _ h => congrArg replicas h) fun _ _ h => congrArg replicas h

/-- To open a document makes nothing of it. -/
theorem openDoc_replicas (doc : DocumentUuid) : Keeps replicas (openDoc doc) := by
  intro p
  unfold openDoc
  rw [wp_bind, wp_self]
  cases hdoc : p.1.docs.get? doc with
  | some loro => exact rfl
  | none =>
      funext doc'
      refine (replica_set p.1 doc doc' newDoc).trans ?_
      split_ifs with heq
      · subst heq
        change newDoc = p.1.replica doc'
        unfold replica
        rw [hdoc, Option.getD_none]
      · rfl

theorem encryptKeyed_replicas (plaintext : Bytes) (preds : List Bytes32) (keying : Keying) :
    Keeps replicas (encryptKeyed plaintext preds keying) := by
  refine encryptKeyed_keeps ?_ plaintext preds keying
  exact fun _ _ _ _ => rfl

theorem publishKeyed_replicas (doc : DocumentUuid) (keying : Keying) (extent : Extent) :
    Keeps replicas (publishKeyed doc keying extent) := by
  refine self_replicas.bind fun _ => (openDoc_replicas doc).bind fun _ => (Keeps.verdict _).bind
    fun _ => self_replicas.bind fun _ => (encryptKeyed_replicas _ _ _).bind fun _ => ?_
  refine Keeps.bind (update_replicas ?_) fun _ => self_replicas.bind fun _ => .pure _
  exact fun _ => rfl

theorem publish_replicas (doc : DocumentUuid) : Keeps replicas (publish doc) :=
  self_replicas.bind fun _ => publishKeyed_replicas doc _ _

end Replicas

/-! ## Programs that only add to the replicas -/

section Holdings

variable {Op α : Type} {h : History Op}

theorem holdings_of_replicas {x : Run α} (hx : Keeps replicas x) : Raises (holdings h) x :=
  (hx.map fun docs doc => h.ops (docs doc)).raises

/-- A call of the document library on one document. -/
theorem onDoc_replica (doc : DocumentUuid) (rename : String → CoreError)
    (x : EStateM String LoroDoc α) (p : WorkspaceState × Rng) :
    Wp (onDoc doc rename x)
      (fun a p' => x (p.1.replica doc) = .ok a (p'.1.replica doc)) (fun _ _ => True) p := by
  unfold onDoc
  rw [wp_zoom]
  refine wp_of_run (fun a loro hrun => ?_) fun _ _ _ => trivial
  rw [replica_set, if_pos rfl]
  exact hrun

theorem onDoc_raises (doc : DocumentUuid) (rename : String → CoreError)
    {x : EStateM String LoroDoc α} (hx : ∀ d, h.ops d ⊆ h.ops (after x d)) :
    Raises (holdings h) (onDoc doc rename x) := by
  intro p
  have hset : ∀ loro, h.ops (p.1.replica doc) ⊆ h.ops loro →
      holdings h p ≤ holdings h ({ p.1 with docs := p.1.docs.set doc loro }, p.2) := by
    intro loro hgrows doc'
    change h.ops (p.1.replica doc') ⊆ h.ops (WorkspaceState.replica _ doc')
    rw [replica_set]
    split_ifs with heq
    · subst heq
      exact hgrows
    · exact subset_rfl
  unfold onDoc
  rw [wp_zoom]
  have hafter := hx (p.1.replica doc)
  unfold after at hafter
  refine wp_of_run (fun a loro hrun => hset loro ?_) fun err loro hrun => hset loro ?_
  · rw [show x (p.1.replica doc) = .ok a loro from hrun] at hafter
    exact hafter
  · rw [show x (p.1.replica doc) = .error err loro from hrun] at hafter
    exact hafter

/-! ## Edits -/

/-- What an edit does to a replica. -/
def revise (member : Bytes32) (now : UnixSeconds) (mutate : EStateM String LoroDoc Unit) :
    EStateM String LoroDoc Unit := do
  claimAuthorship member
  mutate
  modify (Loro.commitWith now)

theorem claimAuthorship_extends (hlaws : h.LawfulEdits) (member : Bytes32) :
    h.Extends (claimAuthorship member) := by
  refine .bind .get fun loro => ?_
  dsimp only
  split_ifs
  · exact .pure _
  · exact (hlaws.insert _ _ _).attempt.bind fun _ => .pure _

theorem commitWith_extends (hlaws : h.LawfulEdits) (now : UnixSeconds) :
    h.Extends (modify (Loro.commitWith now) : EStateM String LoroDoc PUnit) :=
  .of_same fun d => hlaws.ops_commitWith now d

theorem revise_extends (hlaws : h.LawfulEdits) (member : Bytes32) (now : UnixSeconds)
    {mutate : EStateM String LoroDoc Unit} (hmutate : h.Extends mutate) :
    h.Extends (revise member now mutate) :=
  (claimAuthorship_extends hlaws member).bind fun _ => hmutate.bind fun _ =>
    commitWith_extends hlaws now

/-- The steps of an edit on the document, and the publish that follows them. -/
def reviseAndPublish (doc : DocumentUuid) (member : Bytes32) (now : UnixSeconds)
    (rename : String → CoreError) (mutate : EStateM String LoroDoc Unit) : Run (List Effect) := do
  onDoc doc CoreError.manifest (claimAuthorship member)
  onDoc doc rename mutate
  onDoc doc CoreError.manifest (modify (Loro.commitWith now))
  publish doc

theorem reviseAndPublish_replica (doc : DocumentUuid) (member : Bytes32) (now : UnixSeconds)
    (rename : String → CoreError) (mutate : EStateM String LoroDoc Unit)
    (p : WorkspaceState × Rng) :
    Wp (reviseAndPublish doc member now rename mutate)
      (fun _ p' => p'.1.replica doc = after (revise member now mutate) (p.1.replica doc))
      (fun _ _ => True) p := by
  refine (onDoc_replica doc _ _ p).seq (fun _ p₁ hclaim => ?_) fun _ _ => id
  refine (onDoc_replica doc _ _ p₁).seq (fun _ p₂ hmutate => ?_) fun _ _ => id
  refine (onDoc_replica doc _ _ p₂).seq (fun _ p₃ hcommit => ?_) fun _ _ => id
  refine (publish_replicas doc p₃).mono (fun _ p' hkept => ?_) fun _ _ _ => trivial
  have hrun : revise member now mutate (p.1.replica doc) = .ok () (p₃.1.replica doc) := by
    change EStateM.bind (claimAuthorship member) _ _ = _
    unfold EStateM.bind
    rw [hclaim]
    change EStateM.bind mutate _ _ = _
    unfold EStateM.bind
    rw [hmutate]
    exact hcommit
  unfold after
  rw [hrun]
  exact congrFun hkept doc

theorem reviseAndPublish_raises (hlaws : h.LawfulEdits) (doc : DocumentUuid) (member : Bytes32)
    (now : UnixSeconds) (rename : String → CoreError) {mutate : EStateM String LoroDoc Unit}
    (hmutate : h.Extends mutate) :
    Raises (holdings h) (reviseAndPublish doc member now rename mutate) :=
  (onDoc_raises doc _ fun d => (claimAuthorship_extends hlaws member d).1).bind fun _ =>
    (onDoc_raises doc _ fun d => (hmutate d).1).bind fun _ =>
      (onDoc_raises doc _ fun d => (commitWith_extends hlaws now d).1).bind fun _ =>
        holdings_of_replicas (publish_replicas doc)

/-- What is checked before an edit. -/
theorem onTextEdit_eq (doc : DocumentUuid) (now : UnixSeconds)
    (mutate : EStateM String LoroDoc Unit) : onTextEdit doc now mutate = (do
      requireWrite
      let s ← self
      let _ ← openDoc doc
      reviseAndPublish doc s.memberId now CoreError.manifest mutate) :=
  rfl

theorem onTextEdit_replica (doc : DocumentUuid) (now : UnixSeconds)
    (mutate : EStateM String LoroDoc Unit) (p : WorkspaceState × Rng) :
    Wp (onTextEdit doc now mutate)
      (fun _ p' => p'.1.replica doc = after (revise p.1.memberId now mutate) (p.1.replica doc))
      (fun _ _ => True) p := by
  rw [onTextEdit_eq]
  refine (requireWrite_alone p).seq (fun _ q hq => ?_) fun _ _ _ => trivial
  obtain rfl : q = p := hq
  rw [wp_bind, wp_self]
  refine (openDoc_replicas doc q).seq (fun _ q₁ hopened => ?_) fun _ _ _ => trivial
  have hsame : q₁.1.replica doc = q.1.replica doc := congrFun hopened doc
  rw [← hsame]
  exact reviseAndPublish_replica doc _ now _ mutate q₁

theorem onTextEdit_raises (hlaws : h.LawfulEdits) (doc : DocumentUuid) (now : UnixSeconds)
    {mutate : EStateM String LoroDoc Unit} (hmutate : h.Extends mutate) :
    Raises (holdings h) (onTextEdit doc now mutate) := by
  rw [onTextEdit_eq]
  exact (holdings_of_replicas requireWrite_replicas).bind fun _ =>
    (holdings_of_replicas self_replicas).bind fun s =>
      (holdings_of_replicas (openDoc_replicas doc)).bind fun _ =>
        reviseAndPublish_raises hlaws doc s.memberId now _ hmutate

theorem onRevert_replica (doc : DocumentUuid) (version : VersionId) (now : UnixSeconds)
    (p : WorkspaceState × Rng) :
    Wp (onRevert doc version now)
      (fun _ p' => p'.1.replica doc =
        after (revise p.1.memberId now (Loro.revertTo version)) (p.1.replica doc))
      (fun _ _ => True) p := by
  unfold onRevert
  refine (requireWrite_alone p).seq (fun _ q hq => ?_) fun _ _ _ => trivial
  obtain rfl : q = p := hq
  split_ifs
  · rw [wp_bind, wp_self]
    cases q.1.docs.get? doc with
    | none => exact trivial
    | some loro => exact reviseAndPublish_replica doc _ now _ _ q
  · exact trivial

theorem onRevert_raises (hlaws : h.LawfulEdits) (doc : DocumentUuid) (version : VersionId)
    (now : UnixSeconds) : Raises (holdings h) (onRevert doc version now) := by
  refine (holdings_of_replicas requireWrite_replicas).bind fun _ => ?_
  split_ifs
  · refine (holdings_of_replicas self_replicas).bind fun s => ?_
    cases s.docs.get? doc with
    | none => exact .throw _
    | some loro => exact reviseAndPublish_raises hlaws doc s.memberId now _ (hlaws.revertTo version)
  · exact .throw _

/-! ## The other events about documents -/

theorem isPublished_raises (hlaws : h.Lawful) (doc : DocumentUuid) :
    Raises (holdings h) (isPublished doc) := by
  intro p
  unfold isPublished
  rw [wp_bind, wp_self]
  cases hdoc : p.1.docs.get? doc with
  | none => exact le_rfl
  | some loro =>
      cases p.1.publishedUpTo.get? doc with
      | none => exact le_rfl
      | some v =>
          intro doc'
          change h.ops (p.1.replica doc') ⊆ h.ops (WorkspaceState.replica _ doc')
          rw [replica_set]
          split_ifs with heq
          · subst heq
            rw [hlaws.ops_commit, replica, hdoc, Option.getD_some]
          · exact subset_rfl

theorem onResync_raises (hlaws : h.Lawful) (doc : DocumentUuid) :
    Raises (holdings h) (onResync doc) := by
  refine (holdings_of_replicas requireWrite_replicas).bind fun _ =>
    (holdings_of_replicas self_replicas).bind fun s => ?_
  split_ifs
  · exact .pure _
  · refine (isPublished_raises hlaws doc).bind fun published => ?_
    split_ifs
    · exact .pure _
    · exact holdings_of_replicas (publishKeyed_replicas doc .current .full)

theorem repairDocument_replicas (doc : DocumentUuid) (keying : Keying) :
    Keeps replicas (repairDocument doc keying) := by
  refine self_replicas.bind fun s => ?_
  split_ifs
  · refine requireWrite_replicas.attempt.bind fun outcome => ?_
    cases outcome with
    | ok u => exact publishKeyed_replicas doc keying .full
    | error err => exact .pure _
  · exact .pure _

theorem tryApply_raises (hlaws : h.Lawful) (doc : DocumentUuid) (chunk : Chunk OpHash) :
    Raises (holdings h) (tryApply doc chunk) := by
  have hdecrypt : Keeps replicas (onCgka (CgkaController.decrypt chunk)) := by
    unfold onCgka
    refine .zoom ?_ _
    exact fun _ _ => rfl
  refine (holdings_of_replicas hdecrypt.attempt).bind fun outcome => ?_
  split
  · refine (holdings_of_replicas (openDoc_replicas doc)).bind fun _ =>
      (onDoc_raises doc _ fun d => hlaws.import_grows _ d).attempt.bind fun merged => ?_
    split
    · refine Raises.bind (holdings_of_replicas (update_replicas ?_)) fun _ => .pure _
      exact fun _ => rfl
    · exact .pure _
  · exact .pure _
  · exact .pure _
  · exact .pure _

/-- An attempt at a chunk leaves alone what decrypting leaves alone of the controller. -/
theorem tryApply_controller {γ : Type} {part : CgkaController → γ}
    (hdecrypt : ∀ chunk, Keeps part (CgkaController.decrypt chunk)) (doc : DocumentUuid)
    (chunk : Chunk OpHash) :
    Keeps (fun p : WorkspaceState × Rng => part p.1.cgka) (tryApply doc chunk) := by
  have hcgka : Keeps (fun p : WorkspaceState × Rng => part p.1.cgka)
      (onCgka (CgkaController.decrypt chunk)) := by
    rintro ⟨s, rng⟩
    rw [wp_onCgka]
    exact hdecrypt chunk s.cgka
  have hopen : Keeps (fun p : WorkspaceState × Rng => part p.1.cgka) (openDoc doc) := by
    intro p
    unfold openDoc
    rw [wp_bind, wp_self]
    cases p.1.docs.get? doc with
    | some loro => exact rfl
    | none => exact rfl
  have himport : ∀ bytes, Keeps (fun p : WorkspaceState × Rng => part p.1.cgka)
      (onDoc doc CoreError.manifest (Loro.importBytes bytes)) := by
    intro bytes
    unfold onDoc
    refine .zoom ?_ _
    exact fun _ _ => rfl
  refine hcgka.attempt.bind fun outcome => ?_
  split
  · refine hopen.bind fun _ => (himport _).attempt.bind fun merged => ?_
    split
    · refine Keeps.bind (.modify ?_) fun _ => .pure _
      exact fun _ => rfl
    · exact .pure _
  · exact .pure _
  · exact .pure _
  · exact .pure _

/-- Something about the replicas and the controller that no attempt at a chunk lowers. -/
structure Tried {γ : Type} [Preorder γ] (part : WorkspaceState × Rng → γ) : Prop where
  tries : ∀ doc chunk, Raises part (tryApply doc chunk)
  rest : ∀ (s s' : WorkspaceState) (rng : Rng), s'.replica = s.replica → s'.cgka = s.cgka →
    part (s', rng) = part (s, rng)

section Drains

variable {γ : Type} [Preorder γ] {part : WorkspaceState × Rng → γ}

theorem Tried.update (hpart : Tried part) {f : WorkspaceState → WorkspaceState}
    (hf : ∀ s, (f s).replica = s.replica ∧ (f s).cgka = s.cgka) : Raises part (update f) := by
  refine Keeps.raises (.modify fun p => ?_)
  exact hpart.rest p.1 (f p.1) p.2 (hf p.1).1 (hf p.1).2

theorem self_raises : Raises part self := Keeps.raises (.bind .get fun _ => .pure _)

theorem drainRound_raises (hpart : Tried part) (queue : List Parked) (applied : Nat)
    (effects : List Effect) : Raises part (drainRound queue applied effects) := by
  induction queue generalizing applied effects with
  | nil => exact .pure _
  | cons parked rest ih =>
      have hrequeue : Raises part (WorkspaceState.update (requeue parked)) :=
        hpart.update fun _ => ⟨rfl, rfl⟩
      unfold drainRound
      refine (hpart.tries _ _).bind fun outcome => ?_
      cases outcome with
      | applied => exact ih _ _
      | awaitingKey => exact hrequeue.bind fun _ => ih _ _
      | awaitingDeps =>
          refine hrequeue.bind fun _ => ?_
          split_ifs
          · exact ih _ _
          · exact ih _ _
      | unreachable =>
          refine Raises.bind (hpart.update ?_) fun _ => ih _ _
          exact fun _ => ⟨rfl, rfl⟩
      | corrupt =>
          refine Raises.bind (hpart.update ?_) fun _ => ih _ _
          exact fun _ => ⟨rfl, rfl⟩

theorem drainPending_raises (hpart : Tried part) : Raises part drainPending := by
  have hrounds : ∀ fuel effects, Raises part (drainRounds fuel effects) := by
    intro fuel
    induction fuel with
    | zero => exact fun _ => .pure _
    | succ fuel ih =>
        intro effects
        unfold drainRounds
        refine self_raises.bind fun s => Raises.bind (hpart.update ?_) fun _ => ?_
        · exact fun _ => ⟨rfl, rfl⟩
        · refine (drainRound_raises hpart _ _ _).bind fun r => ?_
          obtain ⟨applied, effects'⟩ := r
          dsimp only
          split_ifs
          · exact .pure _
          · exact ih _
  exact self_raises.bind fun s => hrounds _ _

/-- Draining leaves alone what decrypting leaves alone of the controller. -/
theorem drainPending_controller {γ : Type} {part : CgkaController → γ}
    (hdecrypt : ∀ chunk, Keeps part (CgkaController.decrypt chunk)) :
    Keeps (fun p : WorkspaceState × Rng => part p.1.cgka) drainPending := by
  intro p
  -- that the part is what it was is a property, and an implication is an order
  have hpart : Tried fun q : WorkspaceState × Rng => part q.1.cgka = part p.1.cgka :=
    { tries := fun doc chunk => ((tryApply_controller hdecrypt doc chunk).map
        fun x => x = part p.1.cgka).raises
      rest := fun s s' rng _ hcgka => by
        dsimp only
        rw [hcgka] }
  exact (drainPending_raises hpart p).mono (fun _ _ h => h rfl) fun _ _ h => h rfl

theorem onChunkArrived_raises (hpart : Tried part) (doc : DocumentUuid) (chunk : Chunk OpHash) :
    Raises part (onChunkArrived doc chunk) := by
  refine self_raises.bind fun s => ?_
  dsimp only
  split_ifs
  · exact drainPending_raises hpart
  · refine Raises.bind (hpart.update ?_) fun _ => drainPending_raises hpart
    exact fun _ => ⟨rfl, rfl⟩

end Drains

theorem holdings_tried (hlaws : h.Lawful) : Tried (holdings h) where
  tries := tryApply_raises hlaws
  rest s s' rng hreplica _ := by
    funext doc
    exact congrArg (fun docs => h.ops (docs doc)) hreplica

end Holdings

end WorkspaceState

end IrohBeekem
