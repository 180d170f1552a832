import IrohBeekem.Library.Budget
import IrohBeekem.State.Cadence
import IrohBeekem.State.ListModel

/-!
# The budget of the waiting chunks

A chunk that cannot be applied yet waits in a queue, and the queue has a budget of entries
and of ciphertext bytes.  An arriving chunk may displace the oldest ones; a drain only takes
chunks out, a deletion takes out those of the document, and nothing else touches the queue.
So the running total is at all times the weight of the queue (`Budgeted`), and the count of
evictions is the number of chunks that arrivals displaced since the process started
(`budget_holds`).
-/

set_option linter.unusedSectionVars false

namespace IrohBeekem

open Library

variable [Keyhive] [Beekem] [Loro] [Postcard]

/-! ## The queue -/

/-- What may wait. -/
def pendingBudget : Budget where
  count := maxPendingChunks
  weight := maxPendingChunkBytes

/-- What a waiting chunk counts for. -/
def Parked.weight (parked : Parked) : Nat := parked.chunk.ciphertext.length

/-- The running total is right, and the queue keeps to its budget. -/
structure Budgeted (s : WorkspaceState) : Prop where
  total : s.pendingBytes = load Parked.weight s.pendingChunks
  within : Within pendingBudget Parked.weight s.pendingChunks

/-- The queue is on its budget, and so many chunks were dropped for it. -/
def Spent (evicted : Nat) (p : WorkspaceState × Rng) : Prop :=
  Budgeted p.1 ∧ p.1.evictedChunks = evicted

theorem Spent.of_queue {evicted : Nat} {p p' : WorkspaceState × Rng} (hsame : p'.1.queue = p.1.queue)
    (h : Spent evicted p) : Spent evicted p' := by
  obtain ⟨hchunks, hrest⟩ := Prod.mk.inj hsame
  obtain ⟨hbytes, hevicted⟩ := Prod.mk.inj hrest
  refine ⟨⟨?_, ?_⟩, hevicted.trans h.2⟩
  · rw [hbytes, hchunks]
    exact h.1.total
  · rw [hchunks]
    exact h.1.within

theorem Library.Keeps.spent {α : Type} {x : Run α} {evicted : Nat}
    (h : Keeps (fun p : WorkspaceState × Rng => p.1.queue) x) : Maintains (Spent evicted) x :=
  h.maintains fun _ _ => Spent.of_queue

namespace WorkspaceState

/-! ## Parking a chunk -/

theorem evictFor_eq (size : Nat) (queue : List Parked) (evicted : Nat) :
    evictFor size queue (load Parked.weight queue) evicted =
      (retained pendingBudget Parked.weight size queue,
        load Parked.weight (retained pendingBudget Parked.weight size queue),
        evicted + (displaced pendingBudget Parked.weight size queue).length) := by
  induction queue generalizing evicted with
  | nil => rfl
  | cons oldest rest ih =>
      have hlighter : load Parked.weight (oldest :: rest) - oldest.chunk.ciphertext.length =
          load Parked.weight rest := by
        rw [load_cons]
        exact Nat.add_sub_cancel_left _ _
      rw [retained_cons, displaced]
      by_cases hover : pendingBudget.count ≤ (oldest :: rest).length ∨
          pendingBudget.weight < load Parked.weight (oldest :: rest) + size
      · have hevicts : evictFor size (oldest :: rest) (load Parked.weight (oldest :: rest)) evicted =
            evictFor size rest
              (load Parked.weight (oldest :: rest) - oldest.chunk.ciphertext.length)
              (evicted + 1) := if_pos hover
        rw [hevicts, hlighter, ih, if_pos hover, if_pos hover, List.length_cons, Nat.add_assoc,
          Nat.add_comm 1]
      · rw [if_neg hover, if_neg hover]
        exact if_neg hover

/-- What waits before a chunk is parked is what it displaces and what stays. -/
theorem parkChunk_queue {s : WorkspaceState} (h : Budgeted s) (doc : DocumentUuid)
    (chunk : Chunk OpHash) :
    (parkChunk doc chunk s).pendingChunks =
        retained pendingBudget Parked.weight chunk.ciphertext.length s.pendingChunks ++
          [⟨doc, chunk, 0⟩] ∧
      (parkChunk doc chunk s).evictedChunks = s.evictedChunks +
        (displaced pendingBudget Parked.weight chunk.ciphertext.length s.pendingChunks).length := by
  unfold parkChunk
  rw [h.total, evictFor_eq]
  exact ⟨rfl, rfl⟩

theorem parkChunk_budgeted {s : WorkspaceState} (h : Budgeted s) (doc : DocumentUuid)
    (chunk : Chunk OpHash) : Budgeted (parkChunk doc chunk s) := by
  have hroom : Within pendingBudget Parked.weight
      (retained pendingBudget Parked.weight chunk.ciphertext.length s.pendingChunks ++
        [⟨doc, chunk, 0⟩]) :=
    .admitted (show 0 < maxPendingChunks by decide) s.pendingChunks (⟨doc, chunk, 0⟩ : Parked)
  refine ⟨?_, ?_⟩
  · rw [(parkChunk_queue h doc chunk).1, load_append]
    unfold parkChunk
    rw [h.total, evictFor_eq, load_cons, load_nil]
    rfl
  · rw [(parkChunk_queue h doc chunk).1]
    exact hroom

/-! ## Draining the queue -/

/-- Some of the chunks of these weights came back into the queue, in their order. -/
structure Requeued (weights : List Nat) (s s' : WorkspaceState) : Prop where
  back : ∃ kept : List Nat, kept.Sublist weights ∧
    s'.pendingChunks.map Parked.weight = s.pendingChunks.map Parked.weight ++ kept ∧
    s'.pendingBytes = s.pendingBytes + kept.sum
  evicted : s'.evictedChunks = s.evictedChunks

theorem Requeued.of_queue {s s' : WorkspaceState} (h : s'.queue = s.queue) : Requeued [] s s' := by
  obtain ⟨hchunks, hrest⟩ := Prod.mk.inj h
  obtain ⟨hbytes, hevicted⟩ := Prod.mk.inj hrest
  refine ⟨⟨[], .slnil, ?_, hbytes⟩, hevicted⟩
  rw [hchunks, List.append_nil]

theorem Requeued.after_queue {weights : List Nat} {s s₁ s' : WorkspaceState}
    (hsame : s₁.queue = s.queue) (h : Requeued weights s₁ s') : Requeued weights s s' := by
  obtain ⟨hchunks, hrest⟩ := Prod.mk.inj hsame
  obtain ⟨hbytes, hevicted⟩ := Prod.mk.inj hrest
  obtain ⟨hback, hcount⟩ := h
  rw [hchunks, hbytes] at hback
  exact ⟨hback, hcount.trans hevicted⟩

/-- A chunk that is done with does not come back. -/
theorem Requeued.done {weights : List Nat} {s s' : WorkspaceState} (h : Requeued weights s s')
    (weight : Nat) : Requeued (weight :: weights) s s' := by
  obtain ⟨kept, hkept, hchunks, hbytes⟩ := h.back
  exact ⟨⟨kept, hkept.cons weight, hchunks, hbytes⟩, h.evicted⟩

/-- One that is put back comes before those still to be tried. -/
theorem Requeued.again {weights : List Nat} {s s' : WorkspaceState} {parked : Parked}
    (h : Requeued weights (requeue parked s) s') : Requeued (parked.weight :: weights) s s' := by
  obtain ⟨kept, hkept, hchunks, hbytes⟩ := h.back
  refine ⟨⟨parked.weight :: kept, hkept.cons_cons parked.weight, ?_, ?_⟩, h.evicted⟩
  · rw [hchunks]
    simp [requeue, Parked.weight]
  · rw [hbytes, List.sum_cons]
    exact Nat.add_assoc _ _ _

theorem drainRound_requeues (queue : List Parked) (applied : Nat) (effects : List Effect)
    (s : WorkspaceState) (rng : Rng) :
    Wp (drainRound queue applied effects)
      (fun _ p => Requeued (queue.map Parked.weight) s p.1)
      (fun _ p => Requeued (queue.map Parked.weight) s p.1) (s, rng) := by
  induction queue generalizing applied effects s rng with
  | nil => exact .of_queue rfl
  | cons parked rest ih =>
      unfold drainRound
      rw [List.map_cons]
      refine ((tryApply_aside parked.doc parked.chunk).queue (s, rng)).seq (fun outcome p hp => ?_)
        fun _ p hp => ?_
      · have hdone : ∀ applied effects, ∀ s₁ : WorkspaceState, s₁.queue = s.queue →
            Wp (drainRound rest applied effects)
              (fun _ p => Requeued (parked.weight :: rest.map Parked.weight) s p.1)
              (fun _ p => Requeued (parked.weight :: rest.map Parked.weight) s p.1) (s₁, p.2) :=
          fun applied effects s₁ hsame => (ih applied effects s₁ p.2).mono
            (fun _ _ h => (h.after_queue hsame).done _) fun _ _ h => (h.after_queue hsame).done _
        have hagain : ∀ applied effects, Wp (drainRound rest applied effects)
            (fun _ p => Requeued (parked.weight :: rest.map Parked.weight) s p.1)
            (fun _ p => Requeued (parked.weight :: rest.map Parked.weight) s p.1)
            (requeue parked p.1, p.2) :=
          fun applied effects => (ih applied effects (requeue parked p.1) p.2).mono
            (fun _ _ h => h.again.after_queue hp) fun _ _ h => h.again.after_queue hp
        cases outcome with
        | applied => exact hdone _ _ p.1 hp
        | awaitingKey =>
            rw [wp_bind, wp_update]
            exact hagain _ _
        | awaitingDeps =>
            rw [wp_bind, wp_update]
            split_ifs
            · exact hagain _ _
            · exact hagain _ _
        | unreachable =>
            rw [wp_bind, wp_update]
            exact hdone _ _ _ hp
        | corrupt =>
            rw [wp_bind, wp_update]
            exact hdone _ _ _ hp
      · exact (Requeued.of_queue hp).back.elim fun kept h =>
          ⟨⟨kept, h.1.trans (List.nil_sublist _), h.2⟩, (Requeued.of_queue hp).evicted⟩

/-- Putting chunks back into an empty queue leaves no more than was there. -/
theorem Requeued.spent {evicted : Nat} {s s₁ s' : WorkspaceState} {rng rng' : Rng}
    (h : Requeued (s.pendingChunks.map Parked.weight) s₁ s') (hs : Spent evicted (s, rng))
    (hchunks : s₁.pendingChunks = []) (hbytes : s₁.pendingBytes = 0)
    (hevicted : s₁.evictedChunks = s.evictedChunks) : Spent evicted (s', rng') := by
  obtain ⟨kept, hkept, hback, htotal⟩ := h.back
  rw [hchunks, List.map_nil, List.nil_append] at hback
  rw [hbytes, Nat.zero_add] at htotal
  refine ⟨⟨?_, ?_⟩, h.evicted.trans (hevicted.trans hs.2)⟩
  · rw [htotal, ← hback]
    rfl
  · refine hs.1.within.of_sublist ?_
    rw [hback]
    exact hkept

theorem drainPending_spent (evicted : Nat) : Maintains (Spent evicted) drainPending := by
  have hrounds : ∀ fuel effects, Maintains (Spent evicted) (drainRounds fuel effects) := by
    intro fuel
    induction fuel with
    | zero => exact fun _ => .pure _
    | succ fuel ih =>
        rintro effects ⟨s, rng⟩ hs
        unfold drainRounds
        rw [wp_bind, wp_self, wp_bind, wp_update]
        refine (drainRound_requeues s.pendingChunks 0 effects _ rng).seq (fun result p hp => ?_)
          fun _ p hp => hp.spent hs rfl rfl rfl
        have hp' : Spent evicted p := hp.spent hs rfl rfl rfl
        dsimp only
        split_ifs
        · exact hp'
        · exact ih _ p hp'
  exact self_aside.queue.spent.bind fun s => hrounds _ _

/-! ## The other programs -/

private theorem foldl_sub_weight (dropped : List Parked) (bytes : Nat) :
    dropped.foldl (fun bytes parked => bytes - parked.chunk.ciphertext.length) bytes =
      bytes - load Parked.weight dropped := by
  induction dropped generalizing bytes with
  | nil => rfl
  | cons parked rest ih =>
      rw [List.foldl_cons, ih, load_cons, Nat.sub_add_eq]
      rfl

theorem dropDoc_spent {evicted : Nat} {s : WorkspaceState} {rng : Rng} (doc : DocumentUuid)
    (h : Spent evicted (s, rng)) : Spent evicted (dropDoc doc s, rng) := by
  have hsplit := load_filter_add Parked.weight (fun parked => decide (parked.doc = doc))
    s.pendingChunks
  have htotal : s.pendingBytes = load Parked.weight s.pendingChunks := h.1.total
  refine ⟨⟨?_, ?_⟩, h.2⟩
  · change List.foldl _ s.pendingBytes _ = load _ (s.pendingChunks.filter _)
    rw [foldl_sub_weight]
    simp only [decide_eq_true_eq] at hsplit
    simp only [ne_eq]
    omega
  · exact h.1.within.of_sublist (List.filter_sublist.map Parked.weight)

theorem onDeleteFile_spent (evicted : Nat) (doc : DocumentUuid) :
    Maintains (Spent evicted) (onDeleteFile doc) :=
  requireWrite_aside.queue.spent.bind fun _ => self_aside.queue.spent.bind fun _ =>
    (onManifest_aside _).queue.spent.bind fun _ =>
      .bind (fun _ hp => dropDoc_spent doc hp) fun _ =>
        (publishManifest_aside _).queue.spent.bind fun _ => .pure _

theorem publishKeyed_queue (doc : DocumentUuid) (keying : Keying) (extent : Extent) :
    Keeps (fun p : WorkspaceState × Rng => p.1.queue) (publishKeyed doc keying extent) :=
  self_aside.queue.bind fun _ => (openDoc_aside doc).queue.bind fun _ => (Keeps.verdict _).bind
    fun _ => self_aside.queue.bind fun _ => (encryptKeyed_aside _ _ _).queue.bind fun _ =>
      .bind (.modify fun _ => rfl) fun _ => self_aside.queue.bind fun _ => .pure _

theorem publish_queue (doc : DocumentUuid) :
    Keeps (fun p : WorkspaceState × Rng => p.1.queue) (publish doc) :=
  self_aside.queue.bind fun _ => publishKeyed_queue _ _ _

theorem onTextEdit_queue (doc : DocumentUuid) (now : UnixSeconds)
    (mutate : EStateM String LoroDoc Unit) :
    Keeps (fun p : WorkspaceState × Rng => p.1.queue) (onTextEdit doc now mutate) :=
  requireWrite_aside.queue.bind fun _ => self_aside.queue.bind fun _ =>
    (openDoc_aside doc).queue.bind fun _ => (onDoc_aside _ _ _).queue.bind fun _ =>
      (onDoc_aside _ _ _).queue.bind fun _ => (onDoc_aside _ _ _).queue.bind fun _ =>
        publish_queue doc

theorem onRevert_queue (doc : DocumentUuid) (version : VersionId) (now : UnixSeconds) :
    Keeps (fun p : WorkspaceState × Rng => p.1.queue) (onRevert doc version now) := by
  refine requireWrite_aside.queue.bind fun _ => .ite (.throw _) ?_
  refine self_aside.queue.bind fun s => ?_
  cases s.docs.get? doc with
  | none => exact .throw _
  | some loro =>
      exact (onDoc_aside _ _ _).queue.bind fun _ => (onDoc_aside _ _ _).queue.bind fun _ =>
        (onDoc_aside _ _ _).queue.bind fun _ => publish_queue doc

theorem onResync_queue (doc : DocumentUuid) :
    Keeps (fun p : WorkspaceState × Rng => p.1.queue) (onResync doc) :=
  requireWrite_aside.queue.bind fun _ => self_aside.queue.bind fun _ => .ite (.pure _)
    ((isPublished_aside doc).queue.bind fun _ => .ite (.pure _) (publishKeyed_queue _ _ _))

theorem repairDocument_queue (doc : DocumentUuid) (keying : Keying) :
    Keeps (fun p : WorkspaceState × Rng => p.1.queue) (repairDocument doc keying) := by
  refine self_aside.queue.bind fun s => .ite ?_ (.pure _)
  refine requireWrite_aside.attempt.queue.bind fun outcome => ?_
  cases outcome with
  | ok _ => exact publishKeyed_queue _ _ _
  | error err => exact .pure _

/-! ## Every call -/

theorem onChunkArrived_spent {evicted : Nat} (doc : DocumentUuid) (chunk : Chunk OpHash)
    {s : WorkspaceState} (hs : Budgeted s) (hevicted : s.evictedChunks = evicted) (rng : Rng) :
    Spent (evicted + (if s.pendingChunks.any fun parked =>
        parked.doc = doc ∧ parked.chunk.contentRef = chunk.contentRef ∧
          parked.chunk.pcsKeyHash = chunk.pcsKeyHash then []
      else displaced pendingBudget Parked.weight chunk.ciphertext.length s.pendingChunks).length)
      (after (onChunkArrived doc chunk) (s, rng)) := by
  refine Wp.after ?_
  unfold onChunkArrived
  rw [wp_bind, wp_self]
  dsimp only
  split_ifs with hknown
  · exact drainPending_spent _ (s, rng) ⟨hs, hevicted⟩
  · rw [wp_bind, wp_update]
    refine drainPending_spent _ (parkChunk doc chunk s, rng) ⟨parkChunk_budgeted hs doc chunk, ?_⟩
    rw [← hevicted]
    exact (parkChunk_queue hs doc chunk).2

theorem onControlOp_spent (evicted : Nat) (authorized : AuthorizedOp) :
    Maintains (Spent evicted) (onControlOp authorized) := by
  refine (onCgka_aside _).queue.spent.bind fun outcome => ?_
  split
  · exact (onCgka_aside _).queue.spent.bind fun _ => (drainPending_spent evicted).bind fun _ =>
      self_aside.queue.spent.bind fun _ => .pure _
  · exact .pure _

theorem onCertsArrived_spent (evicted : Nat) (certs : List Certificate) :
    Maintains (Spent evicted) (onCertsArrived certs) :=
  (onCgka_aside _).queue.spent.bind fun _ => .ite
    ((onCgka_aside _).queue.spent.bind fun _ => (drainPending_spent evicted).bind fun _ =>
      runQuorumActions_aside.queue.spent.bind fun _ => .pure _)
    runQuorumActions_aside.queue.spent

theorem handleLog_spent (evicted : Nat) (now : UnixSeconds) (ops : List ControlOp)
    (effects : List Effect) : Maintains (Spent evicted) (handleLog now ops effects) := by
  induction ops generalizing effects with
  | nil => exact .pure _
  | cons op rest ih =>
      unfold handleLog
      refine (onControlOp_spent evicted (.bare op)).attempt.bind fun outcome => ?_
      cases outcome with
      | ok more => exact ih _
      | error err => exact ih _

theorem onNamespaceMinted_queue (epoch : U32) (ticket : Bytes) :
    Keeps (fun p : WorkspaceState × Rng => p.1.queue) (onNamespaceMinted epoch ticket) :=
  self_aside.queue.bind fun _ => .ite (.pure _) ((onCgkaRng_aside _).queue.bind fun _ =>
    .bind (.modify fun _ => rfl) fun _ => .pure _)

theorem onNamespaceArrived_queue (epoch : U32) (chunk : Chunk OpHash) :
    Keeps (fun p : WorkspaceState × Rng => p.1.queue) (onNamespaceArrived epoch chunk) := by
  refine (onCgka_aside _).queue.bind fun outcome => ?_
  split
  · exact .pure _
  · exact .pure _
  · exact self_aside.queue.bind fun _ => .ite (.pure _)
      (.bind (.modify fun _ => rfl) fun _ => .pure _)

theorem onRepairRequested_queue (requester : Bytes32) (target : RepairTarget) :
    Keeps (fun p : WorkspaceState × Rng => p.1.queue) (onRepairRequested requester target) := by
  have hanswer : ∀ {x : Run (List Effect)},
      Keeps (fun p : WorkspaceState × Rng => p.1.queue) x →
        Keeps (fun p : WorkspaceState × Rng => p.1.queue) (do
          let effects ← x
          if effects ≠ [] then
            update fun s => { s with repairsAnswered := s.repairsAnswered + 1 }
          return effects) := by
    intro x hx
    refine hx.bind fun effects => ?_
    dsimp only
    split_ifs
    · exact .bind (.modify fun _ => rfl) fun _ => .pure _
    · exact .pure _
  refine self_aside.queue.bind fun s => .ite (.throw _) ?_
  cases target with
  | namespace_ => exact hanswer (republishNamespace_aside _).queue
  | manifest => exact hanswer (publishManifest_aside _).queue
  | assetKey asset => exact .pure _
  | document doc => exact hanswer (repairDocument_queue doc .fresh)
  | documentHistory doc => exact hanswer (repairDocument_queue doc .current)

/-- An event that neither tries the waiting chunks nor deletes a document leaves the queue
alone. -/
theorem handle_queue {event : Event} (now : UnixSeconds) (hdrains : event.drains = false)
    (hdelete : ∀ doc, event ≠ .deleteFile doc) :
    Keeps (fun p : WorkspaceState × Rng => p.1.queue) (handle event now) := by
  cases event with
  | deleteFile doc => exact absurd rfl (hdelete doc)
  | localEdit doc text => exact onTextEdit_queue doc now _
  | writeFile doc text => exact onTextEdit_queue doc now _
  | insertText doc pos text => exact onTextEdit_queue doc now _
  | removeText doc pos len => exact onTextEdit_queue doc now _
  | revertDocument doc version => exact onRevert_queue doc version now
  | resync doc => exact onResync_queue doc
  | namespaceMinted epoch ticket => exact onNamespaceMinted_queue epoch ticket
  | namespaceArrived epoch chunk => exact onNamespaceArrived_queue epoch chunk
  | repairRequested requester target epoch => exact onRepairRequested_queue requester target
  | _ => exact fun p => (handle_aside (s := p.1) now rfl rfl hdrains).queue p

theorem restoreEntries_queue (live : List DocumentUuid) (now : UnixSeconds)
    (entries : List (DocumentUuid × VersionId)) (effects : List Effect)
    (outcomes : List RestoreOutcome) :
    Keeps (fun p : WorkspaceState × Rng => p.1.queue)
      (restoreEntries live now entries effects outcomes) := by
  induction entries generalizing effects outcomes with
  | nil => exact .pure _
  | cons entry rest ih =>
      obtain ⟨doc, version⟩ := entry
      unfold restoreEntries
      refine self_aside.queue.bind fun s => .ite (ih _ _) (.ite (ih _ _) ?_)
      refine (onRevert_queue doc version now).attempt.bind fun outcome => ?_
      split
      · exact ih _ _
      · exact ih _ _
      · exact ih _ _
      · exact .throw _

theorem restoreCheckpoint_queue (digest : Bytes32) (now : UnixSeconds) :
    Keeps (fun p : WorkspaceState × Rng => p.1.queue) (restoreCheckpoint digest now) := by
  refine requireWrite_aside.queue.bind fun _ => self_aside.queue.bind fun s => ?_
  split
  · exact .throw _
  · exact restoreEntries_queue _ _ _ _ _

end WorkspaceState

open WorkspaceState

/-- The chunks a call drops for the budget: those an arriving one displaces. -/
def Call.displaces (s : WorkspaceState) : Call → List Parked
  | .handle (.chunkArrived doc chunk) _ =>
      if s.pendingChunks.any fun parked =>
          parked.doc = doc ∧ parked.chunk.contentRef = chunk.contentRef ∧
            parked.chunk.pcsKeyHash = chunk.pcsKeyHash then []
      else displaced pendingBudget Parked.weight chunk.ciphertext.length s.pendingChunks
  | _ => []

theorem onControl_spent (evicted : Nat) (msg : ControlMsg) (now : UnixSeconds) :
    Maintains (Spent evicted) (onControl msg now) := by
  have hsized : ∀ ops certs, Maintains (Spent evicted) (refuseOversized ops certs) := by
    intro ops certs
    unfold refuseOversized
    exact .ite (.throw _) (.pure _)
  cases msg with
  | op op proof => exact onControlOp_spent evicted ⟨op, proof⟩
  | certs certs => exact (hsized _ _).bind fun _ => onCertsArrived_spent evicted certs
  | log ops certs =>
      exact (hsized _ _).bind fun _ => (onCertsArrived_spent evicted certs).bind fun _ =>
        handleLog_spent evicted now ops _
  | announce announced => exact .pure _
  | namespace_ epoch chunk => exact (onNamespaceArrived_queue epoch chunk).spent
  | repair member target epoch =>
      exact ((Keeps.verdict _).bind fun requester =>
        onRepairRequested_queue requester target).spent

/-- Every call leaves the queue on its budget, and counts what it dropped for it. -/
theorem Call.spent (call : Call) {s : WorkspaceState} (hs : Budgeted s) (rng : Rng) :
    Spent (s.evictedChunks + (call.displaces s).length) (after call.run (s, rng)) := by
  have hmaintains : ∀ call : Call, Maintains (Spent s.evictedChunks) call.run →
      call.displaces s = [] →
        Spent (s.evictedChunks + (call.displaces s).length) (after call.run (s, rng)) := by
    intro call h hnone
    rw [hnone]
    exact h.after ⟨hs, rfl⟩
  have hother : ∀ (event : Event) (now : UnixSeconds), event.drains = false →
      (∀ doc, event ≠ .deleteFile doc) → Call.displaces s (.handle event now) = [] →
        Spent (s.evictedChunks + (Call.displaces s (.handle event now)).length)
          (after (Call.run (.handle event now)) (s, rng)) := fun event now hdrains hdelete =>
    hmaintains (.handle event now) (handle_queue now hdrains hdelete).spent
  cases call with
  | handle event now =>
      cases event with
      | chunkArrived doc chunk => exact onChunkArrived_spent doc chunk hs rfl rng
      | controlOp op => exact hmaintains _ (onControlOp_spent _ op) rfl
      | certsArrived certs => exact hmaintains _ (onCertsArrived_spent _ certs) rfl
      | deleteFile doc => exact hmaintains _ (onDeleteFile_spent _ doc) rfl
      | _ => exact hother _ now rfl (fun doc hdoc => absurd hdoc (by simp)) rfl
  | onControl msg now => exact hmaintains _ (onControl_spent _ msg now) rfl
  | checkpoint name message now =>
      exact hmaintains _ ((checkpoint_aside name message now).bind fun _ => .pure _).queue.spent rfl
  | restoreCheckpoint digest now =>
      exact hmaintains _ ((restoreCheckpoint_queue digest now).bind fun _ => .pure _).spent rfl
  | addAssetVersion doc content assetMeta now =>
      exact hmaintains _ (addAssetVersion_aside doc content assetMeta now).queue.spent rfl
  | revertAsset doc content now =>
      exact hmaintains _ (revertAsset_aside doc content now).queue.spent rfl
  | sealAssetKey asset =>
      exact hmaintains _ ((sealAssetKey_aside asset).bind fun _ => .pure _).queue.spent rfl
  | openAssetKey keyChunk =>
      exact hmaintains _ ((openAssetKey_aside keyChunk).bind fun _ => .pure _).queue.spent rfl
  | resealAssetKey requester asset keyChunk =>
      exact hmaintains _ (resealAssetKey_aside requester asset keyChunk).queue.spent rfl

/-! ## Runs -/

/-- The runs of a node, with the chunks that were dropped for the budget since its process
started. -/
def budgetRuns : Chart WorkspaceState Turn (List Parked) where
  init s dropped := (Founded s ∨ Joined s) ∧ dropped = []
  step := Turn.take
  note turn s dropped :=
    match turn with
    | .call made _ => dropped ++ made.displaces s
    | .restart order rng =>
        if Library.succeeds (WorkspaceState.restart order) (s, rng) then [] else dropped
  ok _ _ _ := True

theorem budgeted_of_fresh {s : WorkspaceState} (h : s.queue = ([], 0, 0)) :
    Budgeted s ∧ s.evictedChunks = 0 := by
  obtain ⟨hchunks, hrest⟩ := Prod.mk.inj h
  obtain ⟨hbytes, hevicted⟩ := Prod.mk.inj hrest
  refine ⟨⟨?_, ?_⟩, hevicted⟩
  · rw [hbytes, hchunks]
    rfl
  · rw [hchunks]
    exact .nil _ _

theorem queue_of_snapshot {order : HashOrder} {s s' : WorkspaceState}
    {snapshot : WorkspaceSnapshot} (hsnapshot : s.snapshot order = .ok snapshot)
    (h : WorkspaceState.fromSnapshot snapshot = .ok s') : s'.queue = ([], 0, 0) := by
  obtain ⟨docs, -, hsnapshot⟩ := bind_eq_ok.mp hsnapshot
  obtain ⟨manifest, -, hsnapshot⟩ := bind_eq_ok.mp hsnapshot
  obtain rfl := Except.ok.inj hsnapshot
  obtain ⟨manifest', -, h⟩ := bind_eq_ok.mp h
  obtain ⟨docs', -, h⟩ := bind_eq_ok.mp h
  obtain ⟨c, -, h⟩ := bind_eq_ok.mp h
  obtain rfl := Except.ok.inj h
  rfl

/-- A node that resumes has nothing waiting, and one that does not goes on as it was. -/
theorem restart_queue (order : HashOrder) (s : WorkspaceState) (rng : Rng) :
    Wp (WorkspaceState.restart order) (fun _ p => p.1.queue = ([], 0, 0)) (fun _ p => p.1 = s)
      (s, rng) := by
  unfold WorkspaceState.restart
  rw [wp_bind, wp_self, wp_bind, wp_verdict]
  cases hsnapshot : s.snapshot order with
  | error err => rfl
  | ok snapshot =>
      dsimp only
      rw [wp_bind, wp_verdict]
      cases hresumed : WorkspaceState.fromSnapshot snapshot with
      | error err => rfl
      | ok s' => exact queue_of_snapshot hsnapshot hresumed

theorem Turn.spent (turn : Turn) {s : WorkspaceState} {dropped : List Parked}
    (hs : Budgeted s) (hevicted : s.evictedChunks = dropped.length) :
    Budgeted (turn.take s) ∧
      (turn.take s).evictedChunks = (budgetRuns.note turn s dropped).length := by
  cases turn with
  | call made rng =>
      have hcall := made.spent hs rng
      rw [hevicted, ← List.length_append] at hcall
      exact hcall
  | restart order rng =>
      have hspec := restart_queue order s rng
      change Budgeted (after (WorkspaceState.restart order) (s, rng)).1 ∧
        (after (WorkspaceState.restart order) (s, rng)).1.evictedChunks =
          (if Library.succeeds (WorkspaceState.restart order) (s, rng) then []
            else dropped : List Parked).length
      unfold Wp at hspec
      unfold Library.succeeds after
      cases hrun : WorkspaceState.restart order (s, rng) with
      | ok effects p =>
          rw [hrun] at hspec
          exact budgeted_of_fresh hspec
      | error err p =>
          rw [hrun] at hspec
          dsimp only at hspec ⊢
          rw [hspec]
          exact ⟨hs, hevicted⟩

/-- In every run of a node the running total is what the waiting chunks weigh, they keep to
the budget, and the evictions are the chunks that were dropped for it: an arriving chunk
drops the oldest, as many as the budget demands, and the others stay in their order. -/
theorem budget_holds {s : WorkspaceState} {dropped : List Parked}
    (h : budgetRuns.Course s dropped) :
    s.pendingBytes = (s.pendingChunks.map fun parked => parked.chunk.ciphertext.length).sum ∧
      s.pendingChunks.length ≤ maxPendingChunks ∧
      (s.pendingBytes ≤ maxPendingChunkBytes ∨ s.pendingChunks.length = 1) ∧
      s.evictedChunks = dropped.length ∧
      ∀ doc chunk, ∃ kept, s.pendingChunks =
          displaced pendingBudget Parked.weight chunk.ciphertext.length s.pendingChunks ++ kept ∧
        (parkChunk doc chunk s).pendingChunks = kept ++ [⟨doc, chunk, 0⟩] := by
  have hspent : Budgeted s ∧ s.evictedChunks = dropped.length := by
    refine h.invariant (P := fun s dropped => Budgeted s ∧ s.evictedChunks = dropped.length) ?_ ?_
    · rintro s dropped ⟨hstart, rfl⟩
      obtain ⟨c, secret, epoch, hsame⟩ := part_of_start WorkspaceState.queue (fun _ _ => rfl)
        (fun _ _ => rfl) hstart
      exact budgeted_of_fresh hsame
    · intro s dropped turn hs _
      exact turn.spent hs.1 hs.2
  obtain ⟨hbudgeted, hevicted⟩ := hspent
  refine ⟨hbudgeted.total, hbudgeted.within.count, ?_, hevicted, fun doc chunk => ?_⟩
  · rw [hbudgeted.total]
    exact hbudgeted.within.weight
  · exact ⟨_, (displaced_append_retained _ _ _ _).symm, (parkChunk_queue hbudgeted doc chunk).1⟩

end IrohBeekem

namespace IrohBeekem

open Library WorkspaceState

section Samples

local instance waitingKeyhive : Keyhive := transparentKeyhive

local instance waitingBeekem : Beekem := listBeekem

local instance waitingLoro : Loro := listLoro

local instance waitingPostcard : Postcard := blankPostcard

/-- A chunk keyed by an operation of some other workspace. -/
def foreignChunk : Chunk OpHash := ⟨[1, 2, 3], 7, [], 0, OpId.of sampleFounder.cgka.init⟩

/-- The founder waits for that operation. -/
@[irreducible] def waitingNode : WorkspaceState :=
  Turn.take (.call (.handle (.chunkArrived 5 foreignChunk) 0) (0 : Nat)) (sampleWorkspace 1)

/-- The chunk waits, and nothing had to go for it. -/
theorem budget_holds_waiting :
    waitingNode.pendingChunks.length = 1 ∧
      waitingNode.pendingBytes =
        (waitingNode.pendingChunks.map fun parked => parked.chunk.ciphertext.length).sum ∧
      waitingNode.evictedChunks = 0 := by
  have hstart : budgetRuns.Course (sampleWorkspace 1) [] :=
    .start ⟨Or.inl (sampleWorkspace_founded (by decide +kernel)), rfl⟩
  have hcourse := hstart.step (.call (.handle (.chunkArrived 5 foreignChunk) 0) (0 : Nat)) trivial
  have hdropped : ([] ++ Call.displaces (sampleWorkspace 1)
      (.handle (.chunkArrived 5 foreignChunk) 0) : List Parked).length = 0 := by decide +kernel
  have hholds := budget_holds hcourse
  unfold waitingNode
  exact ⟨by decide +kernel, hholds.1, hholds.2.2.2.1.trans hdropped⟩

end Samples

end IrohBeekem
