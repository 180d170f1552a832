import IrohBeekem.State.Coverage
import IrohBeekem.State.Replicas

/-!
# Missed deltas

The index keeps one chunk of a document for each author, so a receiver may miss any
number of deltas.  It notices when the latest one cannot be merged: then that chunk
stays parked, and after enough passes over the queue the receiver asks for the document's
history.

A delta depends on everything published before it as soon as it carries an operation of
the publisher's own.  An edit or a revert that changes nothing publishes all the same, and
its delta depends on nothing: a receiver merges it and never learns what it missed.  Runs
in which every delta is of an edit that changes the replica are safe
(`missed_delta_noticed`).
-/

set_option linter.unusedSectionVars false

namespace IrohBeekem

open Library WorkspaceState

variable [Keyhive] [Beekem] [Loro] [Postcard]

/-! ## The publisher -/

/-- The document an event changes, and how. -/
def Event.mutation : Event → Option (DocumentUuid × EStateM String LoroDoc Unit)
  | .localEdit doc text => some (doc, do
      let loro ← get
      Loro.insertText (Loro.lenUnicode loro) text)
  | .writeFile doc text => some (doc, Loro.updateText text)
  | .insertText doc pos text => some (doc, do
      let loro ← get
      Loro.insertText (min pos (Loro.lenUnicode loro)) text)
  | .removeText doc pos len => some (doc, do
      let loro ← get
      let stop := Loro.lenUnicode loro
      let start := min pos stop
      Loro.deleteText start (min len (stop - start)))
  | .revertDocument doc version => some (doc, Loro.revertTo version)
  | _ => none

/-- The events of a document's history: edits, reverts, resyncs, repairs and merges. -/
def Event.ofHistory : Event → Bool
  | .resync _ | .chunkArrived _ _ => true
  | .repairRequested _ (.document _) _ | .repairRequested _ (.documentHistory _) _ => true
  | event => event.mutation.isSome

/-- An edit or a revert that goes out as a delta adds an operation to the replica. -/
def Event.Adds {Op : Type} (h : History Op) (s : WorkspaceState) (now : UnixSeconds)
    (event : Event) : Prop :=
  ∀ doc mutate, event.mutation = some (doc, mutate) → s.publishExtent doc = .delta →
    ¬ h.ops (after (revise s.memberId now mutate) (s.replica doc)) ⊆ h.ops (s.replica doc)

/-- The runs of a publisher whose events meet a condition, with the chunks of a document in
the order they went out. -/
def publisherRuns (doc : DocumentUuid) (ok : Event → UnixSeconds → WorkspaceState → Prop) :
    Chart WorkspaceState Turn (List Bytes) where
  init s chunks := s.publishedUpTo.get? doc = none ∧ chunks = []
  step := Turn.take
  note turn s chunks := match turn with
    | .call made rng => chunks ++ (made.emitted doc (s, rng)).map Publication.content
    | .restart _ _ => chunks
  ok turn s _ := match turn with
    | .call (.handle event now) _ => event.ofHistory = true ∧ ok event now s
    | _ => False

/-- Whoever holds what the latest chunk carries holds all that was published. -/
structure Anchored {Op : Type} (h : History Op) (doc : DocumentUuid) (s : WorkspaceState)
    (chunks : List Bytes) : Prop where
  held : ∀ v, s.publishedUpTo.get? doc = some v → h.covered v ⊆ h.ops (s.replica doc)
  latest : ∀ v content, s.publishedUpTo.get? doc = some v → chunks.getLast? = some content →
    ∀ d, h.carried content ⊆ h.ops d → h.covered v ⊆ h.ops d

section Publisher

variable {Op : Type} {h : History Op} {s : WorkspaceState}

theorem Event.mutation_extends (hlaws : h.LawfulEdits) {event : Event} {doc : DocumentUuid}
    {mutate : EStateM String LoroDoc Unit} (hmutation : event.mutation = some (doc, mutate)) :
    h.Extends mutate := by
  cases event with
  | localEdit doc' text =>
      obtain ⟨rfl, rfl⟩ := Prod.mk.inj (Option.some.inj hmutation)
      exact .bind .get fun _ => hlaws.insertText _ _
  | writeFile doc' text =>
      obtain ⟨rfl, rfl⟩ := Prod.mk.inj (Option.some.inj hmutation)
      exact hlaws.updateText _
  | insertText doc' pos text =>
      obtain ⟨rfl, rfl⟩ := Prod.mk.inj (Option.some.inj hmutation)
      exact .bind .get fun _ => hlaws.insertText _ _
  | removeText doc' pos len =>
      obtain ⟨rfl, rfl⟩ := Prod.mk.inj (Option.some.inj hmutation)
      exact .bind .get fun _ => hlaws.deleteText _ _
  | revertDocument doc' version =>
      obtain ⟨rfl, rfl⟩ := Prod.mk.inj (Option.some.inj hmutation)
      exact hlaws.revertTo _
  | _ => exact absurd hmutation (by simp [Event.mutation])

/-- An event that changes a document leaves the changed replica. -/
theorem handle_replica {event : Event} (now : UnixSeconds) {doc : DocumentUuid}
    {mutate : EStateM String LoroDoc Unit} (hmutation : event.mutation = some (doc, mutate))
    (p : WorkspaceState × Rng) :
    Wp (handle event now)
      (fun _ p' => p'.1.replica doc = after (revise p.1.memberId now mutate) (p.1.replica doc))
      (fun _ _ => True) p := by
  cases event with
  | localEdit doc' text =>
      obtain ⟨rfl, rfl⟩ := Prod.mk.inj (Option.some.inj hmutation)
      exact onTextEdit_replica _ now _ p
  | writeFile doc' text =>
      obtain ⟨rfl, rfl⟩ := Prod.mk.inj (Option.some.inj hmutation)
      exact onTextEdit_replica _ now _ p
  | insertText doc' pos text =>
      obtain ⟨rfl, rfl⟩ := Prod.mk.inj (Option.some.inj hmutation)
      exact onTextEdit_replica _ now _ p
  | removeText doc' pos len =>
      obtain ⟨rfl, rfl⟩ := Prod.mk.inj (Option.some.inj hmutation)
      exact onTextEdit_replica _ now _ p
  | revertDocument doc' version =>
      obtain ⟨rfl, rfl⟩ := Prod.mk.inj (Option.some.inj hmutation)
      exact onRevert_replica _ _ now p
  | _ => exact absurd hmutation (by simp [Event.mutation])

/-- The events of a document's history lose no operation. -/
theorem handle_raises (hlaws : h.LawfulEdits) {event : Event} (now : UnixSeconds)
    (hevent : event.ofHistory = true) : Raises (holdings h) (handle event now) := by
  have hanswer : ∀ {x : Run (List Effect)}, Keeps replicas x → Keeps replicas (do
      let effects ← x
      if effects ≠ [] then
        update fun s => { s with repairsAnswered := s.repairsAnswered + 1 }
      return effects) := by
    intro x hx
    refine hx.bind fun effects => ?_
    dsimp only
    split_ifs
    · refine Keeps.bind (update_replicas ?_) fun _ => .pure _
      exact fun _ => rfl
    · exact .pure _
  have hmutate : ∀ {doc mutate}, event.mutation = some (doc, mutate) → h.Extends mutate :=
    fun hm => event.mutation_extends hlaws hm
  cases event with
  | localEdit doc text => exact onTextEdit_raises hlaws doc now (hmutate rfl)
  | writeFile doc text => exact onTextEdit_raises hlaws doc now (hmutate rfl)
  | insertText doc pos text => exact onTextEdit_raises hlaws doc now (hmutate rfl)
  | removeText doc pos len => exact onTextEdit_raises hlaws doc now (hmutate rfl)
  | revertDocument doc version => exact onRevert_raises hlaws doc version now
  | resync doc => exact onResync_raises hlaws.toLawful doc
  | chunkArrived doc chunk => exact onChunkArrived_raises (holdings_tried hlaws.toLawful) doc chunk
  | repairRequested requester target epoch =>
      refine (holdings_of_replicas self_replicas).bind fun s => ?_
      split_ifs
      · cases target with
        | document doc => exact holdings_of_replicas (hanswer (repairDocument_replicas doc .fresh))
        | documentHistory doc =>
            exact holdings_of_replicas (hanswer (repairDocument_replicas doc .current))
        | _ => exact absurd hevent (by simp [Event.ofHistory, Event.mutation])
      · exact .throw _
  | _ => exact absurd hevent (by simp [Event.ofHistory, Event.mutation])

/-- Only an edit or a revert publishes a delta. -/
theorem Event.mutation_of_delta {event : Event} {doc : DocumentUuid}
    (hships : event.ships? s = some (doc, .delta)) :
    s.publishExtent doc = .delta ∧ ∃ mutate, event.mutation = some (doc, mutate) := by
  cases event with
  | localEdit doc' text =>
      obtain ⟨rfl, hextent⟩ := Prod.mk.inj (Option.some.inj hships)
      exact ⟨hextent, _, rfl⟩
  | writeFile doc' text =>
      obtain ⟨rfl, hextent⟩ := Prod.mk.inj (Option.some.inj hships)
      exact ⟨hextent, _, rfl⟩
  | insertText doc' pos text =>
      obtain ⟨rfl, hextent⟩ := Prod.mk.inj (Option.some.inj hships)
      exact ⟨hextent, _, rfl⟩
  | removeText doc' pos len =>
      obtain ⟨rfl, hextent⟩ := Prod.mk.inj (Option.some.inj hships)
      exact ⟨hextent, _, rfl⟩
  | revertDocument doc' version =>
      obtain ⟨rfl, hextent⟩ := Prod.mk.inj (Option.some.inj hships)
      exact ⟨hextent, _, rfl⟩
  | resync doc' =>
      obtain ⟨rfl, hextent⟩ := Prod.mk.inj (Option.some.inj hships)
      exact absurd hextent (by simp)
  | repairRequested requester target epoch =>
      cases target with
      | document doc' => exact absurd hships (by simp [Event.ships?, RepairTarget.ships?])
      | documentHistory doc' => exact absurd hships (by simp [Event.ships?, RepairTarget.ships?])
      | _ => exact absurd hships (by simp [Event.ships?, RepairTarget.ships?])
  | _ => exact absurd hships (by simp [Event.ships?])

/-- What a chunk with an operation of the publisher's own carries leads to all before it. -/
theorem History.Lawful.covered_of_delta (hlaws : h.Lawful) {v content : Bytes}
    {before source d : LoroDoc} (hdecodes : Loro.decodesVv v = true)
    (hexport : Loro.exportAs (.updates v) source = .ok content)
    (hheld : h.covered v ⊆ h.ops before)
    (hnew : ∀ o ∈ h.ops source, o ∉ h.ops before → h.ops before ⊆ h.past o)
    (hadds : ¬ h.ops source ⊆ h.ops before) (hcarried : h.carried content ⊆ h.ops d) :
    h.ops source ⊆ h.ops d := by
  rw [hlaws.carried_updates v source content hdecodes hexport] at hcarried
  obtain ⟨own, hown, hnot⟩ := Set.not_subset.mp hadds
  have hownHeld : own ∈ h.ops d := hcarried ⟨hown, fun hcovered => hnot (hheld hcovered)⟩
  have hbefore : h.ops before ⊆ h.ops d := (hnew own hown hnot).trans (hlaws.closed d own hownHeld)
  intro o ho
  by_cases hcovered : o ∈ h.covered v
  · exact hbefore (hheld hcovered)
  · exact hcarried ⟨ho, hcovered⟩

/-- The chunk an event publishes leads to all that was published. -/
theorem Anchored.ship (hlaws : h.LawfulEdits) {doc : DocumentUuid} {s' : WorkspaceState}
    {extent : Extent} {content : Bytes}
    (hheld : ∀ v, s.publishedUpTo.get? doc = some v → h.covered v ⊆ h.ops (s.replica doc))
    (hshipped : Shipped doc extent content s s')
    (hdelta : extent = .delta →
      (∀ o ∈ h.ops (s'.replica doc), o ∉ h.ops (s.replica doc) → h.ops (s.replica doc) ⊆ h.past o) ∧
        ¬ h.ops (s'.replica doc) ⊆ h.ops (s.replica doc))
    (chunks : List Bytes) : Anchored h doc s' (chunks ++ [content]) := by
  obtain ⟨loro, hdoc, hexport, hversions⟩ := hshipped.content
  have hreplica : s'.replica doc = loro := by
    unfold replica
    rw [hdoc, Option.getD_some]
  have hcovered : ∀ v, s'.publishedUpTo.get? doc = some v → h.covered v = h.ops loro := by
    intro v hv
    rw [hversions, BTreeMap.get?_set, if_pos rfl] at hv
    rw [← Option.some.inj hv, hlaws.covered_oplogVv]
  refine ⟨fun v hv => ?_, fun v latest hv hlatest d hcarried => ?_⟩
  · rw [hcovered v hv, hreplica]
  · obtain rfl : content = latest := by simpa using hlatest
    rw [hcovered v hv]
    have hfull : Loro.exportAs .allUpdates loro = .ok content → h.ops loro ⊆ h.ops d := by
      intro hall
      rw [← hlaws.carried_all loro content hall]
      exact hcarried
    cases extent with
    | full => exact hfull hexport
    | delta =>
        cases hbase : s.publishedUpTo.get? doc with
        | none =>
            rw [hbase] at hexport
            exact hfull hexport
        | some base =>
            rw [hbase] at hexport
            by_cases hdecodes : Loro.decodesVv base = true
            · rw [show exportMode (some base) .delta = .updates base from if_pos hdecodes] at hexport
              obtain ⟨hnew, hadds⟩ := hdelta rfl
              rw [hreplica] at hnew hadds
              exact hlaws.covered_of_delta hdecodes hexport (hheld base hbase) hnew hadds hcarried
            · rw [show exportMode (some base) .delta = .allUpdates from if_neg hdecodes] at hexport
              exact hfull hexport

/-- An event that has not touched what is on record of the document. -/
theorem Anchored.keep {doc : DocumentUuid} {s' : WorkspaceState} {chunks : List Bytes}
    (hanchored : Anchored h doc s chunks)
    (hversion : s'.publishedUpTo.get? doc = s.publishedUpTo.get? doc)
    (hraises : h.ops (s.replica doc) ⊆ h.ops (s'.replica doc)) : Anchored h doc s' chunks := by
  refine ⟨fun v hv => ?_, fun v content hv => ?_⟩
  · rw [hversion] at hv
    exact (hanchored.held v hv).trans hraises
  · rw [hversion] at hv
    exact hanchored.latest v content hv

theorem Anchored.event (hlaws : h.LawfulEdits) {doc : DocumentUuid} {chunks : List Bytes}
    (hanchored : Anchored h doc s chunks) {event : Event} {now : UnixSeconds} (rng : Rng)
    (hevent : event.ofHistory = true) (hadds : event.Adds h s now) :
    Anchored h doc (after (handle event now) (s, rng)).1
      (chunks ++ (Call.emitted doc (.handle event now) (s, rng)).map Publication.content) := by
  have hraises := (handle_raises hlaws now hevent).after (s, rng) doc
  change h.ops (s.replica doc) ⊆ h.ops ((after (handle event now) (s, rng)).1.replica doc) at hraises
  have hemitted : Call.emitted doc (.handle event now) (s, rng) =
      (published (handle event now) (event.ships? s) (s, rng)).filter fun item => item.doc = doc :=
    rfl
  rw [hemitted]
  cases hships : event.ships? s with
  | none =>
      have hclears : event.clears = false := by
        cases event with
        | deleteFile doc => exact absurd hevent (by simp [Event.ofHistory, Event.mutation])
        | namespaceMinted epoch ticket =>
            exact absurd hevent (by simp [Event.ofHistory, Event.mutation])
        | namespaceArrived epoch chunk =>
            exact absurd hevent (by simp [Event.ofHistory, Event.mutation])
        | _ => rfl
      have hkept : (after (handle event now) (s, rng)).1.record = s.record :=
        Wp.after (P := fun p : WorkspaceState × Rng => p.1.record = s.record)
          (handle_books now hships hclears (s, rng))
      have hnone : published (handle event now) none (s, rng) = [] := rfl
      rw [hnone, List.filter_nil, List.map_nil, List.append_nil]
      exact hanchored.keep (congrArg (fun r => BTreeMap.get? r.1 doc) hkept) hraises
  | some target =>
      obtain ⟨doc', extent⟩ := target
      obtain ⟨calledFor, hprogram, hextent, -⟩ := handle_ships now hships
      have hrun := hprogram s rng
      rw [hextent] at hrun
      unfold Wp at hrun
      cases hresult : handle event now (s, rng) with
      | error err p =>
          have hafter : after (handle event now) (s, rng) = p := by
            unfold after
            rw [hresult]
          have hnone : published (handle event now) (some (doc', extent)) (s, rng) = [] := by
            unfold published
            rw [hresult]
          rw [hresult] at hrun
          rw [hafter] at hraises ⊢
          rw [hnone, List.filter_nil, List.map_nil, List.append_nil]
          exact hanchored.keep (congrArg (fun r => BTreeMap.get? r.1 doc) hrun) hraises
      | ok effects p =>
          have hafter : after (handle event now) (s, rng) = p := by
            unfold after
            rw [hresult]
          rw [hresult] at hrun
          rw [hafter] at hraises ⊢
          cases effects with
          | nil =>
              have hnone : published (handle event now) (some (doc', extent)) (s, rng) = [] := by
                unfold published
                rw [hresult]
              have hbooks := hrun.resolve_right fun hships => hships.1 rfl
              rw [hnone, List.filter_nil, List.map_nil, List.append_nil]
              exact hanchored.keep (congrArg (fun r => BTreeMap.get? r.1 doc) hbooks.2) hraises
          | cons effect more =>
              have hone : published (handle event now) (some (doc', extent)) (s, rng) =
                  [⟨doc', extent, shippedContent doc' extent s p.1⟩] := by
                unfold published
                rw [hresult]
              obtain ⟨-, hshipped⟩ := hrun.resolve_left fun hnone => absurd hnone.1 (by simp)
              rw [hone]
              by_cases hdoc : doc' = doc
              · subst hdoc
                rw [List.filter_cons_of_pos (by simp), List.filter_nil, List.map_cons, List.map_nil]
                refine .ship hlaws hanchored.held hshipped (fun hdelta => ?_) chunks
                rw [hdelta] at hships
                obtain ⟨hcalled, mutate, hmutation⟩ := Event.mutation_of_delta hships
                rw [(handle_replica now hmutation (s, rng)).of_ok hresult]
                exact ⟨(revise_extends hlaws s.memberId now
                  (event.mutation_extends hlaws hmutation) _).2, hadds _ mutate hmutation hcalled⟩
              · rw [List.filter_cons_of_neg (by simpa using hdoc), List.filter_nil, List.map_nil,
                  List.append_nil]
                obtain ⟨loro, -, -, hversions⟩ := hshipped.content
                refine hanchored.keep ?_ hraises
                rw [hversions, BTreeMap.get?_set, if_neg (Ne.symm hdoc)]

theorem Anchored.of_course (hlaws : h.LawfulEdits) {doc : DocumentUuid} {chunks : List Bytes}
    (hcourse : (publisherRuns doc fun event now s => event.Adds h s now).Course s chunks) :
    Anchored h doc s chunks := by
  refine hcourse.invariant ?_ ?_
  · rintro s _ ⟨hnone, rfl⟩
    refine ⟨fun v hv => ?_, fun v content hv => ?_⟩
    · exact absurd (hnone.symm.trans hv) (by simp)
    · exact absurd (hnone.symm.trans hv) (by simp)
  · intro s chunks turn hanchored hok
    cases turn with
    | restart order rng => exact hok.elim
    | call made rng =>
        cases made with
        | handle event now => exact hanchored.event hlaws rng hok.1 hok.2
        | _ => exact hok.elim

end Publisher

/-! ## The receiver -/

/-- The controller after it has tried to decrypt these. -/
def decrypted (c : CgkaController) (chunks : List (Chunk OpHash)) : CgkaController :=
  chunks.foldl (fun c chunk => after (CgkaController.decrypt chunk) c) c

/-- Whatever is decrypted first, the keys of these copies of a chunk can be derived, and
under them they hold this content. -/
def Derivable (c : CgkaController) (known : List (Chunk OpHash)) (chunk : Chunk OpHash)
    (content : Bytes) : Prop :=
  ∀ before, ∀ copy ∈ known, copy.contentRef = chunk.contentRef →
    copy.pcsKeyHash = chunk.pcsKeyHash →
      ∃ c', CgkaController.decrypt copy (decrypted c before) = .ok (.plaintext content) c'

/-- A receiver that can read the chunk in whichever of these copies it has parked it. -/
structure Reads (known : List (Chunk OpHash)) (chunk : Chunk OpHash) (content : Bytes)
    (s : WorkspaceState) : Prop where
  keys : Derivable s.cgka known chunk content
  queue : ∀ parked ∈ s.pendingChunks, parked.chunk ∈ known

/-- The state after these chunks have arrived one by one. -/
def receive (arrivals : List (DocumentUuid × Chunk OpHash)) (p : WorkspaceState × Rng) :
    WorkspaceState × Rng :=
  arrivals.foldl (fun p arrival => after (onChunkArrived arrival.1 arrival.2) p) p

/-- The chunk is parked, and that many passes over the queue found operations missing. -/
def Awaits (doc : DocumentUuid) (chunk : Chunk OpHash) (s : WorkspaceState) (passes : Nat) : Prop :=
  ∃ parked ∈ s.pendingChunks, parked.copies doc chunk ∧ passes ≤ parked.drains

section Receiver

variable {Op : Type} {h : History Op} {doc : DocumentUuid} {known : List (Chunk OpHash)}
  {chunk : Chunk OpHash} {content : Bytes}

theorem Derivable.decrypt {c : CgkaController} (hkeys : Derivable c known chunk content)
    (other : Chunk OpHash) :
    Derivable (after (CgkaController.decrypt other) c) known chunk content :=
  fun before copy => hkeys (other :: before) copy

/-- What a node holds and has parked, apart from the documents. -/
def besides (p : WorkspaceState × Rng) : CgkaController × List Parked :=
  (p.1.cgka, p.1.pendingChunks)

theorem openDoc_besides (doc : DocumentUuid) (p : WorkspaceState × Rng) :
    Wp (openDoc doc) (fun _ p' => besides p' = besides p) (fun _ _ => False) p := by
  unfold openDoc
  rw [wp_bind, wp_self]
  cases p.1.docs.get? doc with
  | some loro => exact rfl
  | none => exact rfl

/-- Merging a chunk that could be read. -/
theorem mergeChunk_spec (hlaws : h.Lawful) (doc : DocumentUuid) (chunk : Chunk OpHash)
    (content : Bytes) (p : WorkspaceState × Rng) :
    Wp (do
      let _ ← openDoc doc
      match ← attempt (onDoc doc CoreError.manifest (Loro.importBytes content)) with
      | .ok false =>
          update fun s => { s with lastRef := s.lastRef.set doc chunk.contentRef }
          return ChunkVerdict.applied
      | _ => return ChunkVerdict.awaitingDeps : Run ChunkVerdict)
      (fun verdict p' => besides p' = besides p ∧
        (verdict = .applied ∧ h.carried content ⊆ h.ops (p'.1.replica doc) ∨
          verdict = .awaitingDeps))
      (fun _ _ => False) p := by
  refine (openDoc_besides doc p).seq (fun _ p₁ hopened => ?_) fun _ _ => id
  rw [wp_bind, wp_attempt]
  unfold onDoc
  rw [wp_zoom]
  refine wp_of_run (fun pending loro hrun => ?_) fun err loro hrun => ⟨hopened, Or.inr rfl⟩
  cases pending with
  | true => exact ⟨hopened, Or.inr rfl⟩
  | false =>
      refine ⟨hopened, Or.inl ⟨rfl, ?_⟩⟩
      have hreplica := replica_set p₁.1 doc doc loro
      rw [if_pos rfl] at hreplica
      change h.carried content ⊆ h.ops
        (({ p₁.1 with docs := p₁.1.docs.set doc loro } : WorkspaceState).replica doc)
      rw [hreplica]
      exact hlaws.import_clean content _ loro hrun

/-- What trying a chunk does. -/
theorem tryApply_reads (hlaws : h.Lawful) (doc : DocumentUuid) (chunk : Chunk OpHash)
    (s : WorkspaceState) (rng : Rng) :
    Wp (tryApply doc chunk)
      (fun verdict p => p.1.cgka = after (CgkaController.decrypt chunk) s.cgka ∧
        p.1.pendingChunks = s.pendingChunks ∧
        ∀ content c', CgkaController.decrypt chunk s.cgka = .ok (.plaintext content) c' →
          verdict = .applied ∧ h.carried content ⊆ h.ops (p.1.replica doc) ∨
            verdict = .awaitingDeps)
      (fun _ _ => False) (s, rng) := by
  unfold tryApply
  rw [wp_bind, wp_attempt, wp_onCgka]
  unfold Wp after
  cases hrun : CgkaController.decrypt chunk s.cgka with
  | error err c => exact ⟨rfl, rfl, fun _ _ hok => absurd hok (by simp)⟩
  | ok outcome c =>
      cases outcome with
      | awaitingOp => exact ⟨rfl, rfl, fun _ _ hok => absurd hok (by simp)⟩
      | unreachable => exact ⟨rfl, rfl, fun _ _ hok => absurd hok (by simp)⟩
      | plaintext content =>
          have hmerge := mergeChunk_spec hlaws doc chunk content ({ s with cgka := c }, rng)
          refine Wp.mono hmerge (fun verdict p hp => ?_) fun _ _ => id
          obtain ⟨hcgka, hpending⟩ := Prod.mk.inj hp.1
          refine ⟨hcgka, hpending, fun content' c' hok => ?_⟩
          obtain rfl : content = content' := by
            have heq := (EStateM.Result.ok.inj hok).1
            exact DecryptOutcome.plaintext.inj heq
          exact hp.2

/-- The chunk has been merged, or one more pass found operations missing and, once there
were enough of them, asked for the document's history. -/
def Noticed (h : History Op) (doc : DocumentUuid) (chunk : Chunk OpHash) (content : Bytes)
    (passes : Nat) (s : WorkspaceState) (effects : List Effect) : Prop :=
  h.carried content ⊆ h.ops (s.replica doc) ∨
    Awaits doc chunk s (passes + 1) ∧
      (maxDepWaitDrains ≤ passes + 1 →
        ∃ epoch, .requestRepair (.documentHistory doc) epoch ∈ effects)

theorem Noticed.mono {passes : Nat} {s s' : WorkspaceState} {effects effects' : List Effect}
    (hnoticed : Noticed h doc chunk content passes s effects)
    (hraises : h.ops (s.replica doc) ⊆ h.ops (s'.replica doc))
    (hpending : ∀ parked ∈ s.pendingChunks, parked ∈ s'.pendingChunks)
    (heffects : ∀ e ∈ effects, e ∈ effects') : Noticed h doc chunk content passes s' effects' := by
  rcases hnoticed with hheld | ⟨⟨parked, hmem, hcopies⟩, hasks⟩
  · exact Or.inl (hheld.trans hraises)
  · refine Or.inr ⟨⟨parked, hpending parked hmem, hcopies⟩, fun hmax => ?_⟩
    obtain ⟨epoch, hepoch⟩ := hasks hmax
    exact ⟨epoch, heffects _ hepoch⟩

/-- One pass over the queue. -/
theorem drainRound_notices (hlaws : h.Lawful) (doc : DocumentUuid) (passes : Nat)
    (queue : List Parked) (applied : Nat) (effects : List Effect) (s : WorkspaceState) (rng : Rng)
    (hreads : Reads known chunk content s) (hqueue : ∀ parked ∈ queue, parked.chunk ∈ known) :
    Wp (drainRound queue applied effects)
      (fun r p => Reads known chunk content p.1 ∧
        ((Noticed h doc chunk content passes s effects ∨
            ∃ parked ∈ queue, parked.copies doc chunk ∧ passes ≤ parked.drains) →
          Noticed h doc chunk content passes p.1 r.2))
      (fun _ _ => False) (s, rng) := by
  induction queue generalizing applied effects s rng with
  | nil =>
      refine ⟨hreads, fun hstart => hstart.resolve_right ?_⟩
      rintro ⟨parked, hmem, -⟩
      exact absurd hmem List.not_mem_nil
  | cons parked rest ih =>
      unfold drainRound
      refine ((tryApply_reads hlaws parked.doc parked.chunk s rng).and
        (tryApply_raises hlaws parked.doc parked.chunk (s, rng))).seq ?_ fun _ _ hfails => hfails.1
      rintro verdict ⟨s₁, rng₁⟩ ⟨⟨hcgka, hpending, hverdict⟩, hraises⟩
      have hknown : parked.chunk ∈ known := hqueue parked List.mem_cons_self
      have hreads₁ : Reads known chunk content s₁ := by
        refine ⟨?_, fun other hmem => hreads.queue other ?_⟩
        · rw [show s₁.cgka = _ from hcgka]
          exact hreads.keys.decrypt parked.chunk
        · rw [show s₁.pendingChunks = _ from hpending] at hmem
          exact hmem
      have hreads₂ : Reads known chunk content (requeue parked s₁) := by
        refine ⟨hreads₁.keys, fun other hmem => ?_⟩
        rcases List.mem_append.mp hmem with hmem | hmem
        · exact hreads₁.queue other hmem
        · rw [List.mem_singleton.mp hmem]
          exact hknown
      have hread : parked.copies doc chunk →
          verdict = .applied ∧ h.carried content ⊆ h.ops (s₁.replica doc) ∨
            verdict = .awaitingDeps := by
        rintro ⟨rfl, href, hkey⟩
        obtain ⟨c', hrun⟩ := hreads.keys [] parked.chunk hknown href hkey
        exact hverdict content c' hrun
      -- the rest of the pass goes on from what this attempt has noticed
      have hrest : ∀ (n : Nat) (effects₂ : List Effect) (s₂ : WorkspaceState),
          Reads known chunk content s₂ → s₂.replica = s₁.replica →
          (∀ x ∈ s₁.pendingChunks, x ∈ s₂.pendingChunks) → (∀ e ∈ effects, e ∈ effects₂) →
          (parked.copies doc chunk → passes ≤ parked.drains →
            Noticed h doc chunk content passes s₂ effects₂) →
          Wp (drainRound rest n effects₂)
            (fun r p => Reads known chunk content p.1 ∧
              ((Noticed h doc chunk content passes s effects ∨ ∃ other ∈ parked :: rest,
                  other.copies doc chunk ∧ passes ≤ other.drains) →
                Noticed h doc chunk content passes p.1 r.2))
            (fun _ _ => False) (s₂, rng₁) := by
        intro n effects₂ s₂ hreads hreplica hkept heffects htried
        refine (ih n effects₂ s₂ rng₁ hreads fun other hmem =>
          hqueue other (List.mem_cons_of_mem _ hmem)).mono (fun r p hp => ⟨hp.1, ?_⟩) fun _ _ => id
        rintro (hnoticed | ⟨other, hmem, hcopies, hdrains⟩)
        · refine hp.2 (Or.inl (hnoticed.mono ?_ (fun x hx => hkept x ?_) heffects))
          · rw [hreplica]
            exact hraises doc
          · rw [show s₁.pendingChunks = _ from hpending]
            exact hx
        · rcases List.mem_cons.mp hmem with rfl | hmem
          · exact hp.2 (Or.inl (htried hcopies hdrains))
          · exact hp.2 (Or.inr ⟨other, hmem, hcopies, hdrains⟩)
      have hkept : ∀ x ∈ s₁.pendingChunks, x ∈ (requeue parked s₁).pendingChunks :=
        fun x hx => List.mem_append_left _ hx
      cases verdict with
      | applied =>
          refine hrest _ _ s₁ hreads₁ rfl (fun _ => id) (fun e he => List.mem_append_left _ he)
            fun hcopies _ => Or.inl ?_
          rcases hread hcopies with ⟨-, hheld⟩ | hother
          · exact hheld
          · exact absurd hother (by simp)
      | awaitingKey =>
          refine hrest _ _ (requeue parked s₁) hreads₂ rfl hkept (fun _ => id) fun hcopies _ => ?_
          rcases hread hcopies with ⟨hother, -⟩ | hother
          · exact absurd hother (by simp)
          · exact absurd hother (by simp)
      | unreachable =>
          refine hrest _ _ _ ⟨hreads₁.keys, hreads₁.queue⟩ rfl (fun _ => id)
            (fun e he => List.mem_append_left _ he) fun hcopies _ => ?_
          rcases hread hcopies with ⟨hother, -⟩ | hother
          · exact absurd hother (by simp)
          · exact absurd hother (by simp)
      | corrupt =>
          refine hrest _ _ _ ⟨hreads₁.keys, hreads₁.queue⟩ rfl (fun _ => id) (fun _ => id)
            fun hcopies _ => ?_
          rcases hread hcopies with ⟨hother, -⟩ | hother
          · exact absurd hother (by simp)
          · exact absurd hother (by simp)
      | awaitingDeps =>
          have hawaits : parked.copies doc chunk → passes ≤ parked.drains →
              Awaits doc chunk (requeue parked s₁) (passes + 1) := by
            intro hcopies hdrains
            refine ⟨_, List.mem_append_right _ (List.mem_singleton_self _), hcopies, ?_⟩
            change passes + 1 ≤ parked.drains + 1
            omega
          change Wp (if maxDepWaitDrains ≤ parked.drains + 1 then _ else _) _ _
            (requeue parked s₁, rng₁)
          split_ifs with hmax
          · refine hrest _ _ (requeue parked s₁) hreads₂ rfl hkept
              (fun e he => List.mem_append_left _ he) fun hcopies hdrains =>
                Or.inr ⟨hawaits hcopies hdrains, fun _ => ⟨epochId parked.chunk, ?_⟩⟩
            refine List.mem_append_right _ ?_
            rw [hcopies.1]
            exact List.mem_singleton_self _
          · refine hrest _ _ (requeue parked s₁) hreads₂ rfl hkept (fun _ => id)
              fun hcopies hdrains => Or.inr ⟨hawaits hcopies hdrains, fun hmax' => ?_⟩
            omega

theorem drainRounds_notices (hlaws : h.Lawful) (doc : DocumentUuid) (passes fuel : Nat)
    (effects : List Effect) (s : WorkspaceState) (rng : Rng) (hreads : Reads known chunk content s) :
    Wp (drainRounds fuel effects)
      (fun effects' p => Reads known chunk content p.1 ∧
        ((Noticed h doc chunk content passes s effects ∨
            0 < fuel ∧ Awaits doc chunk s passes) →
          Noticed h doc chunk content passes p.1 effects'))
      (fun _ _ => False) (s, rng) := by
  induction fuel generalizing effects s rng with
  | zero =>
      refine ⟨hreads, fun hstart => hstart.resolve_right fun hnone => ?_⟩
      exact absurd hnone.1 (lt_irrefl 0)
  | succ fuel ih =>
      unfold drainRounds
      rw [wp_bind, wp_self, wp_bind, wp_update]
      -- the queue is taken out, and tried chunk by chunk
      have hemptied : Reads known chunk content
          { s with pendingChunks := [], pendingBytes := 0 } :=
        ⟨hreads.keys, fun _ hmem => absurd hmem List.not_mem_nil⟩
      have hround : (Noticed h doc chunk content passes s effects ∨
          0 < fuel + 1 ∧ Awaits doc chunk s passes) →
          Noticed h doc chunk content passes { s with pendingChunks := [], pendingBytes := 0 }
            effects ∨
          ∃ parked ∈ s.pendingChunks, parked.copies doc chunk ∧ passes ≤ parked.drains := by
        rintro ((hheld | ⟨⟨parked, hmem, hcopies, hdrains⟩, -⟩) | ⟨-, hawaits⟩)
        · exact Or.inl (Or.inl hheld)
        · exact Or.inr ⟨parked, hmem, hcopies, by omega⟩
        · exact Or.inr hawaits
      refine (drainRound_notices hlaws doc passes s.pendingChunks 0 effects _ rng hemptied
        hreads.queue).seq (fun r p hp => ?_) fun _ _ => id
      obtain ⟨applied, effects'⟩ := r
      dsimp only
      split_ifs
      · exact ⟨hp.1, fun hstart => hp.2 (hround hstart)⟩
      · refine (ih effects' p.1 p.2 hp.1).mono (fun _ p' hp' => ⟨hp'.1, fun hstart => ?_⟩)
          fun _ _ => id
        exact hp'.2 (Or.inl (hp.2 (hround hstart)))

/-- What a pass over the queue does about a chunk that has been merged or is parked. -/
theorem drainPending_notices (hlaws : h.Lawful) (doc : DocumentUuid) (passes : Nat)
    (s : WorkspaceState) (rng : Rng) (hreads : Reads known chunk content s) :
    Wp drainPending
      (fun effects p => Reads known chunk content p.1 ∧
        ((h.carried content ⊆ h.ops (s.replica doc) ∨ Awaits doc chunk s passes) →
          Noticed h doc chunk content passes p.1 effects))
      (fun _ _ => False) (s, rng) := by
  unfold drainPending
  rw [wp_bind, wp_self]
  refine (drainRounds_notices hlaws doc passes _ [] s rng hreads).mono
    (fun _ p hp => ⟨hp.1, fun hstart => hp.2 ?_⟩) fun _ _ => id
  rcases hstart with hheld | hawaits
  · exact Or.inl (Or.inl hheld)
  · exact Or.inr ⟨Nat.succ_pos _, hawaits⟩

/-- Parking a chunk drops chunks at most. -/
theorem mem_parkChunk {doc' : DocumentUuid} {other : Chunk OpHash} {s : WorkspaceState}
    {parked : Parked} (hmem : parked ∈ (parkChunk doc' other s).pendingChunks) :
    parked ∈ s.pendingChunks ∨ parked = ⟨doc', other, 0⟩ := by
  have hevicts : ∀ (size : Nat) (queue : List Parked) (bytes evicted : Nat),
      ∀ x ∈ (evictFor size queue bytes evicted).1, x ∈ queue := by
    intro size queue
    induction queue with
    | nil => exact fun _ _ _ => id
    | cons oldest rest ih =>
        intro bytes evicted x hx
        unfold evictFor at hx
        split_ifs at hx
        · exact List.mem_cons_of_mem _ (ih _ _ x hx)
        · exact hx
  rcases List.mem_append.mp hmem with hmem | hmem
  · exact Or.inl (hevicts _ _ _ _ parked hmem)
  · exact Or.inr (List.mem_singleton.mp hmem)

theorem Reads.park {s : WorkspaceState} (hreads : Reads known chunk content s)
    {other : Chunk OpHash} (hknown : other ∈ known) (doc' : DocumentUuid) :
    Reads known chunk content (parkChunk doc' other s) := by
  refine ⟨hreads.keys, fun parked hmem => ?_⟩
  rcases mem_parkChunk hmem with hmem | rfl
  · exact hreads.queue parked hmem
  · exact hknown

/-- Whatever arrives, the chunk can be read; and if it is the chunk itself, it has been
merged or its operations are found missing. -/
theorem onChunkArrived_notices (hlaws : h.Lawful) (doc : DocumentUuid) {other : Chunk OpHash}
    (hknown : other ∈ known) (doc' : DocumentUuid) (s : WorkspaceState) (rng : Rng) (hreads : Reads known chunk content s) :
    Wp (onChunkArrived doc' other)
      (fun effects p => Reads known chunk content p.1 ∧
        (doc' = doc → other = chunk → Noticed h doc chunk content 0 p.1 effects))
      (fun _ _ => False) (s, rng) := by
  unfold onChunkArrived
  rw [wp_bind, wp_self]
  dsimp only
  split_ifs with hparked
  · refine (drainPending_notices hlaws doc 0 s rng hreads).mono (fun _ p hp => ⟨hp.1, ?_⟩) fun _ _ => id
    rintro rfl rfl
    obtain ⟨parked, hmem, hcopies⟩ := List.any_eq_true.mp hparked
    exact hp.2 (Or.inr ⟨parked, hmem, by simpa [Parked.copies] using hcopies, Nat.zero_le _⟩)
  · rw [wp_bind, wp_update]
    refine (drainPending_notices hlaws doc 0 (parkChunk doc' other s) rng (hreads.park hknown doc')).mono
      (fun _ p hp => ⟨hp.1, ?_⟩) fun _ _ => id
    rintro rfl rfl
    exact hp.2 (Or.inr ⟨⟨doc', other, 0⟩, List.mem_append_right _ (List.mem_singleton_self _),
      ⟨rfl, rfl, rfl⟩, le_rfl⟩)

/-! ## Noticing -/

/-- So many passes over the queue, one after the other. -/
def drainTimes : Nat → Run (List Effect)
  | 0 => return []
  | n + 1 => do
      let effects ← drainTimes n
      let more ← drainPending
      return effects ++ more

theorem drainTimes_notices (hlaws : h.Lawful) (passes n : Nat) (s : WorkspaceState) (rng : Rng)
    (hreads : Reads known chunk content s)
    (hstart : h.carried content ⊆ h.ops (s.replica doc) ∨ Awaits doc chunk s passes) :
    Wp (drainTimes n)
      (fun effects p => Reads known chunk content p.1 ∧
        (h.carried content ⊆ h.ops (p.1.replica doc) ∨ Awaits doc chunk p.1 (passes + n) ∧
          (0 < n → maxDepWaitDrains ≤ passes + n →
            ∃ epoch, .requestRepair (.documentHistory doc) epoch ∈ effects)))
      (fun _ _ => False) (s, rng) := by
  induction n with
  | zero =>
      refine ⟨hreads, hstart.imp_right fun hawaits => ⟨hawaits, fun hpos => ?_⟩⟩
      exact absurd hpos (lt_irrefl 0)
  | succ n ih =>
      refine ih.seq (fun effects p hp => ?_) fun _ _ => id
      obtain ⟨hreads₁, hso_far⟩ := hp
      refine (drainPending_notices hlaws doc (passes + n) p.1 p.2 hreads₁).seq
        (fun more p' hp' => ?_) fun _ _ => id
      have hnoticed := hp'.2 (hso_far.imp_right And.left)
      refine ⟨hp'.1, hnoticed.imp_right fun hasks => ⟨hasks.1, fun _ hmax => ?_⟩⟩
      obtain ⟨epoch, hepoch⟩ := hasks.2 hmax
      exact ⟨epoch, List.mem_append_right _ hepoch⟩

/-- Everything up to this version is held, or the chunk waits for operations that are missing,
and unless they come the passes over the queue ask for the document's history. -/
def Detects (h : History Op) (doc : DocumentUuid) (chunk : Chunk OpHash) (v : Bytes)
    (p : WorkspaceState × Rng) : Prop :=
  h.covered v ⊆ h.ops (p.1.replica doc) ∨
    Awaits doc chunk p.1 1 ∧
      ∃ effects p', drainTimes (maxDepWaitDrains - 1) p = .ok effects p' ∧
        (h.covered v ⊆ h.ops (p'.1.replica doc) ∨
          ∃ epoch, .requestRepair (.documentHistory doc) epoch ∈ effects)

theorem receive_reads (hlaws : h.Lawful) (arrivals : List (DocumentUuid × Chunk OpHash))
    (p : WorkspaceState × Rng) (hknown : ∀ arrival ∈ arrivals, arrival.2 ∈ known)
    (hreads : Reads known chunk content p.1) : Reads known chunk content (receive arrivals p).1 := by
  induction arrivals generalizing p with
  | nil => exact hreads
  | cons arrival rest ih =>
      refine ih _ (fun other hmem => hknown other (List.mem_cons_of_mem _ hmem)) ?_
      refine Wp.after (P := fun p : WorkspaceState × Rng => Reads known chunk content p.1) ?_
      exact (onChunkArrived_notices hlaws arrival.1 (hknown arrival List.mem_cons_self)
        arrival.1 p.1 p.2 hreads).mono (fun _ _ hp => hp.1) fun _ _ => False.elim

/-- The chunks a receiver meets: those it has parked, and those that arrive. -/
def WorkspaceState.meets (r : WorkspaceState) (arrivals : List (DocumentUuid × Chunk OpHash)) :
    List (Chunk OpHash) :=
  r.pendingChunks.map Parked.chunk ++ arrivals.map Prod.snd

/-- Whoever receives the latest chunk of a publisher whose deltas each add an operation of
its own, whatever it received before, holds all that was published or notices. -/
theorem missed_delta_noticed (hlaws : h.LawfulEdits) {s : WorkspaceState} {chunks : List Bytes}
    (hcourse : (publisherRuns doc fun event now s => event.Adds h s now).Course s chunks)
    {v : Bytes} (hversion : s.publishedUpTo.get? doc = some v)
    (hlatest : chunks.getLast? = some content) (r : WorkspaceState) (rng : Rng)
    (earlier : List (DocumentUuid × Chunk OpHash))
    (hkeys : Derivable r.cgka (r.meets (earlier ++ [(doc, chunk)])) chunk content) :
    Detects h doc chunk v (receive (earlier ++ [(doc, chunk)]) (r, rng)) := by
  have hleads : ∀ d, h.carried content ⊆ h.ops d → h.covered v ⊆ h.ops d :=
    (Anchored.of_course hlaws hcourse).latest v content hversion hlatest
  have hreceived : receive (earlier ++ [(doc, chunk)]) (r, rng) =
      after (onChunkArrived doc chunk) (receive earlier (r, rng)) := by
    simp [receive]
  have harrives : ∀ arrival ∈ earlier ++ [(doc, chunk)],
      arrival.2 ∈ r.meets (earlier ++ [(doc, chunk)]) :=
    fun arrival hmem => List.mem_append_right _ (List.mem_map_of_mem hmem)
  have hreads : Reads (r.meets (earlier ++ [(doc, chunk)])) chunk content r :=
    ⟨hkeys, fun parked hmem => List.mem_append_left _ (List.mem_map_of_mem hmem)⟩
  have hreads₁ := receive_reads hlaws.toLawful earlier (r, rng)
    (fun arrival hmem => harrives arrival (List.mem_append_left _ hmem)) hreads
  obtain ⟨effects, p, hrun, hreads₂, hnoticed⟩ :=
    (onChunkArrived_notices hlaws.toLawful doc
      (harrives (doc, chunk) (List.mem_append_right _ (List.mem_singleton_self _))) doc
      (receive earlier (r, rng)).1 (receive earlier (r, rng)).2 hreads₁).exists_ok
  have hafter : after (onChunkArrived doc chunk) (receive earlier (r, rng)) = p := by
    unfold after
    rw [show onChunkArrived doc chunk (receive earlier (r, rng)) = .ok effects p from hrun]
  rw [hreceived, hafter]
  rcases hnoticed rfl rfl with hheld | ⟨hawaits, -⟩
  · exact Or.inl (hleads _ hheld)
  · obtain ⟨later, p', hdrained, -, hend⟩ := (drainTimes_notices hlaws.toLawful 1
      (maxDepWaitDrains - 1) p.1 p.2 hreads₂ (Or.inr hawaits)).exists_ok
    refine Or.inr ⟨hawaits, later, p', hdrained, ?_⟩
    rcases hend with hheld | ⟨-, hasks⟩
    · exact Or.inl (hleads _ hheld)
    · exact Or.inr (hasks (by decide) (by decide))

end Receiver

end IrohBeekem

/-! ## An edit that changes nothing -/

namespace IrohBeekem

open Library WorkspaceState

section Samples

local instance gappedKeyhive : Keyhive := transparentKeyhive

local instance gappedBeekem : Beekem := listBeekem

local instance gappedLoro : Loro := clockLoro

local instance gappedPostcard : Postcard := blankPostcard

/-- Over lists, to decrypt changes nothing. -/
private theorem decrypt_list (chunk : Chunk OpHash) (c : CgkaController) :
    after (CgkaController.decrypt chunk) c = c := by
  refine Wp.after (P := fun c' => c' = c) ?_
  unfold CgkaController.decrypt
  have hkey : Wp (CgkaController.onTree (Beekem.decryptionKeyFor chunk)) (fun _ c' => c' = c)
      (fun _ c' => c' = c) c := by
    unfold CgkaController.onTree
    rw [wp_zoom]
    change Wp (ListCgka.decryptionKeyFor chunk) _ _ _
    unfold Wp ListCgka.decryptionKeyFor
    split_ifs
    · rfl
    · rfl
  rw [wp_bind, wp_attempt]
  refine hkey.mono (fun key c' hc => ?_) fun err c' hc => ?_
  · obtain rfl := hc
    dsimp only
    cases Beekem.tryDecrypt chunk key with
    | none => rfl
    | some plaintext => rfl
  · obtain rfl := hc
    dsimp only
    rw [wp_bind, wp_get]
    split_ifs
    · rfl
    · rfl

private theorem decrypted_list (c : CgkaController) (before : List (Chunk OpHash)) :
    decrypted c before = c := by
  unfold decrypted
  induction before with
  | nil => rfl
  | cons chunk rest ih =>
      rw [List.foldl_cons, decrypt_list]
      exact ih

/-- What a chunk holds, if it can be read. -/
def readBy (c : CgkaController) (chunk : Chunk OpHash) : Option Bytes :=
  match CgkaController.decrypt chunk c with
  | .ok (.plaintext content) _ => some content
  | _ => none

private theorem derivable_list {c : CgkaController} {known : List (Chunk OpHash)}
    {chunk : Chunk OpHash} {content : Bytes}
    (h : ∀ copy ∈ known, copy.contentRef = chunk.contentRef →
      copy.pcsKeyHash = chunk.pcsKeyHash → readBy c copy = some content) :
    Derivable c known chunk content := by
  intro before copy hcopy href hkey
  have hread := h copy hcopy href hkey
  rw [decrypted_list]
  unfold readBy at hread
  split at hread
  · next content' c' hrun =>
      obtain rfl := Option.some.inj hread
      exact ⟨c', hrun⟩
  · exact absurd hread (by simp)

/-- The founder has admitted device `2` and published nothing yet. -/
@[irreducible] def writer : WorkspaceState :=
  (after (Call.run (.handle (.addUser 2 102 .viewer "" none) 0)) (sampleWorkspace 1, (1 : Nat))).1

def writing (text : String) : Call := .handle (.writeFile 5 text) 0

/-- The chunk the founder emits when it changes the text of document `5` to this. -/
def emits (s : WorkspaceState) (text : String) : Chunk OpHash :=
  match (writing text).run (s, (1 : Nat)) with
  | .ok effects _ =>
      (effects.findSome? fun
        | .storeChunk _ _ chunk => some chunk
        | _ => none).getD ⟨[], 0, [], 0, .nil⟩
  | .error _ _ => ⟨[], 0, [], 0, .nil⟩

/-- The runs of the founder after it has changed the text to these, one after the other. -/
def written (texts : List String) : WorkspaceState × List Bytes :=
  (publisherRuns 5 fun _ _ _ => True).takeAll
    (texts.map fun text => .call (writing text) (1 : Nat)) (writer, [])

@[irreducible] def first : WorkspaceState × List Bytes := written ["a"]

@[irreducible] def second : WorkspaceState × List Bytes := written ["a", "ab"]

/-- The third edit changes nothing. -/
@[irreducible] def idle : WorkspaceState × List Bytes := written ["a", "ab", "ab"]

/-- Device `2`, which has the operations of the control plane and none of the chunks. -/
@[irreducible] def reader : WorkspaceState := joinedWorkspace first.1 2 102

/-- The first chunk and the one of the edit that changes nothing. -/
def idleArrivals : List (DocumentUuid × Chunk OpHash) :=
  [(5, emits writer "a"), (5, emits second.1 "ab")]

theorem idle_edit_unnoticed :
    ¬ ∀ (Op : Type) (h : History Op) (doc : DocumentUuid) (s : WorkspaceState)
      (chunks : List Bytes) (v content : Bytes) (r : WorkspaceState) (rng : Rng)
      (earlier : List (DocumentUuid × Chunk OpHash)) (chunk : Chunk OpHash), h.LawfulEdits →
      (publisherRuns doc fun _ _ _ => True).Course s chunks →
      s.publishedUpTo.get? doc = some v → chunks.getLast? = some content →
      Derivable r.cgka (r.meets (earlier ++ [(doc, chunk)])) chunk content →
        Detects h doc chunk v (receive (earlier ++ [(doc, chunk)]) (r, rng)) := by
  intro hall
  have hstart : (publisherRuns 5 fun _ _ _ => True).Course writer [] :=
    .start ⟨by decide +kernel, rfl⟩
  have hcourse : (publisherRuns 5 fun _ _ _ => True).Course idle.1 idle.2 := by
    unfold idle written
    exact hstart.takeAll (r := (writer, [])) _ ⟨⟨rfl, trivial⟩, ⟨rfl, trivial⟩, ⟨rfl, trivial⟩, trivial⟩
  have hdetects := hall Nat clockHistory 5 idle.1 idle.2 [0, 0, 0]
    [0, 0, 0, 1, 0, 0, 0, 1, 97, 98] reader (1 : Nat) [(5, emits writer "a")]
    (emits second.1 "ab") clockHistory_lawfulEdits hcourse (by decide +kernel) (by decide +kernel)
    (derivable_list (by decide +kernel))
  rcases hdetects with hheld | ⟨⟨parked, hmem, -⟩, -⟩
  · have hclock : ((receive idleArrivals (reader, (1 : Nat))).1.replica 5 : ListDoc).clock = 2 := by
      decide +kernel
    have hlast : 2 < ((receive idleArrivals (reader, (1 : Nat))).1.replica 5 : ListDoc).clock :=
      hheld (show 2 < [0, 0, 0].length by decide)
    omega
  · have hnone : (receive idleArrivals (reader, (1 : Nat))).1.pendingChunks = [] := by
      decide +kernel
    rw [show (receive ([(5, emits writer "a")] ++ [(5, emits second.1 "ab")])
      (reader, (1 : Nat))).1.pendingChunks = [] from hnone] at hmem
    exact absurd hmem List.not_mem_nil

/-- A change that counts adds an operation. -/
private theorem adds_list {s : WorkspaceState} {text : String}
    (h : s.publishExtent 5 = .full ∨ (s.replica 5 : ListDoc).clock <
      (after (revise s.memberId 0 (Loro.updateText text)) (s.replica 5) : ListDoc).clock) :
    Event.Adds clockHistory s 0 (.writeFile 5 text) := by
  intro doc mutate hmutation hdelta
  obtain ⟨rfl, rfl⟩ := Prod.mk.inj (Option.some.inj hmutation)
  rcases h with hfull | hmore
  · exact absurd (hfull.symm.trans hdelta) (by simp)
  · intro hsubset
    have hheld : (s.replica 5 : ListDoc).clock < (s.replica 5 : ListDoc).clock := hsubset hmore
    exact absurd hheld (lt_irrefl _)

/-- Every edit changes the text. -/
@[irreducible] def busy : WorkspaceState × List Bytes := written ["a", "ab", "abc"]

theorem missed_delta_noticed_busy :
    (receive [(5, emits writer "a"), (5, emits second.1 "abc")]
        (reader, (1 : Nat))).1.pendingChunks.map Parked.drains = [1] ∧
      Detects clockHistory 5 (emits second.1 "abc") [0, 0, 0, 0]
        (receive [(5, emits writer "a"), (5, emits second.1 "abc")] (reader, (1 : Nat))) := by
  have hstart : (publisherRuns 5 fun event now s => event.Adds clockHistory s now).Course writer [] :=
    .start ⟨by decide +kernel, rfl⟩
  have hcourse : (publisherRuns 5 fun event now s => event.Adds clockHistory s now).Course
      busy.1 busy.2 := by
    unfold busy written
    refine hstart.takeAll (r := (writer, [])) (["a", "ab", "abc"].map fun text =>
      .call (writing text) (1 : Nat)) ⟨⟨rfl, ?_⟩, ⟨rfl, ?_⟩, ⟨rfl, ?_⟩, trivial⟩
    · exact adds_list (Or.inl (by decide +kernel))
    · exact adds_list (Or.inr (by decide +kernel))
    · exact adds_list (Or.inr (by decide +kernel))
  have hlatest : busy.2.getLast? = some [0, 0, 0, 1, 0, 0, 0, 0, 1, 97, 98, 99] := by
    decide +kernel
  refine ⟨by decide +kernel, ?_⟩
  exact missed_delta_noticed clockHistory_lawfulEdits hcourse (by decide +kernel) hlatest reader
    (1 : Nat) [(5, emits writer "a")] (derivable_list (by decide +kernel))

end Samples

end IrohBeekem
