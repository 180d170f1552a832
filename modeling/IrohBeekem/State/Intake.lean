import IrohBeekem.Docs.History
import IrohBeekem.Keys.Offered
import IrohBeekem.State.Call
import IrohBeekem.State.Replicas

/-!
# Chunks that were given to a node

A chunk is read once the operation that keyed it is in the graph, and what is read is given
to the document, which keeps it until nothing is missing.  `Fed` is the invariant of the
chunks a node was given so far: each is parked, or nothing is left to do about it.

`drain_pending` retries the queue until a pass applies nothing, and it counts a chunk only
when all of it applies.  A family of chunks that supply one another is therefore never left
in a drained queue (`Draining.applies`): the last of them to be tried has all it depends on.
-/

set_option linter.unusedSectionVars false

namespace IrohBeekem

open Library CgkaController WorkspaceState

variable [Keyhive] [Beekem] [Loro] [Postcard]

/-- A chunk of a document. -/
abbrev Item := DocumentUuid × Chunk OpHash

def Parked.item (parked : Parked) : Item := (parked.doc, parked.chunk)

/-- A node, and what it can read and merge. -/
structure Intake (Op : Type) where
  start : WorkspaceState
  history : History Op
  pool : LoroDoc → Set Op
  decodes : Bytes → Prop
  key : Chunk OpHash → Option Bytes32

namespace Intake

variable {Op : Type}

/-- What is assumed of the libraries: a chunk's key is derivable or not once its operation is
held, and an update is pending if and only if a dependency is missing. -/
structure Lawful (w : Intake Op) : Prop where
  keyed : Keyed w.start.cgka.cgka w.key
  pooled : w.history.Pooled w.pool w.decodes

/-- A chunk that is read as an update the document library decodes. -/
def Legible (w : Intake Op) (x : Item) (bytes : Bytes) : Prop :=
  reading w.key x.2 = .plaintext bytes ∧ w.decodes bytes

/-- The operations these chunks carry for a document. -/
def carriedBy (w : Intake Op) (chunks : Set Item) (doc : DocumentUuid) : Set Op :=
  { o | ∃ x ∈ chunks, x.1 = doc ∧ ∃ bytes, w.Legible x bytes ∧ o ∈ w.history.carried bytes }

/-- The chunks whose operation is held. -/
def readable (chunks : Set Item) (ops : Set ControlOp) : Set Item :=
  { x | x ∈ chunks ∧ Established ops x.2 }

/-- What a node was given of a document: what it started with, and what it can read. -/
def supply (w : Intake Op) (chunks : Set Item) (ops : Set ControlOp) (doc : DocumentUuid) : Set Op :=
  w.pool (w.start.replica doc) ∪ w.carriedBy (readable chunks ops) doc

/-- Nothing is left to do about a chunk. -/
def Discharged (w : Intake Op) (s : WorkspaceState) (x : Item) : Prop :=
  Established (graph s.cgka.cgka) x.2 ∧ ∀ bytes, reading w.key x.2 = .plaintext bytes →
    w.decodes bytes ∧ w.history.carried bytes ⊆ w.pool (s.replica x.1) ∧
      ∀ o ∈ w.history.carried bytes, w.history.past o ⊆ w.pool (s.replica x.1)

/-- The node was given these chunks, of which `todo` are still to be retried. -/
structure Fed (w : Intake Op) (chunks : Set Item) (todo : List Parked) (s : WorkspaceState) :
    Prop where
  base : ∀ doc, w.pool (w.start.replica doc) ⊆ w.pool (s.replica doc)
  supplied : ∀ doc, w.pool (s.replica doc) ⊆ w.supply chunks (graph s.cgka.cgka) doc
  queued : ∀ p ∈ s.pendingChunks, p.item ∈ chunks
  kept : ∀ x ∈ chunks, (∃ p ∈ s.pendingChunks, p.item = x) ∨ (∃ p ∈ todo, p.item = x) ∨
    w.Discharged s x

/-- A chunk in the queue waits for its operation, or was read and given to the document. -/
def Waits (w : Intake Op) (s : WorkspaceState) (x : Item) : Prop :=
  ¬ Established (graph s.cgka.cgka) x.2 ∨ ∃ bytes, reading w.key x.2 = .plaintext bytes ∧
    (w.decodes bytes → w.history.carried bytes ⊆ w.pool (s.replica x.1))

/-- Chunks that, with what the node started with, supply all that they depend on. -/
def SelfSupplied (w : Intake Op) (chunks : Set Item) : Prop :=
  ∀ x ∈ chunks, ∃ bytes, w.Legible x bytes ∧ ∀ o ∈ w.history.carried bytes,
    w.history.past o ⊆ w.pool (w.start.replica x.1) ∪ w.carriedBy chunks x.1

/-! ## Trying one chunk -/

/-- What a verdict says about a chunk and its document. -/
def Outcome (w : Intake Op) (x : Item) (s s' : WorkspaceState) : ChunkVerdict → Prop
  | .awaitingKey => ¬ Established (graph s.cgka.cgka) x.2 ∧
      w.pool (s'.replica x.1) = w.pool (s.replica x.1)
  | .unreachable => Established (graph s.cgka.cgka) x.2 ∧ reading w.key x.2 = .unreachable ∧
      w.pool (s'.replica x.1) = w.pool (s.replica x.1)
  | .corrupt => Established (graph s.cgka.cgka) x.2 ∧ reading w.key x.2 = .corrupt ∧
      w.pool (s'.replica x.1) = w.pool (s.replica x.1)
  | .applied => ∃ bytes, Established (graph s.cgka.cgka) x.2 ∧ w.Legible x bytes ∧
      w.pool (s'.replica x.1) = w.pool (s.replica x.1) ∪ w.history.carried bytes ∧
      ∀ o ∈ w.history.carried bytes, w.history.past o ⊆ w.pool (s'.replica x.1)
  | .awaitingDeps => ∃ bytes, Established (graph s.cgka.cgka) x.2 ∧
      reading w.key x.2 = .plaintext bytes ∧
      (¬ w.decodes bytes ∧ w.pool (s'.replica x.1) = w.pool (s.replica x.1) ∨
        w.decodes bytes ∧
        w.pool (s'.replica x.1) = w.pool (s.replica x.1) ∪ w.history.carried bytes ∧
        ¬ ∀ o ∈ w.history.carried bytes, w.history.past o ⊆ w.pool (s'.replica x.1))

/-- The parts of a node that trying a chunk leaves alone, but for derived keys. -/
structure Beside (w : Intake Op) (x : Item) (s s' : WorkspaceState) : Prop where
  cgka : ∃ g, s'.cgka = { s.cgka with cgka := g } ∧ Descends w.start.cgka.cgka g ∧
    graph g = graph s.cgka.cgka
  queue : s'.pendingChunks = s.pendingChunks
  evicted : s'.evictedChunks = s.evictedChunks
  others : ∀ doc, doc ≠ x.1 → s'.replica doc = s.replica doc

variable {w : Intake Op} {s s' : WorkspaceState} {x : Item} {chunks : Set Item}

/-- Giving a chunk that could be read to its document. -/
theorem importChunk_outcome (hw : w.Lawful) {bytes : Bytes}
    (hest : Established (graph s.cgka.cgka) x.2) (hread : reading w.key x.2 = .plaintext bytes)
    (rng : Rng) :
    Wp (do
      let _ ← openDoc x.1
      match ← attempt (onDoc x.1 CoreError.manifest (Loro.importBytes bytes)) with
      | .ok false =>
          update fun s => { s with lastRef := s.lastRef.set x.1 x.2.contentRef }
          return ChunkVerdict.applied
      | _ => return ChunkVerdict.awaitingDeps : Run ChunkVerdict)
      (fun verdict p => p.1.cgka = s.cgka ∧ p.1.pendingChunks = s.pendingChunks ∧
        p.1.evictedChunks = s.evictedChunks ∧
        (∀ doc, doc ≠ x.1 → p.1.replica doc = s.replica doc) ∧ w.Outcome x s p.1 verdict)
      (fun _ _ => False) (s, rng) := by
  have hopen : Wp (openDoc x.1) (fun _ p => p.1.cgka = s.cgka ∧
      p.1.pendingChunks = s.pendingChunks ∧ p.1.evictedChunks = s.evictedChunks)
      (fun _ _ => False) (s, rng) := by
    unfold openDoc
    rw [wp_bind, wp_self]
    cases s.docs.get? x.1 with
    | some loro => exact ⟨rfl, rfl, rfl⟩
    | none => exact ⟨rfl, rfl, rfl⟩
  refine ((openDoc_replicas x.1 (s, rng)).and hopen).seq ?_ fun _ _ h => h.2
  rintro _ p ⟨hreplicas, hcgka, hqueue, hevicted⟩
  have hreplica : ∀ doc, p.1.replica doc = s.replica doc := congrFun hreplicas
  rw [wp_bind, wp_attempt]
  unfold onDoc
  rw [wp_zoom]
  have hset : ∀ (loro : LoroDoc) (doc : DocumentUuid), doc ≠ x.1 →
      ({ p.1 with docs := p.1.docs.set x.1 loro } : WorkspaceState).replica doc =
        s.replica doc := by
    intro loro doc hne
    rw [replica_set, if_neg hne, hreplica]
  have hnew : ∀ loro : LoroDoc,
      ({ p.1 with docs := p.1.docs.set x.1 loro } : WorkspaceState).replica x.1 = loro := by
    intro loro
    rw [replica_set, if_pos rfl]
  by_cases hdecodes : w.decodes bytes
  · obtain ⟨pending, loro, hrun, hpool, hpending⟩ :=
      hw.pooled.import_ok bytes (p.1.replica x.1) hdecodes
    unfold Wp
    rw [show Loro.importBytes bytes ((p.1.docs.get? x.1).getD newDoc) = .ok pending loro from hrun]
    rw [hreplica] at hpool
    cases pending with
    | true =>
        refine ⟨hcgka, hqueue, hevicted, hset loro, bytes, hest, hread, Or.inr ⟨hdecodes, ?_, ?_⟩⟩
        · rw [hnew, hpool]
        · rw [hnew]
          exact fun hall => absurd (hpending.mpr hall) (by simp)
    | false =>
        refine ⟨hcgka, hqueue, hevicted, hset loro, bytes, hest, ⟨hread, hdecodes⟩, ?_, ?_⟩
        · exact (congrArg w.pool (hnew loro)).trans hpool
        · intro o ho
          exact (hpending.mp rfl o ho).trans (congrArg w.pool (hnew loro)).ge
  · obtain ⟨err, loro, hrun, hpool⟩ := hw.pooled.import_fails bytes (p.1.replica x.1) hdecodes
    unfold Wp
    rw [show Loro.importBytes bytes ((p.1.docs.get? x.1).getD newDoc) = .error err loro from hrun]
    refine ⟨hcgka, hqueue, hevicted, hset loro, bytes, hest, hread, Or.inl ⟨hdecodes, ?_⟩⟩
    rw [hnew, hpool, hreplica]

/-- Trying a chunk. -/
theorem tryApply_outcome [LawfulBeekem] (hw : w.Lawful)
    (hdescends : Descends w.start.cgka.cgka s.cgka.cgka) (x : Item) (rng : Rng) :
    Wp (tryApply x.1 x.2) (fun verdict p => w.Beside x s p.1 ∧ w.Outcome x s p.1 verdict)
      (fun _ _ => False) (s, rng) := by
  unfold tryApply
  rw [wp_bind, wp_attempt, wp_onCgka]
  refine (decrypt_reveals hw.keyed hdescends x.2).mono ?_ ?_
  · rintro outcome c ⟨⟨g, rfl, hnext, hgraph⟩, hreveals⟩
    have hbeside : w.Beside x s { s with cgka := { s.cgka with cgka := g } } :=
      ⟨⟨g, rfl, hnext, hgraph⟩, rfl, rfl, fun _ _ => rfl⟩
    cases outcome with
    | awaitingOp => exact ⟨hbeside, hreveals, rfl⟩
    | unreachable => exact ⟨hbeside, hreveals.1, hreveals.2, rfl⟩
    | plaintext bytes =>
        have himport := importChunk_outcome (s := { s with cgka := { s.cgka with cgka := g } })
          (x := x) hw (by rw [hgraph]; exact hreveals.1) hreveals.2 rng
        refine Wp.mono himport ?_ fun _ _ => id
        rintro verdict p ⟨hcgka, hqueue, hevicted, hothers, houtcome⟩
        refine ⟨⟨⟨g, hcgka, hnext, hgraph⟩, hqueue, hevicted, hothers⟩, ?_⟩
        unfold Outcome at houtcome ⊢
        rw [hgraph] at houtcome
        exact houtcome
  · rintro e c ⟨⟨g, rfl, hnext, hgraph⟩, hest, hcorrupt⟩
    exact ⟨⟨⟨g, rfl, hnext, hgraph⟩, rfl, rfl, fun _ _ => rfl⟩, hest, hcorrupt, rfl⟩

/-! ## One pass over the queue -/

theorem Established.mono {ops ops' : Set ControlOp} (h : ops ⊆ ops') {chunk : Chunk OpHash}
    (hest : Established ops chunk) : Established ops' chunk := by
  obtain ⟨p, hp, hash⟩ := hest
  exact ⟨p, h hp, hash⟩

theorem carriedBy_mono {chunks' : Set Item} (h : chunks ⊆ chunks') (doc : DocumentUuid) :
    w.carriedBy chunks doc ⊆ w.carriedBy chunks' doc := by
  rintro o ⟨x, hx, hdoc, hcarried⟩
  exact ⟨x, h hx, hdoc, hcarried⟩

theorem supply_mono {chunks' : Set Item} {ops ops' : Set ControlOp} (hchunks : chunks ⊆ chunks')
    (hops : ops ⊆ ops') (doc : DocumentUuid) :
    w.supply chunks ops doc ⊆ w.supply chunks' ops' doc := by
  have hreadable : readable chunks ops ⊆ readable chunks' ops' := fun x hx =>
    ⟨hchunks hx.1, Established.mono hops hx.2⟩
  exact Set.union_subset_union_right _ (carriedBy_mono hreadable doc)

theorem Discharged.mono (h : w.Discharged s x) (hgraph : graph s.cgka.cgka ⊆ graph s'.cgka.cgka)
    (hpool : ∀ doc, w.pool (s.replica doc) ⊆ w.pool (s'.replica doc)) : w.Discharged s' x := by
  refine ⟨Established.mono hgraph h.1, fun bytes hread => ?_⟩
  obtain ⟨hdecodes, hcarried, hpast⟩ := h.2 bytes hread
  exact ⟨hdecodes, hcarried.trans (hpool _), fun o ho => (hpast o ho).trans (hpool _)⟩

/-- A pass over the queue, with the operations held and every chunk put back tried. -/
structure Draining (w : Intake Op) (chunks : Set Item) (ops : Set ControlOp) (todo : List Parked)
    (s : WorkspaceState) : Prop extends w.Fed chunks todo s where
  descends : Descends w.start.cgka.cgka s.cgka.cgka
  graph_eq : graph s.cgka.cgka = ops
  waits : ∀ p ∈ s.pendingChunks, w.Waits s p.item

/-- Only the counters changed. -/
theorem Draining.of_fields {ops : Set ControlOp} {todo : List Parked}
    (h : w.Draining chunks ops todo s) (hdocs : s'.docs = s.docs) (hcgka : s'.cgka = s.cgka)
    (hqueue : s'.pendingChunks = s.pendingChunks) : w.Draining chunks ops todo s' := by
  have hreplica : s'.replica = s.replica := by
    funext doc
    unfold replica
    rw [hdocs]
  obtain ⟨⟨hbase, hsupplied, hqueued, hkept⟩, hdescends, hgraph, hwaits⟩ := h
  constructor
  · constructor
    · rw [hreplica]
      exact hbase
    · rw [hreplica, hcgka]
      exact hsupplied
    · rw [hqueue]
      exact hqueued
    · unfold Discharged
      rw [hqueue, hreplica, hcgka]
      exact hkept
  · rw [hcgka]
    exact hdescends
  · rw [hcgka]
    exact hgraph
  · unfold Waits
    rw [hqueue, hreplica, hcgka]
    exact hwaits

/-- Trying a chunk adds what it carries to its document at most. -/
theorem Outcome.pool {verdict : ChunkVerdict} (h : w.Outcome x s s' verdict) :
    w.pool (s'.replica x.1) = w.pool (s.replica x.1) ∨
      ∃ bytes, Established (graph s.cgka.cgka) x.2 ∧ w.Legible x bytes ∧
        w.pool (s'.replica x.1) = w.pool (s.replica x.1) ∪ w.history.carried bytes := by
  cases verdict with
  | awaitingKey => exact Or.inl h.2
  | unreachable => exact Or.inl h.2.2
  | corrupt => exact Or.inl h.2.2
  | applied =>
      obtain ⟨bytes, hest, hlegible, hpool, -⟩ := h
      exact Or.inr ⟨bytes, hest, hlegible, hpool⟩
  | awaitingDeps =>
      obtain ⟨bytes, hest, hread, ⟨-, hpool⟩ | ⟨hdecodes, hpool, -⟩⟩ := h
      · exact Or.inl hpool
      · exact Or.inr ⟨bytes, hest, ⟨hread, hdecodes⟩, hpool⟩

theorem Beside.graph (h : w.Beside x s s') : graph s'.cgka.cgka = graph s.cgka.cgka := by
  obtain ⟨g, hcgka, -, hgraph⟩ := h.cgka
  rw [hcgka]
  exact hgraph

theorem Beside.descends (h : w.Beside x s s') : Descends w.start.cgka.cgka s'.cgka.cgka := by
  obtain ⟨g, hcgka, hdescends, -⟩ := h.cgka
  rw [hcgka]
  exact hdescends

/-- Trying a chunk never takes anything from a document. -/
theorem Outcome.grows {verdict : ChunkVerdict} (h : w.Outcome x s s' verdict)
    (hbeside : w.Beside x s s') (doc : DocumentUuid) :
    w.pool (s.replica doc) ⊆ w.pool (s'.replica doc) := by
  by_cases hdoc : doc = x.1
  · subst hdoc
    rcases h.pool with hpool | ⟨bytes, -, -, hpool⟩
    · exact hpool.ge
    · rw [hpool]
      exact Set.subset_union_left
  · rw [hbeside.others doc hdoc]

/-- Trying a chunk of the queue keeps the pass in order. -/
theorem Draining.tried {ops : Set ControlOp} {todo : List Parked} {verdict : ChunkVerdict}
    (h : w.Draining chunks ops todo s) (hx : x ∈ chunks) (hbeside : w.Beside x s s')
    (houtcome : w.Outcome x s s' verdict) : w.Draining chunks ops todo s' where
  base doc := (h.base doc).trans (houtcome.grows hbeside doc)
  supplied doc := by
    rw [hbeside.graph]
    by_cases hdoc : doc = x.1
    · subst hdoc
      rcases houtcome.pool with hpool | ⟨bytes, hest, hlegible, hpool⟩
      · rw [hpool]
        exact h.supplied x.1
      · rw [hpool]
        refine Set.union_subset (h.supplied x.1) fun o ho => Or.inr ?_
        exact ⟨x, ⟨hx, hest⟩, rfl, bytes, hlegible, ho⟩
    · rw [hbeside.others doc hdoc]
      exact h.supplied doc
  queued := by
    rw [hbeside.queue]
    exact h.queued
  kept y hy := by
    rw [hbeside.queue]
    rcases h.kept y hy with hqueue | htodo | hdone
    · exact Or.inl hqueue
    · exact Or.inr (Or.inl htodo)
    · exact Or.inr (Or.inr (hdone.mono hbeside.graph.ge (houtcome.grows hbeside)))
  descends := hbeside.descends
  graph_eq := hbeside.graph.trans h.graph_eq
  waits p hp := by
    rw [hbeside.queue] at hp
    unfold Waits
    rw [hbeside.graph]
    refine (h.waits p hp).imp_right ?_
    rintro ⟨bytes, hread, hcarried⟩
    exact ⟨bytes, hread, fun hdecodes => (hcarried hdecodes).trans (houtcome.grows hbeside _)⟩

/-- A chunk about which nothing is left to do is dropped. -/
theorem Draining.drop {ops : Set ControlOp} {p : Parked} {rest : List Parked}
    (h : w.Draining chunks ops (p :: rest) s) (hdone : w.Discharged s p.item) :
    w.Draining chunks ops rest s :=
  { h with
    kept := fun y hy => by
      rcases h.kept y hy with hqueue | ⟨q, hq, hitem⟩ | hdone'
      · exact Or.inl hqueue
      · rcases List.mem_cons.mp hq with rfl | hq
        · exact Or.inr (Or.inr (hitem ▸ hdone))
        · exact Or.inr (Or.inl ⟨q, hq, hitem⟩)
      · exact Or.inr (Or.inr hdone') }

/-- A chunk that has to wait is put back. -/
theorem Draining.requeue {ops : Set ControlOp} {p : Parked} {rest : List Parked}
    (h : w.Draining chunks ops (p :: rest) s) (hp : p.item ∈ chunks) (hwaits : w.Waits s p.item) :
    w.Draining chunks ops rest (WorkspaceState.requeue p s) := by
  obtain ⟨⟨hbase, hsupplied, hqueued, hkept⟩, hdescends, hgraph, hwaited⟩ := h
  have hmem : ∀ q, q ∈ (WorkspaceState.requeue p s).pendingChunks ↔
      q ∈ s.pendingChunks ∨ q = { p with drains := p.drains + 1 } := by
    intro q
    change q ∈ s.pendingChunks ++ [{ p with drains := p.drains + 1 }] ↔ _
    rw [List.mem_append, List.mem_singleton]
  refine ⟨⟨hbase, hsupplied, fun q hq => ?_, fun y hy => ?_⟩, hdescends, hgraph, fun q hq => ?_⟩
  · rcases (hmem q).mp hq with hq | rfl
    · exact hqueued q hq
    · exact hp
  · rcases hkept y hy with ⟨q, hq, hitem⟩ | ⟨q, hq, hitem⟩ | hdone
    · exact Or.inl ⟨q, (hmem q).mpr (Or.inl hq), hitem⟩
    · rcases List.mem_cons.mp hq with rfl | hq
      · exact Or.inl ⟨_, (hmem _).mpr (Or.inr rfl), hitem⟩
      · exact Or.inr (Or.inl ⟨q, hq, hitem⟩)
    · exact Or.inr (Or.inr hdone)
  · rcases (hmem q).mp hq with hq | rfl
    · exact hwaited q hq
    · exact hwaits

/-- A chunk of a self-supplied family is applied when no other of the family is still to be
tried. -/
theorem Draining.applies {ops : Set ControlOp} {p : Parked} {rest : List Parked}
    {family : Set Item} {verdict : ChunkVerdict} (h : w.Draining chunks ops (p :: rest) s)
    (hfamily : family ⊆ readable chunks ops) (hself : w.SelfSupplied family)
    (hp : p.item ∈ family) (hrest : ∀ q ∈ rest, q.item ∉ family) (hbeside : w.Beside p.item s s')
    (houtcome : w.Outcome p.item s s' verdict) : verdict = .applied := by
  obtain ⟨bytes, ⟨hread, hdecodes⟩, hpast⟩ := hself p.item hp
  have hest : Established (graph s.cgka.cgka) p.item.2 := by
    rw [h.graph_eq]
    exact (hfamily hp).2
  cases verdict with
  | applied => rfl
  | awaitingKey => exact absurd hest houtcome.1
  | unreachable => exact absurd (hread.symm.trans houtcome.2.1) (by simp)
  | corrupt => exact absurd (hread.symm.trans houtcome.2.1) (by simp)
  | awaitingDeps =>
      exfalso
      obtain ⟨bytes', -, hread', hverdict⟩ := houtcome
      obtain rfl : bytes = bytes' := ChunkReading.plaintext.inj (hread.symm.trans hread')
      rcases hverdict with ⟨hnot, -⟩ | ⟨-, hpool, hmissing⟩
      · exact hnot hdecodes
      · apply hmissing
        intro o ho
        refine (hpast o ho).trans (Set.union_subset ?_ ?_)
        · rw [hpool]
          exact (h.base _).trans Set.subset_union_left
        · rintro o' ⟨y, hy, hdoc, other, ⟨hother, hdecodes'⟩, ho'⟩
          rw [hpool, ← hdoc]
          rcases h.kept y (hfamily hy).1 with ⟨q, hq, rfl⟩ | ⟨q, hq, rfl⟩ | hdone
          · rcases h.waits q hq with hnot | ⟨given, hgiven, hcarried⟩
            · exact absurd (h.graph_eq ▸ (hfamily hy).2) hnot
            · obtain rfl := ChunkReading.plaintext.inj (hother.symm.trans hgiven)
              exact Or.inl (hcarried hdecodes' ho')
          · rcases List.mem_cons.mp hq with rfl | hq
            · obtain rfl := ChunkReading.plaintext.inj (hread.symm.trans hother)
              exact Or.inr ho'
            · exact absurd hy (hrest q hq)
          · exact Or.inl ((hdone.2 other hother).2.1 ho')

/-- A drain derives keys and evicts nothing. -/
structure Drained (w : Intake Op) (s s' : WorkspaceState) : Prop where
  cgka : ∃ g, s'.cgka = { s.cgka with cgka := g } ∧ Descends w.start.cgka.cgka g ∧
    graph g = graph s.cgka.cgka
  evicted : s'.evictedChunks = s.evictedChunks

theorem Drained.trans {s'' : WorkspaceState} (h : w.Drained s s') (h' : w.Drained s' s'') :
    w.Drained s s'' := by
  obtain ⟨g, hcgka, -, hgraph⟩ := h.cgka
  obtain ⟨g', hcgka', hdescends, hgraph'⟩ := h'.cgka
  refine ⟨⟨g', ?_, hdescends, ?_⟩, h'.evicted.trans h.evicted⟩
  · rw [hcgka', hcgka]
  · rw [hgraph', hcgka]
    exact hgraph

/-- No self-supplied family of readable chunks has a chunk in this queue. -/
def Exhausted (w : Intake Op) (chunks : Set Item) (ops : Set ControlOp) (queue : List Parked) :
    Prop :=
  ∀ family, family ⊆ readable chunks ops → w.SelfSupplied family →
    ∀ p ∈ queue, p.item ∉ family

/-- What a pass has done. -/
structure Passed (w : Intake Op) (chunks : Set Item) (ops : Set ControlOp) (queue : List Parked)
    (applied applied' : Nat) (s s' : WorkspaceState) : Prop where
  draining : w.Draining chunks ops [] s'
  drained : w.Drained s s'
  count : applied ≤ applied'
  length : s'.pendingChunks.length + applied' ≤ s.pendingChunks.length + queue.length + applied
  exhausted : applied' = applied → w.Exhausted chunks ops queue
  members : ∀ p ∈ s'.pendingChunks, (∃ q ∈ s.pendingChunks, q.item = p.item) ∨
    ∃ q ∈ queue, q.item = p.item

section Passes

variable [LawfulBeekem]

/-- One pass over the queue. -/
theorem drainRound_passes (hw : w.Lawful) {ops : Set ControlOp} {queue : List Parked}
    (hqueue : ∀ p ∈ queue, p.item ∈ chunks) (applied : Nat) (effects : List Effect)
    (h : w.Draining chunks ops queue s) (rng : Rng) :
    Wp (drainRound queue applied effects)
      (fun r p => w.Passed chunks ops queue applied r.1 s p.1) (fun _ _ => False) (s, rng) := by
  induction queue generalizing s applied effects rng with
  | nil =>
      refine ⟨h, ⟨⟨_, rfl, h.descends, rfl⟩, rfl⟩, le_rfl, le_rfl, fun _ => ?_, fun p hp => ?_⟩
      · exact fun _ _ _ p hp => absurd hp List.not_mem_nil
      · exact Or.inl ⟨p, hp, rfl⟩
  | cons p rest ih =>
      have hp : p.item ∈ chunks := hqueue p List.mem_cons_self
      have hrest : ∀ q ∈ rest, q.item ∈ chunks := fun q hq => hqueue q (List.mem_cons_of_mem _ hq)
      unfold drainRound
      refine (tryApply_outcome hw h.descends p.item rng).seq ?_ fun _ _ => id
      rintro verdict ⟨s₁, rng₁⟩ ⟨hbeside, houtcome⟩
      have htried : w.Draining chunks ops (p :: rest) s₁ := h.tried hp hbeside houtcome
      have hdrained : w.Drained s s₁ := ⟨hbeside.cgka, hbeside.evicted⟩
      -- What is left to show once the chunk was dropped without being applied, or put back.
      have hnext : ∀ (s₂ : WorkspaceState) (effects : List Effect),
          w.Draining chunks ops rest s₂ → w.Drained s₁ s₂ → verdict ≠ .applied →
          s₂.pendingChunks.length ≤ s.pendingChunks.length + 1 →
          (∀ q ∈ s₂.pendingChunks, (∃ q' ∈ s.pendingChunks, q'.item = q.item) ∨ q.item = p.item) →
          Wp (drainRound rest applied effects)
            (fun r p' => w.Passed chunks ops (p :: rest) applied r.1 s p'.1) (fun _ _ => False)
            (s₂, rng₁) := by
        intro s₂ effects hdraining hsame hnot hlength hmembers
        refine (ih hrest applied effects hdraining rng₁).mono ?_ fun _ _ => id
        rintro r ⟨s₃, rng₃⟩ hpassed
        refine ⟨hpassed.draining, (hdrained.trans hsame).trans hpassed.drained, hpassed.count, ?_,
          fun hnone family hfamily hself q hq hin => ?_, fun q hq => ?_⟩
        · have hlater := hpassed.length
          rw [List.length_cons]
          omega
        · have hlater := hpassed.exhausted hnone family hfamily hself
          rcases List.mem_cons.mp hq with rfl | hq
          · exact hnot (h.applies hfamily hself hin hlater hbeside houtcome)
          · exact hlater q hq hin
        · rcases hpassed.members q hq with ⟨q', hq', hitem⟩ | ⟨q', hq', hitem⟩
          · rcases hmembers q' hq' with ⟨q'', hq'', hitem'⟩ | hitem'
            · exact Or.inl ⟨q'', hq'', hitem'.trans hitem⟩
            · exact Or.inr ⟨p, List.mem_cons_self, hitem'.symm.trans hitem⟩
          · exact Or.inr ⟨q', List.mem_cons_of_mem _ hq', hitem⟩
      have hsame : ∀ s₂ : WorkspaceState, s₂.cgka = s₁.cgka →
          s₂.evictedChunks = s₁.evictedChunks → w.Drained s₁ s₂ :=
        fun s₂ hcgka hevicted => ⟨⟨s₁.cgka.cgka, hcgka, htried.descends, rfl⟩, hevicted⟩
      have hkeep : ∀ q ∈ s₁.pendingChunks, (∃ q' ∈ s.pendingChunks, q'.item = q.item) ∨
          q.item = p.item := by
        intro q hq
        rw [hbeside.queue] at hq
        exact Or.inl ⟨q, hq, rfl⟩
      have hback : ∀ q ∈ (WorkspaceState.requeue p s₁).pendingChunks,
          (∃ q' ∈ s.pendingChunks, q'.item = q.item) ∨ q.item = p.item := by
        intro q hq
        rcases List.mem_append.mp hq with hq | hq
        · exact hkeep q hq
        · obtain rfl := List.mem_singleton.mp hq
          exact Or.inr rfl
      have hbackLength : (WorkspaceState.requeue p s₁).pendingChunks.length ≤
          s.pendingChunks.length + 1 := by
        change (s₁.pendingChunks ++ [_]).length ≤ _
        rw [hbeside.queue, List.length_append, List.length_singleton]
      have hkeepLength : s₁.pendingChunks.length ≤ s.pendingChunks.length + 1 := by
        rw [hbeside.queue]
        exact Nat.le_succ _
      cases verdict with
      | applied =>
          obtain ⟨bytes, hest, hlegible, hpool, hpast⟩ := houtcome
          have hdone : w.Discharged s₁ p.item := by
            refine ⟨by rw [hbeside.graph]; exact hest, fun bytes' hread => ?_⟩
            obtain rfl := ChunkReading.plaintext.inj (hlegible.1.symm.trans hread)
            refine ⟨hlegible.2, ?_, hpast⟩
            rw [hpool]
            exact Set.subset_union_right
          refine (ih hrest (applied + 1) _ (htried.drop hdone) rng₁).mono ?_ fun _ _ => id
          rintro r ⟨s₃, rng₃⟩ hpassed
          refine ⟨hpassed.draining, hdrained.trans hpassed.drained, ?_, ?_, fun hnone => ?_,
            fun q hq => ?_⟩
          · exact (Nat.le_succ _).trans hpassed.count
          · have hlater := hpassed.length
            rw [hbeside.queue] at hlater
            rw [List.length_cons]
            omega
          · have hcount := hpassed.count
            omega
          · rcases hpassed.members q hq with ⟨q', hq', hitem⟩ | ⟨q', hq', hitem⟩
            · rw [hbeside.queue] at hq'
              exact Or.inl ⟨q', hq', hitem⟩
            · exact Or.inr ⟨q', List.mem_cons_of_mem _ hq', hitem⟩
      | awaitingKey =>
          have hwaits : w.Waits s₁ p.item := by
            unfold Waits
            rw [hbeside.graph]
            exact Or.inl houtcome.1
          exact hnext _ _ (htried.requeue hp hwaits) (hsame _ rfl rfl) (by simp) hbackLength hback
      | awaitingDeps =>
          have hwaits : w.Waits s₁ p.item := by
            obtain ⟨bytes, -, hread, hverdict⟩ := houtcome
            refine Or.inr ⟨bytes, hread, fun hdecodes => ?_⟩
            rcases hverdict with ⟨hnot, -⟩ | ⟨-, hpool, -⟩
            · exact absurd hdecodes hnot
            · rw [hpool]
              exact Set.subset_union_right
          have hdraining := htried.requeue hp hwaits
          dsimp only
          rw [wp_bind, wp_update]
          split_ifs
          · exact hnext _ _ hdraining (hsame _ rfl rfl) (by simp) hbackLength hback
          · exact hnext _ _ hdraining (hsame _ rfl rfl) (by simp) hbackLength hback
      | unreachable =>
          have hdone : w.Discharged s₁ p.item := by
            refine ⟨by rw [hbeside.graph]; exact houtcome.1, fun bytes hread => ?_⟩
            exact absurd (hread.symm.trans houtcome.2.1) (by simp)
          exact hnext _ _ ((htried.drop hdone).of_fields rfl rfl rfl) (hsame _ rfl rfl) (by simp)
            hkeepLength hkeep
      | corrupt =>
          have hdone : w.Discharged s₁ p.item := by
            refine ⟨by rw [hbeside.graph]; exact houtcome.1, fun bytes hread => ?_⟩
            exact absurd (hread.symm.trans houtcome.2.1) (by simp)
          exact hnext _ _ ((htried.drop hdone).of_fields rfl rfl rfl) (hsame _ rfl rfl) (by simp)
            hkeepLength hkeep

/-! ## Draining -/

/-- A node whose queue was drained: what is left in it waits, and no self-supplied family is
among it. -/
structure Rested (w : Intake Op) (chunks : Set Item) (s : WorkspaceState) : Prop where
  fed : w.Fed chunks [] s
  waits : ∀ p ∈ s.pendingChunks, w.Waits s p.item
  exhausted : w.Exhausted chunks (graph s.cgka.cgka) s.pendingChunks

theorem Fed.begin (h : w.Fed chunks [] s) (hdescends : Descends w.start.cgka.cgka s.cgka.cgka) :
    w.Draining chunks (graph s.cgka.cgka) s.pendingChunks
      { s with pendingChunks := [], pendingBytes := 0 } := by
  refine ⟨⟨h.base, h.supplied, fun p hp => absurd hp List.not_mem_nil, fun y hy => ?_⟩, hdescends,
    rfl, fun p hp => absurd hp List.not_mem_nil⟩
  rcases h.kept y hy with hqueue | ⟨q, hq, -⟩ | hdone
  · exact Or.inr (Or.inl hqueue)
  · exact absurd hq List.not_mem_nil
  · exact Or.inr (Or.inr hdone)

/-- Enough passes leave the queue at rest. -/
theorem drainRounds_rests (hw : w.Lawful) (fuel : Nat) (effects : List Effect)
    (hfuel : s.pendingChunks.length < fuel) (h : w.Fed chunks [] s)
    (hdescends : Descends w.start.cgka.cgka s.cgka.cgka) (rng : Rng) :
    Wp (drainRounds fuel effects) (fun _ p => w.Rested chunks p.1 ∧ w.Drained s p.1)
      (fun _ _ => False) (s, rng) := by
  induction fuel generalizing s effects rng with
  | zero => exact absurd hfuel (Nat.not_lt_zero _)
  | succ fuel ih =>
      unfold drainRounds
      rw [wp_bind, wp_self, wp_bind, wp_update]
      have hpass := drainRound_passes hw h.queued 0 effects (h.begin hdescends) rng
      refine Wp.seq hpass ?_ fun _ _ => id
      rintro ⟨applied, effects'⟩ ⟨s₁, rng₁⟩ hpassed
      have hdrained : w.Drained s s₁ := ⟨hpassed.drained.cgka, hpassed.drained.evicted⟩
      have hlength := hpassed.length
      change s₁.pendingChunks.length + applied ≤ 0 + s.pendingChunks.length + 0 at hlength
      dsimp only
      split_ifs with hnone
      · refine ⟨⟨hpassed.draining.toFed, hpassed.draining.waits, ?_⟩, hdrained⟩
        intro family hfamily hself p hp hin
        have hgraph := hpassed.draining.graph_eq
        change graph s₁.cgka.cgka = _ at hgraph
        rw [hgraph] at hfamily
        rcases hpassed.members p hp with ⟨q, hq, -⟩ | ⟨q, hq, hitem⟩
        · exact absurd hq List.not_mem_nil
        · exact hpassed.exhausted hnone family hfamily hself q hq (hitem ▸ hin)
      · have hfewer : s₁.pendingChunks.length < fuel := by omega
        refine (ih effects' hfewer hpassed.draining.toFed hpassed.draining.descends rng₁).mono ?_
          fun _ _ => id
        rintro _ p ⟨hrested, hlater⟩
        exact ⟨hrested, hdrained.trans hlater⟩

/-- Draining the queue leaves it at rest. -/
theorem drainPending_rests (hw : w.Lawful) (h : w.Fed chunks [] s)
    (hdescends : Descends w.start.cgka.cgka s.cgka.cgka) (rng : Rng) :
    Wp drainPending (fun _ p => w.Rested chunks p.1 ∧ w.Drained s p.1) (fun _ _ => False)
      (s, rng) := by
  unfold drainPending
  rw [wp_bind, wp_self]
  exact drainRounds_rests hw _ _ (Nat.lt_succ_self _) h hdescends rng

end Passes

end Intake

end IrohBeekem
