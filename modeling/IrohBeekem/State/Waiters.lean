import IrohBeekem.State.Ingest
import IrohBeekem.State.Verdicts

/-!
# What a drained queue waits for

A chunk that is put back should wait for the operation that keyed it or for operations
of its document.  `pool_roundAfter` says what the replicas hold after a pass: all that the
readable chunks of the queue carry, whether or not they were applied.  A second pass
therefore tries every chunk against all there is, and what it puts back does wait.

A pass that applies nothing is the last one, though, and it may have handed a document
operations an earlier chunk of the queue waited for.  And an import that fails counts as
waiting.  `Drainable` excludes these two, and nothing else.
-/

set_option linter.unusedSectionVars false

namespace IrohBeekem

open Library WorkspaceState

variable [Keyhive] [Beekem] [Loro] [Postcard]

namespace Intake

variable {Op : Type} {w : Intake Op} {p p' : WorkspaceState × Rng} {parked : Parked}

/-- The chunks of a queue. -/
def items (queue : List Parked) : Set Item := { x | ∃ parked ∈ queue, parked.item = x }

/-- A chunk that can be read, with all it depends on among these operations. -/
def Complete (w : Intake Op) (ops : Set ControlOp) (known : DocumentUuid → Set Op) (x : Item) :
    Prop :=
  Established ops x.2 ∧ ∃ bytes, w.Legible x bytes ∧
    ∀ o ∈ w.history.carried bytes, w.history.past o ⊆ known x.1

/-- A chunk that can be read and that lacks a dependency. -/
def Lacking (w : Intake Op) (ops : Set ControlOp) (known : DocumentUuid → Set Op) (x : Item) :
    Prop :=
  Established ops x.2 ∧ ∃ bytes, w.Legible x bytes ∧
    ∃ o ∈ w.history.carried bytes, ¬ w.history.past o ⊆ known x.1

/-- What a node holds of each document, or was handed. -/
def pools (w : Intake Op) (s : WorkspaceState) : DocumentUuid → Set Op :=
  fun doc => w.pool (s.replica doc)

/-- What a node would hold of each document once it had read these chunks. -/
def poolsWith (w : Intake Op) (s : WorkspaceState) (queue : List Parked) : DocumentUuid → Set Op :=
  fun doc => w.pools s doc ∪ w.carriedBy (readable (items queue) (graph s.cgka.cgka)) doc

theorem Legible.unique {x : Item} {bytes bytes' : Bytes} (h : w.Legible x bytes)
    (h' : w.Legible x bytes') : bytes = bytes' :=
  ChunkReading.plaintext.inj (h.1.symm.trans h'.1)

/-- No chunk is both. -/
theorem Complete.not_lacking {ops : Set ControlOp} {known : DocumentUuid → Set Op} {x : Item}
    (h : w.Complete ops known x) : ¬ w.Lacking ops known x := by
  rintro ⟨-, bytes', hlegible', o, ho, hmissing⟩
  obtain ⟨-, bytes, hlegible, hpast⟩ := h
  obtain rfl := hlegible.unique hlegible'
  exact hmissing (hpast o ho)

/-! ## One attempt -/

theorem mem_carriedBy_singleton {ops : Set ControlOp} {x : Item} {doc : DocumentUuid} {o : Op} :
    o ∈ w.carriedBy (readable {x} ops) doc ↔
      x.1 = doc ∧ Established ops x.2 ∧ ∃ bytes, w.Legible x bytes ∧ o ∈ w.history.carried bytes := by
  constructor
  · rintro ⟨y, ⟨rfl, hest⟩, hdoc, hcarried⟩
    exact ⟨hdoc, hest, hcarried⟩
  · rintro ⟨hdoc, hest, hcarried⟩
    exact ⟨x, ⟨rfl, hest⟩, hdoc, hcarried⟩

/-- What an attempt does to the replicas and the graph, and what its verdict says. -/
structure Told (w : Intake Op) (x : Item) (s s' : WorkspaceState) (verdict : ChunkVerdict) :
    Prop where
  descends : Descends w.start.cgka.cgka s'.cgka.cgka
  graph_eq : graph s'.cgka.cgka = graph s.cgka.cgka
  others : ∀ doc, doc ≠ x.1 → s'.replica doc = s.replica doc
  outcome : w.Outcome x s s' verdict

theorem tried_told [LawfulBeekem] (hw : w.Lawful)
    (hdescends : Descends w.start.cgka.cgka p.1.cgka.cgka) (parked : Parked) :
    w.Told parked.item p.1 (tried parked p).1 (verdictAt p parked) := by
  have hspec := tryApply_outcome hw hdescends parked.item p.2
  unfold Wp at hspec
  rw [show tryApply parked.item.1 parked.item.2 (p.1, p.2) =
    .ok (verdictAt p parked) (after (tryApply parked.doc parked.chunk) p) from
      tryApply_run parked p] at hspec
  obtain ⟨hbeside, houtcome⟩ := hspec
  have hcgka : (tried parked p).1.cgka =
      (after (tryApply parked.doc parked.chunk) p).1.cgka := by
    unfold tried settle
    cases verdictAt p parked <;> rfl
  have hreplica : (tried parked p).1.replica =
      (after (tryApply parked.doc parked.chunk) p).1.replica := by
    unfold tried settle
    cases verdictAt p parked <;> rfl
  refine ⟨?_, ?_, ?_, ?_⟩
  · rw [hcgka]
    exact hbeside.descends
  · rw [hcgka]
    exact hbeside.graph
  · rw [hreplica]
    exact hbeside.others
  · unfold Outcome at houtcome ⊢
    rw [hreplica]
    exact houtcome

theorem carriedBy_singleton {ops : Set ControlOp} {x : Item} {bytes : Bytes}
    (hest : Established ops x.2) (hlegible : w.Legible x bytes) :
    w.carriedBy (readable {x} ops) x.1 = w.history.carried bytes := by
  ext o
  rw [mem_carriedBy_singleton]
  constructor
  · rintro ⟨-, -, bytes', hlegible', ho⟩
    obtain rfl := hlegible.unique hlegible'
    exact ho
  · exact fun ho => ⟨rfl, hest, bytes, hlegible, ho⟩

/-- An attempt hands the document what the chunk carries. -/
theorem Told.pools {s s' : WorkspaceState} {x : Item} {verdict : ChunkVerdict}
    (h : w.Told x s s' verdict) (doc : DocumentUuid) :
    w.pools s' doc = w.pools s doc ∪ w.carriedBy (readable {x} (graph s.cgka.cgka)) doc := by
  by_cases hdoc : doc = x.1
  · subst hdoc
    have hnothing : (∀ bytes, Established (graph s.cgka.cgka) x.2 → ¬ w.Legible x bytes) →
        w.pool (s'.replica x.1) = w.pool (s.replica x.1) → w.pools s' x.1 =
          w.pools s x.1 ∪ w.carriedBy (readable {x} (graph s.cgka.cgka)) x.1 := by
      intro hnone hsame
      refine hsame.trans (Set.union_eq_self_of_subset_right ?_).symm
      intro o ho
      obtain ⟨-, hest, bytes, hlegible, -⟩ := mem_carriedBy_singleton.mp ho
      exact absurd hlegible (hnone bytes hest)
    have hread : ∀ {bytes : Bytes}, Established (graph s.cgka.cgka) x.2 → w.Legible x bytes →
        w.pool (s'.replica x.1) = w.pool (s.replica x.1) ∪ w.history.carried bytes →
        w.pools s' x.1 = w.pools s x.1 ∪ w.carriedBy (readable {x} (graph s.cgka.cgka)) x.1 := by
      intro bytes hest hlegible hpool
      rw [carriedBy_singleton hest hlegible]
      exact hpool
    have houtcome := h.outcome
    cases verdict with
    | awaitingKey => exact hnothing (fun _ hest => absurd hest houtcome.1) houtcome.2
    | unreachable =>
        refine hnothing (fun bytes _ hlegible => ?_) houtcome.2.2
        exact absurd (hlegible.1.symm.trans houtcome.2.1) (by simp)
    | corrupt =>
        refine hnothing (fun bytes _ hlegible => ?_) houtcome.2.2
        exact absurd (hlegible.1.symm.trans houtcome.2.1) (by simp)
    | applied =>
        obtain ⟨bytes, hest, hlegible, hpool, -⟩ := houtcome
        exact hread hest hlegible hpool
    | awaitingDeps =>
        obtain ⟨bytes, hest, hplain, ⟨hnot, hpool⟩ | ⟨hdecodes, hpool, -⟩⟩ := houtcome
        · refine hnothing (fun bytes' _ hlegible => hnot ?_) hpool
          rw [ChunkReading.plaintext.inj (hplain.symm.trans hlegible.1)]
          exact hlegible.2
        · exact hread hest ⟨hplain, hdecodes⟩ hpool
  · unfold Intake.pools
    rw [h.others doc hdoc]
    refine (Set.union_eq_self_of_subset_right fun o ho => ?_).symm
    exact absurd (mem_carriedBy_singleton.mp ho).1.symm hdoc

/-- A chunk is applied if and only if nothing it depends on is missing. -/
theorem Told.applied_iff {s s' : WorkspaceState} {x : Item} {verdict : ChunkVerdict}
    (h : w.Told x s s' verdict) :
    verdict = .applied ↔ w.Complete (graph s.cgka.cgka) (w.pools s') x := by
  have houtcome := h.outcome
  constructor
  · rintro rfl
    obtain ⟨bytes, hest, hlegible, -, hpast⟩ := houtcome
    exact ⟨hest, bytes, hlegible, hpast⟩
  · rintro ⟨hest, bytes, hlegible, hpast⟩
    cases verdict with
    | applied => rfl
    | awaitingKey => exact absurd hest houtcome.1
    | unreachable => exact absurd (hlegible.1.symm.trans houtcome.2.1) (by simp)
    | corrupt => exact absurd (hlegible.1.symm.trans houtcome.2.1) (by simp)
    | awaitingDeps =>
        obtain ⟨bytes', -, hplain, hmissing⟩ := houtcome
        obtain rfl := ChunkReading.plaintext.inj (hlegible.1.symm.trans hplain)
        rcases hmissing with ⟨hnot, -⟩ | ⟨-, -, hmissing⟩
        · exact absurd hlegible.2 hnot
        · exact absurd hpast hmissing

/-- If all that can be read decodes, a chunk is left to its dependencies if and only if it
lacks one. -/
theorem Told.awaitingDeps_iff {s s' : WorkspaceState} {x : Item} {verdict : ChunkVerdict}
    (h : w.Told x s s' verdict)
    (hdecodes : Established (graph s.cgka.cgka) x.2 → ∀ bytes, reading w.key x.2 = .plaintext bytes →
      w.decodes bytes) :
    verdict = .awaitingDeps ↔ w.Lacking (graph s.cgka.cgka) (w.pools s') x := by
  have houtcome := h.outcome
  constructor
  · rintro rfl
    obtain ⟨bytes, hest, hplain, hmissing⟩ := houtcome
    have hlegible : w.Legible x bytes := ⟨hplain, hdecodes hest bytes hplain⟩
    rcases hmissing with ⟨hnot, -⟩ | ⟨-, -, hmissing⟩
    · exact absurd hlegible.2 hnot
    · push Not at hmissing
      exact ⟨hest, bytes, hlegible, hmissing⟩
  · intro hlacking
    have hlacking' := hlacking
    obtain ⟨hest, bytes, hlegible, o, ho, hmissing⟩ := hlacking
    cases verdict with
    | applied => exact absurd hlacking' (h.applied_iff.mp rfl).not_lacking
    | awaitingKey => exact absurd hest houtcome.1
    | unreachable => exact absurd (hlegible.1.symm.trans houtcome.2.1) (by simp)
    | corrupt => exact absurd (hlegible.1.symm.trans houtcome.2.1) (by simp)
    | awaitingDeps => rfl

/-! ## One pass -/

section Passes

variable [LawfulBeekem]

theorem poolsWith_cons {s s' : WorkspaceState} {verdict : ChunkVerdict} {rest : List Parked}
    (h : w.Told parked.item s s' verdict) :
    w.poolsWith s' rest = w.poolsWith s (parked :: rest) := by
  funext doc
  unfold poolsWith
  rw [h.pools, h.graph_eq, Set.union_assoc]
  congr 1
  ext o
  constructor
  · rintro (ho | ⟨x, ⟨⟨q, hq, rfl⟩, hest⟩, hcarried⟩)
    · obtain ⟨hdoc, hest, hcarried⟩ := mem_carriedBy_singleton.mp ho
      exact ⟨parked.item, ⟨⟨parked, List.mem_cons_self, rfl⟩, hest⟩, hdoc, hcarried⟩
    · exact ⟨q.item, ⟨⟨q, List.mem_cons_of_mem _ hq, rfl⟩, hest⟩, hcarried⟩
  · rintro ⟨x, ⟨⟨q, hq, rfl⟩, hest⟩, hdoc, hcarried⟩
    rcases List.mem_cons.mp hq with rfl | hq
    · exact Or.inl (mem_carriedBy_singleton.mpr ⟨hdoc, hest, hcarried⟩)
    · exact Or.inr ⟨q.item, ⟨⟨q, hq, rfl⟩, hest⟩, hdoc, hcarried⟩

theorem poolsWith_nil (s : WorkspaceState) : w.poolsWith s [] = w.pools s := by
  funext doc
  refine Set.union_eq_self_of_subset_right ?_
  rintro o ⟨x, ⟨⟨q, hq, -⟩, -⟩, -⟩
  exact absurd hq List.not_mem_nil

/-- What a pass leaves alone, and what the replicas hold after it. -/
theorem roundAfter_pools (hw : w.Lawful) (queue : List Parked)
    (hdescends : Descends w.start.cgka.cgka p.1.cgka.cgka) :
    Descends w.start.cgka.cgka (roundAfter queue p).1.cgka.cgka ∧
      graph (roundAfter queue p).1.cgka.cgka = graph p.1.cgka.cgka ∧
      w.pools (roundAfter queue p).1 = w.poolsWith p.1 queue := by
  induction queue generalizing p with
  | nil => exact ⟨hdescends, rfl, (poolsWith_nil p.1).symm⟩
  | cons parked rest ih =>
      have htold := tried_told hw hdescends parked
      obtain ⟨hafter, hgraph, hpools⟩ := ih htold.descends
      exact ⟨hafter, hgraph.trans htold.graph_eq, hpools.trans (poolsWith_cons htold)⟩

/-- Every attempt of a pass is told, in a state with the graph the pass began with. -/
theorem roundAttempts_told (hw : w.Lawful) (queue : List Parked)
    (hdescends : Descends w.start.cgka.cgka p.1.cgka.cgka) :
    ∀ a ∈ roundAttempts queue p, graph a.1.1.cgka.cgka = graph p.1.cgka.cgka ∧
      w.Told a.2.item a.1.1 (tried a.2 a.1).1 a.verdict := by
  induction queue generalizing p with
  | nil => exact fun a ha => absurd ha List.not_mem_nil
  | cons parked rest ih =>
      have htold := tried_told hw hdescends parked
      intro a ha
      rcases List.mem_cons.mp ha with rfl | ha
      · exact ⟨rfl, htold⟩
      · obtain ⟨hgraph, hrest⟩ := ih htold.descends a ha
        exact ⟨hgraph.trans htold.graph_eq, hrest⟩

/-- A pass applies something if and only if some chunk of the queue lacks nothing of what
comes with it and before it. -/
theorem applications_iff (hw : w.Lawful) (queue : List Parked)
    (hdescends : Descends w.start.cgka.cgka p.1.cgka.cgka) :
    applications (roundAttempts queue p) ≠ 0 ↔ ∃ before parked later,
      queue = before ++ parked :: later ∧
        w.Complete (graph p.1.cgka.cgka) (w.poolsWith p.1 (before ++ [parked])) parked.item := by
  induction queue generalizing p with
  | nil => simp [roundAttempts, applications]
  | cons first rest ih =>
      have htold := tried_told hw hdescends first
      have hfirst : verdictAt p first = .applied ↔
          w.Complete (graph p.1.cgka.cgka) (w.poolsWith p.1 [first]) first.item := by
        rw [htold.applied_iff, ← poolsWith_cons htold, poolsWith_nil]
      have hcount : applications (roundAttempts (first :: rest) p) ≠ 0 ↔
          verdictAt p first = .applied ∨
            applications (roundAttempts rest (tried first p)) ≠ 0 := by
        simp only [applications, roundAttempts, List.countP_cons, Attempt.verdict]
        by_cases happlied : verdictAt p first = .applied
        · simp [happlied]
        · simp [happlied]
      rw [hcount, hfirst, ih htold.descends, htold.graph_eq]
      constructor
      · rintro (hcomplete | ⟨before, parked, later, rfl, hcomplete⟩)
        · exact ⟨[], first, rest, rfl, hcomplete⟩
        · refine ⟨first :: before, parked, later, rfl, ?_⟩
          rw [poolsWith_cons htold] at hcomplete
          exact hcomplete
      · rintro ⟨before, parked, later, hqueue, hcomplete⟩
        cases before with
        | nil =>
            obtain ⟨rfl, rfl⟩ := List.cons.inj hqueue
            exact Or.inl hcomplete
        | cons first' before =>
            obtain ⟨rfl, rfl⟩ := List.cons.inj hqueue
            refine Or.inr ⟨before, parked, later, rfl, ?_⟩
            rw [poolsWith_cons htold]
            exact hcomplete

/-! ## The loop -/

/-- All that can be read of a queue decodes. -/
def Decodes (w : Intake Op) (s : WorkspaceState) : Prop :=
  ∀ parked ∈ s.pendingChunks, Established (graph s.cgka.cgka) parked.chunk →
    ∀ bytes, reading w.key parked.chunk = .plaintext bytes → w.decodes bytes

/-- If a chunk of the queue lacks nothing of what the queue supplies, then some chunk
lacks nothing of what comes with it and before it. -/
def Starts (w : Intake Op) (s : WorkspaceState) : Prop :=
  (∃ parked ∈ s.pendingChunks,
    w.Complete (graph s.cgka.cgka) (w.poolsWith s s.pendingChunks) parked.item) →
  ∃ before parked later, s.pendingChunks = before ++ parked :: later ∧
    w.Complete (graph s.cgka.cgka) (w.poolsWith s (before ++ [parked])) parked.item

/-- Every chunk of the queue waits for its operation or lacks a dependency. -/
def OnlyWaiters (w : Intake Op) (s : WorkspaceState) : Prop :=
  ∀ parked ∈ s.pendingChunks, ¬ Established (graph s.cgka.cgka) parked.chunk ∨
    w.Lacking (graph s.cgka.cgka) (w.pools s) parked.item

theorem items_mono {queue queue' : List Parked}
    (h : ∀ parked ∈ queue, ∃ parked' ∈ queue', parked'.item = parked.item) :
    items queue ⊆ items queue' := by
  rintro x ⟨parked, hparked, rfl⟩
  exact h parked hparked

theorem readable_mono {chunks chunks' : Set Item} {ops : Set ControlOp} (h : chunks ⊆ chunks') :
    readable chunks ops ⊆ readable chunks' ops := fun _ hx => ⟨h hx.1, hx.2⟩

/-- After a pass the queue supplies nothing the replicas have not been handed. -/
theorem poolsWith_roundAfter (hw : w.Lawful)
    (hdescends : Descends w.start.cgka.cgka p.1.cgka.cgka) {queue : List Parked}
    (hqueue : ∀ parked ∈ queue, ∃ parked' ∈ p.1.pendingChunks, parked'.item = parked.item) :
    w.poolsWith (roundAfter p.1.pendingChunks (emptied p)).1 queue =
      w.pools (roundAfter p.1.pendingChunks (emptied p)).1 := by
  obtain ⟨-, hgraph, hpools⟩ := roundAfter_pools (p := emptied p) hw p.1.pendingChunks hdescends
  funext doc
  refine Set.union_eq_self_of_subset_right ?_
  rw [hgraph, hpools]
  exact (carriedBy_mono (readable_mono (items_mono hqueue)) doc).trans
    Set.subset_union_right

/-- Once the queue supplies nothing new, a chunk that lacks nothing is applied at once. -/
theorem starts_of_supplied {s : WorkspaceState}
    (hsupplied : ∀ queue : List Parked,
      (∀ parked ∈ queue, ∃ parked' ∈ s.pendingChunks, parked'.item = parked.item) →
        w.poolsWith s queue = w.pools s) : w.Starts s := by
  rintro ⟨parked, hparked, hcomplete⟩
  obtain ⟨before, later, hqueue⟩ := List.append_of_mem hparked
  refine ⟨before, parked, later, hqueue, ?_⟩
  rw [hsupplied _ fun q hq => ⟨q, hq, rfl⟩] at hcomplete
  rw [hsupplied]
  · exact hcomplete
  · intro q hq
    refine ⟨q, ?_, rfl⟩
    rw [hqueue]
    rcases List.mem_append.mp hq with hq | hq
    · exact List.mem_append_left _ hq
    · rw [List.mem_singleton.mp hq]
      exact List.mem_append_right _ List.mem_cons_self

/-- The last pass leaves only chunks that wait. -/
theorem roundAfter_onlyWaiters (hw : w.Lawful)
    (hdescends : Descends w.start.cgka.cgka p.1.cgka.cgka) (hdecodes : w.Decodes p.1)
    (hstarts : w.Starts p.1)
    (hnone : applications (roundAttempts p.1.pendingChunks (emptied p)) = 0) :
    w.OnlyWaiters (roundAfter p.1.pendingChunks (emptied p)).1 := by
  obtain ⟨-, hgraph, hpools⟩ := roundAfter_pools (p := emptied p) hw p.1.pendingChunks hdescends
  intro parked hparked
  rw [hgraph, hpools]
  obtain ⟨a, ha, hleft⟩ := roundAfter_left hparked
  obtain ⟨rfl, hverdict⟩ := Attempt.left_eq_some hleft
  obtain ⟨hsame, htold⟩ := roundAttempts_told (p := emptied p) hw _ hdescends a ha
  have houtcome := htold.outcome
  rcases hverdict with hverdict | hverdict
  · rw [hverdict] at houtcome
    exact Or.inl (hsame ▸ houtcome.1)
  · rw [hverdict] at houtcome
    obtain ⟨bytes, hest, hplain, -⟩ := houtcome
    rw [hsame] at hest
    have hlegible : w.Legible a.2.item bytes :=
      ⟨hplain, hdecodes a.2 (roundAttempts_queued ha) hest bytes hplain⟩
    refine Or.inr ⟨hest, bytes, hlegible, ?_⟩
    -- were nothing missing, the pass would have applied something
    by_contra hall
    push Not at hall
    have hstarted := hstarts ⟨a.2, roundAttempts_queued ha, hest, bytes, hlegible, hall⟩
    exact (applications_iff (p := emptied p) hw _ hdescends).mpr hstarted hnone

/-- A queue that can be drained: what can be read of it decodes, and it does not begin
with a pass that only hands over what an earlier chunk waits for. -/
structure Drainable (w : Intake Op) (s : WorkspaceState) : Prop where
  decodes : w.Decodes s
  starts : w.Starts s

theorem Decodes.roundAfter (hw : w.Lawful)
    (hdescends : Descends w.start.cgka.cgka p.1.cgka.cgka) (h : w.Decodes p.1) :
    w.Decodes (WorkspaceState.roundAfter p.1.pendingChunks (emptied p)).1 := by
  obtain ⟨-, hgraph, -⟩ := roundAfter_pools (p := emptied p) hw p.1.pendingChunks hdescends
  intro parked hparked hest
  obtain ⟨parked', hparked', hitem⟩ := (roundAfter_accounts p).queued hparked
  rw [hgraph] at hest
  obtain ⟨-, hchunk⟩ := Prod.mk.inj hitem
  rw [← hchunk] at hest ⊢
  exact h parked' hparked' hest

/-- The loop leaves only chunks that wait. -/
theorem passes_onlyWaiters (hw : w.Lawful) {attempts : List Attempt} (h : Passes p attempts p')
    (hdescends : Descends w.start.cgka.cgka p.1.cgka.cgka) (hdrainable : w.Drainable p.1) :
    w.OnlyWaiters p'.1 := by
  induction h with
  | last hnone => exact roundAfter_onlyWaiters hw hdescends hdrainable.decodes hdrainable.starts hnone
  | @more p p' attempts hsome hrest ih =>
      have hafter := (roundAfter_pools (p := emptied p) hw p.1.pendingChunks hdescends).1
      refine ih hafter ⟨hdrainable.decodes.roundAfter hw hdescends, starts_of_supplied ?_⟩
      intro queue hqueue
      refine poolsWith_roundAfter hw hdescends fun parked hparked => ?_
      obtain ⟨parked', hparked', hitem⟩ := hqueue parked hparked
      obtain ⟨parked'', hparked'', hitem'⟩ := (roundAfter_accounts p).queued hparked'
      exact ⟨parked'', hparked'', hitem'.trans hitem⟩

/-- Every attempt of the loop is told, in a state with the graph the loop began with. -/
theorem passes_told (hw : w.Lawful) {attempts : List Attempt} (h : Passes p attempts p')
    (hdescends : Descends w.start.cgka.cgka p.1.cgka.cgka) :
    graph p'.1.cgka.cgka = graph p.1.cgka.cgka ∧
      ∀ a ∈ attempts, graph a.1.1.cgka.cgka = graph p.1.cgka.cgka ∧
        w.Told a.2.item a.1.1 (tried a.2 a.1).1 a.verdict := by
  induction h with
  | @last p hnone =>
      exact ⟨(roundAfter_pools (p := emptied p) hw _ hdescends).2.1,
        roundAttempts_told (p := emptied p) hw _ hdescends⟩
  | @more p p' attempts hsome hrest ih =>
      obtain ⟨hafter, hgraph, -⟩ := roundAfter_pools (p := emptied p) hw p.1.pendingChunks hdescends
      obtain ⟨hsame, htold⟩ := ih hafter
      refine ⟨hsame.trans hgraph, fun a ha => ?_⟩
      rcases List.mem_append.mp ha with hfirst | hlater
      · exact roundAttempts_told (p := emptied p) hw _ hdescends a hfirst
      · exact ⟨(htold a hlater).1.trans hgraph, (htold a hlater).2⟩

/-- A readable chunk that is not applied stays in the queue. -/
theorem passes_keeps (hw : w.Lawful) {attempts : List Attempt} (h : Passes p attempts p')
    (hdescends : Descends w.start.cgka.cgka p.1.cgka.cgka) {bytes : Bytes}
    (hparked : parked ∈ p.1.pendingChunks) (hplain : reading w.key parked.chunk = .plaintext bytes)
    (hnone : ∀ a ∈ attempts, a.2.item = parked.item → a.verdict ≠ .applied) :
    ∃ parked' ∈ p'.1.pendingChunks, parked'.item = parked.item := by
  rcases List.mem_append.mp (h.accounts.items.mem_iff.mp (List.mem_map_of_mem hparked)) with
    hfinished | hleft
  · obtain ⟨a, ha, hitem⟩ := List.mem_map.mp hfinished
    obtain ⟨ha, hdone⟩ := List.mem_filter.mp ha
    obtain ⟨hgraph, htold⟩ := (passes_told hw h hdescends).2 a ha
    have houtcome := htold.outcome
    rw [show reading w.key parked.chunk = reading w.key a.2.item.2 by rw [hitem]; rfl] at hplain
    exfalso
    cases hverdict : a.verdict with
    | applied => exact hnone a ha hitem hverdict
    | awaitingKey => simp [Attempt.left, hverdict] at hdone
    | awaitingDeps => simp [Attempt.left, hverdict] at hdone
    | unreachable =>
        rw [hverdict] at houtcome
        exact absurd (hplain.symm.trans houtcome.2.1) (by simp)
    | corrupt =>
        rw [hverdict] at houtcome
        exact absurd (hplain.symm.trans houtcome.2.1) (by simp)
  · exact List.mem_map.mp hleft

/-- A drain as it is meant: it ends, what it leaves waits, what it takes away was applied or
counted, and the history of a document is asked for exactly when a chunk that lacks a
dependency has survived enough passes. -/
structure Exhaustive (w : Intake Op) (p : WorkspaceState × Rng) (attempts : List Attempt)
    (p' : WorkspaceState × Rng) : Prop where
  run : drainPending p = .ok (attempts.flatMap Attempt.emitted) p'
  passes : Passes p attempts p'
  onlyWaiters : w.OnlyWaiters p'.1
  accounts : WorkspaceState.Accounts p.1.pendingChunks attempts p p'
  documents : documentRepairs (attempts.flatMap Attempt.emitted) =
    (attempts.filter fun a => a.verdict = .unreachable).map fun a => requestOf a.2
  histories : historyRepairs (attempts.flatMap Attempt.emitted) =
    (attempts.filter fun a => a.verdict = .awaitingDeps ∧ maxDepWaitDrains ≤ a.2.drains + 1).map
      fun a => requestOf a.2
  lacking : ∀ a ∈ attempts, a.verdict = .awaitingDeps ↔
    w.Lacking (graph p.1.cgka.cgka) (w.pools (tried a.2 a.1).1) a.2.item

theorem applied_ne_of_applications {attempts : List Attempt} (h : applications attempts = 0) :
    ∀ a ∈ attempts, a.verdict ≠ .applied := by
  intro a ha happlied
  exact List.countP_eq_zero.mp h a ha (by simpa using happlied)

/-- A loop that leaves only chunks that wait began with a queue that can be drained. -/
theorem passes_drainable (hw : w.Lawful) {attempts : List Attempt} (h : Passes p attempts p')
    (hdescends : Descends w.start.cgka.cgka p.1.cgka.cgka) (hwaiters : w.OnlyWaiters p'.1) :
    w.Drainable p.1 := by
  obtain ⟨hgraph, htold⟩ := passes_told hw h hdescends
  constructor
  · intro parked hparked hest bytes hplain
    by_contra hnot
    have hnone : ∀ a ∈ attempts, a.2.item = parked.item → a.verdict ≠ .applied := by
      intro a ha hitem happlied
      obtain ⟨-, bytes', hlegible, -⟩ := (htold a ha).2.applied_iff.mp happlied
      rw [hitem] at hlegible
      rw [ChunkReading.plaintext.inj (hplain.symm.trans hlegible.1)] at hnot
      exact hnot hlegible.2
    obtain ⟨parked', hparked', hitem⟩ := passes_keeps hw h hdescends hparked hplain hnone
    have hchunk : parked'.chunk = parked.chunk := congrArg Prod.snd hitem
    rcases hwaiters parked' hparked' with hunknown | ⟨-, bytes', hlegible, -⟩
    · rw [hgraph, hchunk] at hunknown
      exact hunknown hest
    · rw [hitem] at hlegible
      rw [ChunkReading.plaintext.inj (hplain.symm.trans hlegible.1)] at hnot
      exact hnot hlegible.2
  · rintro ⟨parked, hparked, hcomplete⟩
    by_contra hno
    have hstalls : applications (roundAttempts p.1.pendingChunks (emptied p)) = 0 := by
      by_contra hsome
      exact hno ((applications_iff (p := emptied p) hw _ hdescends).mp hsome)
    obtain ⟨hest, bytes, hlegible, -⟩ := id hcomplete
    cases h with
    | more hsome _ => exact hsome hstalls
    | last _ =>
        obtain ⟨parked', hparked', hitem⟩ := passes_keeps hw (.last hstalls) hdescends hparked
          hlegible.1 fun a ha _ => applied_ne_of_applications hstalls a ha
        have hpools := (roundAfter_pools (p := emptied p) hw p.1.pendingChunks hdescends).2.2
        have hchunk : parked'.chunk = parked.chunk := congrArg Prod.snd hitem
        rcases hwaiters parked' hparked' with hunknown | hlacking
        · rw [hgraph, hchunk] at hunknown
          exact hunknown hest
        · rw [hgraph, hpools, hitem] at hlacking
          exact hcomplete.not_lacking hlacking

end Passes

end Intake

end IrohBeekem

namespace IrohBeekem

open Library WorkspaceState Intake

/-- Documents of two strands that take no update with `255` in it. -/
@[reducible] def pickyLoro : Loro :=
  { strandLoro with
    importBytes := fun bytes d =>
      if 255 ∈ bytes then .error "no update" d else strandLoro.importBytes bytes d }

section Samples

local instance pickyKeyhive : Keyhive := transparentKeyhive

local instance pickyBeekem : Beekem := listBeekem

local instance pickyLive : LiveBeekem := listBeekem_live

local instance pickyDocs : Loro := pickyLoro

local instance pickyPostcard : Postcard := blankPostcard

def pickyHistory : History Nat where
  ops := @History.ops strandDocs Nat strandHistory
  past := @History.past strandDocs Nat strandHistory
  covered := @History.covered strandDocs Nat strandHistory
  carried := @History.carried strandDocs Nat strandHistory

theorem pickyHistory_pooled : pickyHistory.Pooled strandPool fun bytes => 255 ∉ bytes where
  ops_eq := @History.Pooled.ops_eq strandDocs Nat _ _ _ strandHistory_pooled
  import_ok bytes d h := by
    obtain ⟨pending, d', himport, hpool⟩ :=
      @History.Pooled.import_ok strandDocs Nat _ _ _ strandHistory_pooled bytes d trivial
    refine ⟨pending, d', ?_, hpool⟩
    change (if 255 ∈ bytes then _ else _) = _
    rw [if_neg h]
    exact himport
  import_fails bytes d h := by
    refine ⟨"no update", d, ?_, rfl⟩
    change (if 255 ∈ bytes then _ else _) = _
    rw [if_pos (not_not.mp h)]

def pickyIntake (s : WorkspaceState) : Intake Nat where
  start := s
  history := pickyHistory
  pool := strandPool
  decodes bytes := 255 ∉ bytes
  key chunk := some chunk.pcsKeyHash

theorem pickyIntake_lawful (s : WorkspaceState) : (pickyIntake s).Lawful :=
  ⟨listKeyed _, pickyHistory_pooled⟩

/-- A chunk keyed by the founding operation, with these numbers. -/
def pickyChunk (numbers : Bytes) : Chunk OpHash :=
  ⟨numbers, Beekem.hashBytes numbers, [], 0, OpId.of rootedFounder.cgka.init⟩

/-- The founder was given such a chunk. -/
@[irreducible] def pickyNode (numbers : Bytes) : WorkspaceState :=
  Turn.take (.call (.handle (.chunkArrived 5 (pickyChunk numbers)) 0) (0 : Nat)) (sampleWorkspace 1)

end Samples

end IrohBeekem
