import IrohBeekem.State.Intake
import IrohBeekem.State.ListModel
import IrohBeekem.State.Reach

/-!
# Ingesting operations and chunks in any order

What a node at rest holds is a function of what it was given: the graph is all that can be
taken in of the operations, and a document holds what is readable and lacks nothing.  Which
chunks stay parked is a function of it too, as long as the chunks that can be applied in
the end supply one another; a chunk that hangs on an operation that only a chunk carries
which cannot be applied is parked or not by the order of the queue.
-/

set_option linter.unusedSectionVars false

namespace IrohBeekem

open Library CgkaController WorkspaceState

variable [Keyhive] [Beekem] [Loro] [Postcard]

namespace Intake

variable {Op : Type} {w : Intake Op} {s s' : WorkspaceState} {x : Item} {chunks : Set Item}

/-! ## What is left -/

/-- A node at rest was given, and keeps, all it can read. -/
theorem Rested.pool_eq (h : w.Rested chunks s) (doc : DocumentUuid) :
    w.pool (s.replica doc) = w.supply chunks (graph s.cgka.cgka) doc := by
  apply Set.Subset.antisymm (h.fed.supplied doc)
  refine Set.union_subset (h.fed.base doc) ?_
  rintro o ⟨x, ⟨hx, hest⟩, rfl, bytes, ⟨hread, hdecodes⟩, ho⟩
  rcases h.fed.kept x hx with ⟨p, hp, rfl⟩ | ⟨p, hp, -⟩ | hdone
  · rcases h.waits p hp with hnot | ⟨given, hgiven, hcarried⟩
    · exact absurd hest hnot
    · obtain rfl := ChunkReading.plaintext.inj (hread.symm.trans hgiven)
      exact hcarried hdecodes ho
  · exact absurd hp List.not_mem_nil
  · exact (hdone.2 bytes hread).2.1 ho

/-- The chunks that can be applied in the end. -/
def ready (w : Intake Op) (chunks : Set Item) (ops : Set ControlOp) : Set Item :=
  { x | x ∈ readable chunks ops ∧ ∃ bytes, w.Legible x bytes ∧
    ∀ o ∈ w.history.carried bytes, w.history.past o ⊆ w.supply chunks ops x.1 }

/-- A chunk that cannot be applied: its operation is not held, or it does not decode, or a
dependency of it is missing. -/
def Stuck (w : Intake Op) (chunks : Set Item) (ops : Set ControlOp) (x : Item) : Prop :=
  ¬ Established ops x.2 ∨ ∃ bytes, reading w.key x.2 = .plaintext bytes ∧
    (w.decodes bytes →
      ¬ ∀ o ∈ w.history.carried bytes, w.history.past o ⊆ w.supply chunks ops x.1)

/-- Where the chunks that can be applied supply one another, those that cannot are parked. -/
theorem Rested.parked_iff (h : w.Rested chunks s)
    (hready : w.SelfSupplied (w.ready chunks (graph s.cgka.cgka))) (x : Item) :
    (∃ p ∈ s.pendingChunks, p.item = x) ↔ x ∈ chunks ∧ w.Stuck chunks (graph s.cgka.cgka) x := by
  constructor
  · rintro ⟨p, hp, rfl⟩
    refine ⟨h.fed.queued p hp, ?_⟩
    by_cases hest : Established (graph s.cgka.cgka) p.item.2
    · obtain ⟨bytes, hread, -⟩ := (h.waits p hp).resolve_left (not_not.mpr hest)
      refine Or.inr ⟨bytes, hread, fun hdecodes hpast => ?_⟩
      refine h.exhausted _ (fun y hy => hy.1) hready p hp ?_
      exact ⟨⟨h.fed.queued p hp, hest⟩, bytes, ⟨hread, hdecodes⟩, hpast⟩
    · exact Or.inl hest
  · rintro ⟨hx, hstuck⟩
    rcases h.fed.kept x hx with hqueue | ⟨p, hp, -⟩ | ⟨hest, hdone⟩
    · exact hqueue
    · exact absurd hp List.not_mem_nil
    · obtain ⟨bytes, hread, hmissing⟩ := hstuck.resolve_left (not_not.mpr hest)
      obtain ⟨hdecodes, -, hpast⟩ := hdone bytes hread
      refine absurd (fun o ho => ?_) (hmissing hdecodes)
      rw [← h.pool_eq]
      exact hpast o ho

/-! ## Deliveries -/

/-- A node that was offered these operations and given these chunks. -/
structure Ingests (w : Intake Op) (offered : Set AuthorizedOp) (chunks : Set Item)
    (s : WorkspaceState) : Prop where
  absorbs : Absorbs w.start.cgka.cgka w.start.cgka.certs offered [] s.cgka
  settled : OpsSettled s.cgka
  rested : w.Rested chunks s

/-- Taking in operations leaves the chunks as they were. -/
theorem Fed.evolve {c : CgkaController} (h : w.Fed chunks [] s)
    (hgraph : graph s.cgka.cgka ⊆ graph c.cgka) : w.Fed chunks [] { s with cgka := c } where
  base := h.base
  supplied doc := (h.supplied doc).trans (supply_mono subset_rfl hgraph doc)
  queued := h.queued
  kept x hx := by
    rcases h.kept x hx with hqueue | htodo | hdone
    · exact Or.inl hqueue
    · exact Or.inr (Or.inl htodo)
    · exact Or.inr (Or.inr (hdone.mono hgraph fun _ => subset_rfl))

/-- A controller that only parked an operation leaves the queue of chunks at rest. -/
theorem Rested.same_graph {c : CgkaController} (h : w.Rested chunks s)
    (hgraph : graph c.cgka = graph s.cgka.cgka) : w.Rested chunks { s with cgka := c } where
  fed := h.fed.evolve hgraph.ge
  waits p hp := by
    unfold Waits
    rw [hgraph]
    exact h.waits p hp
  exhausted := by
    rw [hgraph]
    exact h.exhausted

/-- Deriving keys changes nothing about the operations. -/
theorem Drained.absorbs {offered : Set AuthorizedOp} (h : w.Drained s s')
    (habsorbs : Absorbs w.start.cgka.cgka w.start.cgka.certs offered [] s.cgka)
    (hsettled : OpsSettled s.cgka) :
    Absorbs w.start.cgka.cgka w.start.cgka.certs offered [] s'.cgka ∧ OpsSettled s'.cgka := by
  obtain ⟨g, hcgka, hdescends, hgraph⟩ := h.cgka
  rw [hcgka]
  constructor
  · constructor
    · exact habsorbs.certs
    · refine ⟨fun m => ?_, habsorbs.tracked.signer⟩
      rw [hgraph]
      exact habsorbs.tracked.known m
    · exact hdescends
    · rw [hgraph]
      exact habsorbs.base
    · rw [hgraph]
      exact habsorbs.least
    · exact habsorbs.parked
    · rw [hgraph]
      exact habsorbs.kept
  · intro a ha hpresent
    unfold Present at hpresent
    rw [hgraph] at hpresent
    exact hsettled a ha hpresent

section Steps

/-- Trying chunks evicts no operation. -/
theorem evictedOps_tried [LawfulBeekem] :
    Tried fun p : WorkspaceState × Rng => p.1.cgka.evictedOps where
  tries doc chunk := by
    have hdecrypt : ∀ chunk, Keeps CgkaController.evictedOps (CgkaController.decrypt chunk) := by
      intro chunk c
      refine (decrypt_spec c chunk).mono ?_ ?_
      · rintro outcome c' ⟨g, -, rfl⟩
        rfl
      · rintro e c' ⟨g, -, rfl⟩
        rfl
    exact (tryApply_controller hdecrypt doc chunk).raises
  rest s s' rng _ hcgka := by
    dsimp only
    rw [hcgka]

variable [LiveBeekem] {offered : Set AuthorizedOp} {a : AuthorizedOp}

/-- An operation arrives, and evicts none. -/
theorem Ingests.controlOp (hw : w.Lawful) (h : w.Ingests offered chunks s)
    (hacceptable : ∀ b ∈ insert a offered,
      Acceptable w.start.cgka.certs (graph w.start.cgka.cgka) b) (rng : Rng) :
    Wp (onControlOp a)
      (fun _ p => p.1.cgka.evictedOps = s.cgka.evictedOps →
        w.Ingests (insert a offered) chunks p.1)
      (fun _ p => p.1.cgka.evictedOps ≠ s.cgka.evictedOps) (s, rng) := by
  unfold onControlOp
  rw [wp_bind, wp_onCgka]
  have hmerge := ((absorbs_merge hacceptable h.absorbs).and (merge_evicted a s.cgka)).and
    (merge_progress s.cgka a)
  refine hmerge.mono ?_ fun _ _ h => h.1.1.elim
  rintro outcome c ⟨⟨hstep, hle⟩, hprogress, -⟩
  have hgrows : graph s.cgka.cgka ⊆ graph c.cgka := fun op hop =>
    (hprogress.evolves.tree.mem_graph op).mpr (Or.inl hop)
  have hidle : outcome ≠ .applied → c.evictedOps = s.cgka.evictedOps →
      w.Ingests (insert a offered) chunks { s with cgka := c } := by
    intro hnot hevicted
    obtain ⟨habsorbs, hwaits⟩ := hstep hevicted
    obtain ⟨hgraph, hsettled⟩ := hwaits hnot
    exact ⟨habsorbs, hsettled h.settled, h.rested.same_graph hgraph⟩
  cases outcome with
  | duplicate => exact hidle (by simp)
  | deferred => exact hidle (by simp)
  | applied =>
      -- Once an operation was evicted nothing is claimed, and the count never falls.
      have hover : ∀ c₂ : CgkaController, s.cgka.evictedOps < c₂.evictedOps →
          Wp (do
            let effects ← drainPending
            let s ← self
            return effects ++ s.evictIfSpliced a.op.payload a.op.issuer)
            (fun _ p => p.1.cgka.evictedOps = s.cgka.evictedOps →
              w.Ingests (insert a offered) chunks p.1)
            (fun _ p => p.1.cgka.evictedOps ≠ s.cgka.evictedOps) ({ s with cgka := c₂ }, rng) := by
        intro c₂ hmore
        refine ((drainPending_spec { s with cgka := c₂ } rng).and
          (drainPending_raises evictedOps_tried ({ s with cgka := c₂ }, rng))).seq ?_
          fun _ _ h => h.1.elim
        rintro effects p ⟨-, hdrained⟩
        rw [wp_bind, wp_self]
        exact fun heq => absurd heq (hmore.trans_le hdrained).ne'
      dsimp only
      rw [wp_bind, wp_onCgka]
      rcases hle.lt_or_eq with hlt | heq
      · refine (pendingRounds_evicted (c.parked.length + 1) 0 none c).mono ?_ ?_
        · exact fun total c₂ hge => hover c₂ (hlt.trans_le hge)
        · exact fun _ c₂ hge => (hlt.trans_le hge).ne'
      · obtain ⟨habsorbs, -⟩ := hstep heq.symm
        refine (((absorbs_mergePending hacceptable habsorbs).and
          (pendingRounds_evicted (c.parked.length + 1) 0 none c)).and
          (mergePending_merges c)).mono ?_ ?_
        · rintro total c₂ ⟨⟨hpending, hge⟩, added, hmerges, -⟩
          rcases hge.lt_or_eq with hlt | heq'
          · exact hover c₂ (heq.trans_lt hlt)
          · obtain ⟨hall, hsettled⟩ := hpending heq'.symm
            have hfed : w.Fed chunks [] { s with cgka := c₂ } :=
              h.rested.fed.evolve (hgrows.trans fun op hop =>
                (hmerges.progress.evolves.tree.mem_graph op).mpr (Or.inl hop))
            refine (drainPending_rests hw hfed hall.descends rng).seq ?_ fun _ _ => False.elim
            rintro effects p ⟨hrested, hdrained⟩
            rw [wp_bind, wp_self]
            intro _
            obtain ⟨habsorbed, hquiet⟩ := hdrained.absorbs hall hsettled
            exact ⟨habsorbed, hquiet, hrested⟩
        · rintro e c₂ ⟨⟨hne, -⟩, -⟩
          exact fun heq' => hne (heq'.trans heq)

/-- Parking a chunk evicts none, or counts what it evicts. -/
theorem parkChunk_cases (doc : DocumentUuid) (chunk : Chunk OpHash) (s : WorkspaceState)
    (h : (parkChunk doc chunk s).evictedChunks = s.evictedChunks) :
    (parkChunk doc chunk s).pendingChunks = s.pendingChunks ++ [⟨doc, chunk, 0⟩] := by
  have hcount : ∀ (queue : List Parked) (size bytes evicted : Nat),
      evicted ≤ (evictFor size queue bytes evicted).2.2 ∧
        ((evictFor size queue bytes evicted).2.2 = evicted →
          (evictFor size queue bytes evicted).1 = queue) := by
    intro queue size
    induction queue with
    | nil => exact fun _ _ => ⟨le_rfl, fun _ => rfl⟩
    | cons oldest rest ih =>
        intro bytes evicted
        unfold evictFor
        split_ifs
        · obtain ⟨hle, -⟩ := ih (bytes - oldest.chunk.ciphertext.length) (evicted + 1)
          exact ⟨by omega, fun heq => by omega⟩
        · exact ⟨le_rfl, fun _ => rfl⟩
  have hqueue := (hcount s.pendingChunks chunk.ciphertext.length s.pendingBytes s.evictedChunks).2 h
  change (evictFor _ _ _ _).1 ++ _ = _
  rw [hqueue]

/-- No two different chunks of a document share their content digest and their key's. -/
def Distinguishable (chunks : Set Item) : Prop :=
  ∀ x ∈ chunks, ∀ y ∈ chunks, x.1 = y.1 → x.2.contentRef = y.2.contentRef →
    x.2.pcsKeyHash = y.2.pcsKeyHash → x = y

/-- The count of evicted chunks. -/
def evictions (p : WorkspaceState × Rng) : Nat := p.1.evictedChunks

/-- Draining evicts nothing. -/
theorem drainPending_evictions : Keeps evictions drainPending := by
  have hself : Keeps evictions self := .bind .get fun _ => .pure _
  have htry : ∀ doc chunk, Keeps evictions (tryApply doc chunk) := by
    intro doc chunk
    have hdecrypt : Keeps evictions (onCgka (CgkaController.decrypt chunk)) := by
      unfold onCgka
      refine .zoom ?_ _
      exact fun _ _ => rfl
    have hopen : Keeps evictions (openDoc doc) := by
      intro p
      unfold openDoc
      rw [wp_bind, wp_self]
      cases p.1.docs.get? doc with
      | some loro => exact rfl
      | none => exact rfl
    have himport : ∀ bytes, Keeps evictions
        (onDoc doc CoreError.manifest (Loro.importBytes bytes)) := by
      intro bytes
      unfold onDoc
      refine .zoom ?_ _
      exact fun _ _ => rfl
    refine hdecrypt.attempt.bind fun outcome => ?_
    split
    · refine hopen.bind fun _ => (himport _).attempt.bind fun merged => ?_
      split
      · refine Keeps.bind (.modify ?_) fun _ => .pure _
        exact fun _ => rfl
      · exact .pure _
    · exact .pure _
    · exact .pure _
    · exact .pure _
  have hround : ∀ queue applied effects, Keeps evictions (drainRound queue applied effects) := by
    intro queue
    induction queue with
    | nil => exact fun _ _ => .pure _
    | cons parked rest ih =>
        intro applied effects
        have hrequeue : Keeps evictions (WorkspaceState.update (WorkspaceState.requeue parked)) := by
          refine .modify ?_
          exact fun _ => rfl
        unfold drainRound
        refine (htry _ _).bind fun outcome => ?_
        cases outcome with
        | applied => exact ih _ _
        | awaitingKey => exact hrequeue.bind fun _ => ih _ _
        | awaitingDeps =>
            refine hrequeue.bind fun _ => ?_
            split_ifs
            · exact ih _ _
            · exact ih _ _
        | unreachable =>
            refine Keeps.bind (.modify ?_) fun _ => ih _ _
            exact fun _ => rfl
        | corrupt =>
            refine Keeps.bind (.modify ?_) fun _ => ih _ _
            exact fun _ => rfl
  have hrounds : ∀ fuel effects, Keeps evictions (drainRounds fuel effects) := by
    intro fuel
    induction fuel with
    | zero => exact fun _ => .pure _
    | succ fuel ih =>
        intro effects
        unfold drainRounds
        refine hself.bind fun s => Keeps.bind (.modify ?_) fun _ => ?_
        · exact fun _ => rfl
        · refine (hround _ _ _).bind fun r => ?_
          obtain ⟨applied, effects'⟩ := r
          dsimp only
          split_ifs
          · exact .pure _
          · exact ih _
  exact hself.bind fun s => hrounds _ _

/-- A chunk arrives, and evicts none. -/
theorem Ingests.chunkArrived (hw : w.Lawful) (h : w.Ingests offered chunks s) (x : Item)
    (hdistinct : Distinguishable (insert x chunks)) (rng : Rng) :
    Wp (onChunkArrived x.1 x.2)
      (fun _ p => p.1.evictedChunks = s.evictedChunks → w.Ingests offered (insert x chunks) p.1)
      (fun _ _ => False) (s, rng) := by
  have hdrain : ∀ s₁ : WorkspaceState, s₁.cgka = s.cgka → w.Fed (insert x chunks) [] s₁ →
      Wp drainPending (fun _ p => w.Ingests offered (insert x chunks) p.1) (fun _ _ => False)
        (s₁, rng) := by
    intro s₁ hcgka hfed
    have hdescends : Descends w.start.cgka.cgka s₁.cgka.cgka := by
      rw [hcgka]
      exact h.absorbs.descends
    refine (drainPending_rests hw hfed hdescends rng).mono ?_ fun _ _ => id
    rintro effects p ⟨hrested, hdrained⟩
    obtain ⟨habsorbs, hsettled⟩ := hdrained.absorbs (by rw [hcgka]; exact h.absorbs)
      (by rw [hcgka]; exact h.settled)
    exact ⟨habsorbs, hsettled, hrested⟩
  unfold onChunkArrived
  rw [wp_bind, wp_self]
  dsimp only
  split_ifs with hparked
  · -- The same chunk is waiting already.
    obtain ⟨p, hp, hsame⟩ := List.any_eq_true.mp hparked
    obtain ⟨hdoc, href, hkey⟩ := of_decide_eq_true hsame
    have hx : x ∈ chunks := by
      have hitem : p.item = x := hdistinct p.item (Set.mem_insert_of_mem x (h.rested.fed.queued p hp))
        x (Set.mem_insert x chunks) hdoc href hkey
      exact hitem ▸ h.rested.fed.queued p hp
    have hfed : w.Fed (insert x chunks) [] s := by
      rw [Set.insert_eq_of_mem hx]
      exact h.rested.fed
    exact (hdrain s rfl hfed).mono (fun _ _ h _ => h) fun _ _ => id
  · rw [wp_bind, wp_update]
    by_cases hevicted : (parkChunk x.1 x.2 s).evictedChunks = s.evictedChunks
    · have hqueue := parkChunk_cases x.1 x.2 s hevicted
      have hmem : ∀ p, p ∈ (parkChunk x.1 x.2 s).pendingChunks ↔
          p ∈ s.pendingChunks ∨ p = ⟨x.1, x.2, 0⟩ := by
        intro p
        rw [hqueue, List.mem_append, List.mem_singleton]
      have hfed : w.Fed (insert x chunks) [] (parkChunk x.1 x.2 s) := by
        refine ⟨h.rested.fed.base, fun doc => ?_, fun p hp => ?_, fun y hy => ?_⟩
        · exact (h.rested.fed.supplied doc).trans
            (supply_mono (Set.subset_insert x chunks) subset_rfl doc)
        · rcases (hmem p).mp hp with hp | rfl
          · exact Set.mem_insert_of_mem x (h.rested.fed.queued p hp)
          · exact Set.mem_insert x chunks
        · rcases Set.mem_insert_iff.mp hy with rfl | hy
          · exact Or.inl ⟨_, (hmem _).mpr (Or.inr rfl), rfl⟩
          · rcases h.rested.fed.kept y hy with ⟨p, hp, hitem⟩ | ⟨p, hp, -⟩ | hdone
            · exact Or.inl ⟨p, (hmem p).mpr (Or.inl hp), hitem⟩
            · exact absurd hp List.not_mem_nil
            · exact Or.inr (Or.inr hdone)
      exact (hdrain (parkChunk x.1 x.2 s) rfl hfed).mono (fun _ _ h _ => h) fun _ _ => id
    · refine ((drainPending_evictions (parkChunk x.1 x.2 s, rng)).and
        (drainPending_spec (parkChunk x.1 x.2 s) rng)).mono ?_ fun _ _ h => h.2
      rintro effects p ⟨hsame, -⟩ heq
      exact absurd (hsame.symm.trans heq) hevicted

end Steps

end Intake

/-! ## Whole deliveries -/

/-- What arrives at a node: an operation or a chunk. -/
inductive Delivery where
  | op (a : AuthorizedOp)
  | chunk (x : Item)

namespace Delivery

def event : Delivery → Event
  | .op a => .controlOp a
  | .chunk x => .chunkArrived x.1 x.2

/-- Where a node ends that these arrive at. -/
def all (now : UnixSeconds) (deliveries : List Delivery) (p : WorkspaceState × Rng) :
    WorkspaceState × Rng :=
  runAll (deliveries.map fun d => .handle d.event now) p

/-- Nothing of these evicts anything. -/
def EvictsNothing (now : UnixSeconds) : List Delivery → WorkspaceState × Rng → Prop
  | [], _ => True
  | d :: rest, p =>
      let p' := after (Call.run (.handle d.event now)) p
      p'.1.cgka.evictedOps = p.1.cgka.evictedOps ∧ p'.1.evictedChunks = p.1.evictedChunks ∧
        EvictsNothing now rest p'

instance evictsNothingDecidable (now : UnixSeconds) :
    (deliveries : List Delivery) → (p : WorkspaceState × Rng) →
      Decidable (EvictsNothing now deliveries p)
  | [], _ => inferInstanceAs (Decidable True)
  | d :: rest, p =>
      have := evictsNothingDecidable now rest (after (Call.run (.handle d.event now)) p)
      decidable_of_iff
        ((after (Call.run (.handle d.event now)) p).1.cgka.evictedOps = p.1.cgka.evictedOps ∧
          (after (Call.run (.handle d.event now)) p).1.evictedChunks = p.1.evictedChunks ∧
          EvictsNothing now rest (after (Call.run (.handle d.event now)) p)) Iff.rfl

/-- The operations of a node's queue and of these deliveries. -/
def operations (deliveries : List Delivery) (s : WorkspaceState) : Set AuthorizedOp :=
  { a | a ∈ s.cgka.parked ∨ .op a ∈ deliveries }

/-- The chunks of a node's queue and of these deliveries. -/
def items (deliveries : List Delivery) (s : WorkspaceState) : Set Item :=
  { x | (∃ p ∈ s.pendingChunks, p.item = x) ∨ .chunk x ∈ deliveries }

end Delivery

namespace Intake

variable {Op : Type} {w : Intake Op}

/-- The node whose intake this is starts with nothing in its queues that could be taken in. -/
structure AtRest (w : Intake Op) : Prop where
  settled : OpsSettled w.start.cgka
  waits : ∀ p ∈ w.start.pendingChunks, w.Waits w.start p.item
  exhausted : w.Exhausted (Delivery.items [] w.start) (graph w.start.cgka.cgka)
    w.start.pendingChunks

/-- What was given before is given again with the rest. -/
theorem Ingests.start (htracked : Tracked w.start.cgka) (h : w.AtRest) :
    w.Ingests (Delivery.operations [] w.start) (Delivery.items [] w.start) w.start where
  absorbs :=
    { certs := rfl
      tracked := htracked
      descends := .refl
      base := subset_rfl
      least := fun _ hbase _ => hbase
      parked := fun _ ha => Or.inl ha
      kept := fun _ ha => Or.inr (Or.inl (ha.elim id fun h => absurd h List.not_mem_nil)) }
  settled := h.settled
  rested :=
    { fed :=
        { base := fun _ => subset_rfl
          supplied := fun _ => Set.subset_union_left
          queued := fun p hp => Or.inl ⟨p, hp, rfl⟩
          kept := fun _ hx => Or.inl (hx.elim id fun h => absurd h List.not_mem_nil) }
      waits := h.waits
      exhausted := h.exhausted }

/-- A node that evicts nothing takes in whatever arrives. -/
theorem Ingests.deliver [LiveBeekem] (hw : w.Lawful) (now : UnixSeconds)
    {deliveries : List Delivery} {offered : Set AuthorizedOp} {chunks : Set Item}
    {p : WorkspaceState × Rng} (h : w.Ingests offered chunks p.1)
    (hacceptable : ∀ a ∈ { a | a ∈ offered ∨ Delivery.op a ∈ deliveries },
      Acceptable w.start.cgka.certs (graph w.start.cgka.cgka) a)
    (hdistinct : Distinguishable { x | x ∈ chunks ∨ Delivery.chunk x ∈ deliveries })
    (hevicts : Delivery.EvictsNothing now deliveries p) :
    w.Ingests { a | a ∈ offered ∨ Delivery.op a ∈ deliveries }
      { x | x ∈ chunks ∨ Delivery.chunk x ∈ deliveries } (Delivery.all now deliveries p).1 := by
  induction deliveries generalizing offered chunks p with
  | nil => simpa [Delivery.all, runAll] using h
  | cons d rest ih =>
      obtain ⟨hops, hchunks, hrest⟩ := hevicts
      cases d with
      | op a =>
          have hoffered : { b | b ∈ offered ∨ Delivery.op b ∈ Delivery.op a :: rest } =
              { b | b ∈ insert a offered ∨ Delivery.op b ∈ rest } := by
            ext b
            simp only [Set.mem_ofPred_eq, List.mem_cons, Delivery.op.injEq, Set.mem_insert_iff]
            tauto
          have hitems : { x | x ∈ chunks ∨ Delivery.chunk x ∈ Delivery.op a :: rest } =
              { x | x ∈ chunks ∨ Delivery.chunk x ∈ rest } := by
            ext x
            simp
          rw [hoffered] at hacceptable ⊢
          rw [hitems] at hdistinct ⊢
          have hstep : w.Ingests (insert a offered) chunks
              (after (Call.run (.handle (.controlOp a) now)) p).1 := by
            have hone := h.controlOp (a := a) hw (fun b hb => hacceptable b (Or.inl hb)) p.2
            refine Wp.after (P := fun p' : WorkspaceState × Rng =>
              p'.1.cgka.evictedOps = p.1.cgka.evictedOps → w.Ingests (insert a offered) chunks p'.1)
              (hone.mono (fun _ _ => id) fun _ _ hne heq => absurd heq hne) hops
          exact ih hstep hacceptable hdistinct hrest
      | chunk x =>
          have hoffered : { b | b ∈ offered ∨ Delivery.op b ∈ Delivery.chunk x :: rest } =
              { b | b ∈ offered ∨ Delivery.op b ∈ rest } := by
            ext b
            simp
          have hitems : { y | y ∈ chunks ∨ Delivery.chunk y ∈ Delivery.chunk x :: rest } =
              { y | y ∈ insert x chunks ∨ Delivery.chunk y ∈ rest } := by
            ext y
            simp only [Set.mem_ofPred_eq, List.mem_cons, Delivery.chunk.injEq, Set.mem_insert_iff]
            tauto
          rw [hoffered] at hacceptable ⊢
          rw [hitems] at hdistinct ⊢
          have hstep : w.Ingests offered (insert x chunks)
              (after (Call.run (.handle (.chunkArrived x.1 x.2) now)) p).1 := by
            have hsmaller : Distinguishable (insert x chunks) := fun y hy z hz =>
              hdistinct y (Or.inl hy) z (Or.inl hz)
            have hone := h.chunkArrived hw x hsmaller p.2
            exact Wp.after (P := fun p' : WorkspaceState × Rng =>
              p'.1.evictedChunks = p.1.evictedChunks → w.Ingests offered (insert x chunks) p'.1)
              (hone.mono (fun _ _ => id) fun _ _ => False.elim) hchunks
          exact ih hstep hacceptable hdistinct hrest

/-- All that can be taken in of these operations by who holds those. -/
def closure (offered : Set AuthorizedOp) (held : Set ControlOp) : Set ControlOp :=
  { op | ∀ ops, held ⊆ ops → ClosedUnder offered ops → op ∈ ops }

theorem Ingests.graph_eq {offered : Set AuthorizedOp} {chunks : Set Item} {s : WorkspaceState}
    (h : w.Ingests offered chunks s) :
    graph s.cgka.cgka = closure offered (graph w.start.cgka.cgka) := by
  ext op
  constructor
  · exact fun hop ops hheld hclosed => h.absorbs.least ops hheld hclosed hop
  · exact fun hop => hop _ h.absorbs.base (h.absorbs.closed h.settled)

end Intake

end IrohBeekem

namespace IrohBeekem

open Library CgkaController WorkspaceState

/-! ## Two strands -/

namespace ListDoc

/-- The operations a document was given: numbers, one to a character of its text. -/
def given (d : ListDoc) : List Nat := d.text.toList.map Char.toNat

/-- Keep what an update carries. -/
def take (bytes : Bytes) (d : ListDoc) : ListDoc :=
  { d with text := d.text ++ String.ofList (bytes.map fun b => Char.ofNat b.toNat) }

/-- Everything a number depends on was given: the smaller ones of its strand, the even or
the odd one. -/
def complete (d : ListDoc) (n : Nat) : Bool :=
  (List.range n).all fun m => decide (m % 2 = n % 2 → m ∈ d.given)

end ListDoc

@[reducible] def strandLoro : Loro :=
  { listLoro with
    importBytes := fun bytes d =>
      .ok (!(bytes.all fun b => (d.take bytes).complete b.toNat)) (d.take bytes) }

section Samples

local instance strandKeyhive : Keyhive := transparentKeyhive

local instance strandBeekem : Beekem := listBeekem

local instance strandLive : LiveBeekem := listBeekem_live

local instance strandDocs : Loro := strandLoro

local instance strandPostcard : Postcard := blankPostcard

/-- The numbers of a document, each depending on the smaller ones of its strand. -/
def strandHistory : History Nat where
  ops d := { n | n ∈ ListDoc.given d ∧ { m | m < n ∧ m % 2 = n % 2 } ⊆ { m | m ∈ ListDoc.given d } }
  past n := { m | m < n ∧ m % 2 = n % 2 }
  covered _ := ∅
  carried bytes := { n | ∃ b ∈ bytes, b.toNat = n }

def strandPool (d : ListDoc) : Set Nat := { n | n ∈ d.given }

private theorem mem_take {bytes : Bytes} {d : ListDoc} {n : Nat} :
    n ∈ (d.take bytes).given ↔ n ∈ d.given ∨ ∃ b ∈ bytes, b.toNat = n := by
  have hchar : ∀ b : UInt8, (Char.ofNat b.toNat).toNat = b.toNat := by
    intro b
    have hlt : b.toNat < 256 := b.toNat_lt
    rw [Char.toNat_ofNat, if_pos]
    exact Or.inl (by omega)
  unfold ListDoc.given ListDoc.take
  simp [hchar]

private theorem complete_iff {d : ListDoc} {n : Nat} :
    d.complete n = true ↔ { m | m < n ∧ m % 2 = n % 2 } ⊆ strandPool d := by
  unfold ListDoc.complete strandPool
  simp only [List.all_eq_true, List.mem_range, decide_eq_true_eq]
  constructor
  · rintro h m ⟨hlt, hsame⟩
    exact h m hlt hsame
  · exact fun h m hlt hsame => h ⟨hlt, hsame⟩

theorem strandHistory_pooled : strandHistory.Pooled strandPool fun _ => True where
  ops_eq _ := rfl
  import_ok bytes d _ := by
    refine ⟨_, _, rfl, ?_, ?_⟩
    · ext n
      exact mem_take
    · rw [Bool.not_eq_false', List.all_eq_true]
      constructor
      · rintro h n ⟨b, hb, rfl⟩
        exact complete_iff.mp (h b hb)
      · exact fun h b hb => complete_iff.mpr (h b.toNat ⟨b, hb, rfl⟩)
  import_fails _ _ h := absurd trivial h

theorem has_iff {g : Cgka} {chunk : Chunk OpHash} :
    ListCgka.has g [chunk.pcsUpdateOpHash] = true ↔ Established (graph g) chunk := by
  rw [show ListCgka.has g [chunk.pcsUpdateOpHash] =
    Beekem.containsPredecessors g [chunk.pcsUpdateOpHash] from rfl,
    LawfulBeekem.containsPredecessors_iff]
  simp [Established]

theorem listKeyed (g : Cgka) : Keyed g fun chunk => some chunk.pcsKeyHash where
  held g' _ chunk hest k := by
    change (∃ g'', ListCgka.decryptionKeyFor chunk g' = .ok k g'') ↔ _
    unfold ListCgka.decryptionKeyFor
    rw [if_pos (has_iff.mpr hest)]
    constructor
    · rintro ⟨g'', hok⟩
      rw [(EStateM.Result.ok.inj hok).1]
    · exact fun hkey => ⟨g', by rw [Option.some.inj hkey]⟩
  absent g' _ chunk hnot k g'' := by
    change ListCgka.decryptionKeyFor chunk g' ≠ .ok k g''
    unfold ListCgka.decryptionKeyFor
    rw [if_neg fun h => hnot (has_iff.mp h)]
    exact fun h => by cases h

/-- A node with documents of two strands. -/
def strandIntake (s : WorkspaceState) : Intake Nat where
  start := s
  history := strandHistory
  pool := strandPool
  decodes _ := True
  key chunk := some chunk.pcsKeyHash

private theorem strandIntake_lawful (s : WorkspaceState) : (strandIntake s).Lawful :=
  ⟨listKeyed _, strandHistory_pooled⟩

private theorem strandIntake_atRest {s : WorkspaceState} (hparked : s.cgka.parked = [])
    (hpending : s.pendingChunks = []) : (strandIntake s).AtRest where
  settled a ha := by
    change a ∈ s.cgka.parked at ha
    rw [hparked] at ha
    exact absurd ha List.not_mem_nil
  waits p hp := by
    change p ∈ s.pendingChunks at hp
    rw [hpending] at hp
    exact absurd hp List.not_mem_nil
  exhausted _ _ _ p hp := by
    change p ∈ s.pendingChunks at hp
    rw [hpending] at hp
    exact absurd hp List.not_mem_nil

/-- The founder. -/
@[irreducible] def strandNode : WorkspaceState := sampleWorkspace 1

/-- A chunk of document `5` keyed by the founding operation, with these numbers. -/
def strandChunk (numbers : Bytes) : Delivery :=
  .chunk (5, ⟨numbers, Beekem.hashBytes numbers, [], 0, OpId.of strandNode.cgka.cgka.init⟩)

/-- The numbers of the chunks that are parked. -/
def parkedNumbers (p : WorkspaceState × Rng) : List Bytes :=
  p.1.pendingChunks.map fun parked => parked.chunk.ciphertext

/-- `2` comes before the chunk that has `0`, which also has `3` but not `1`. -/
def lateSupply : List Delivery := [strandChunk [2], strandChunk [0, 3]]

/-- The founder admits a second administrator. -/
@[irreducible] def strandHost : WorkspaceState × Rng :=
  runAll [.handle (.addUser 2 102 .admin "second" none) 0] (sampleWorkspace 1, (1 : Nat))

/-- The second one rotates its key, and this is the operation. -/
@[irreducible] def strandRotation : AuthorizedOp :=
  ⟨((sentBy (.handle .rotate 0) (joinedWorkspace strandHost.1 2 102, (50 : Nat))).headD
    (sampleFounder.cgka.init, [])).1, []⟩

/-- A chunk keyed by the rotation. -/
def strandSecret : Item :=
  (5, ⟨[0], Beekem.hashBytes [0], [], 0, OpId.of strandRotation.op⟩)

end Samples

end IrohBeekem
