import IrohBeekem.Keys.Join
import IrohBeekem.Library.Keeps

/-!
# Operations offered in any order

A controller that is offered acceptable operations takes in each as soon as what it names
is there, and parks it until then.  `Absorbs` is the invariant of the operations offered so
far: each is in the graph or in the queue, and the graph is contained in every set of
operations that is closed under taking them in.  Once nothing in the queue can be taken in,
the graph is itself closed, so it is the least such set, whatever the order was.
-/

set_option linter.unusedSectionVars false

namespace IrohBeekem

open Library CgkaController

variable [Keyhive] [Beekem]

omit [Keyhive] in
/-- What an operation names is in the graph. -/
def Present (g : Cgka) (op : ControlOp) : Prop :=
  ∀ h ∈ op.payload.predecessors, ∃ p ∈ graph g, opHash p = h

omit [Keyhive] in
/-- The trees a tree becomes by merging operations and deriving keys. -/
inductive Descends (g : Cgka) : Cgka → Prop where
  | refl : Descends g g
  | merge {g' : Cgka} (h : Descends g g') (op : ControlOp) :
      Descends g (after (Beekem.mergeConcurrentOperation op) g')
  | derive {g' : Cgka} (h : Descends g g') (chunk : Chunk OpHash) :
      Descends g (after (Beekem.decryptionKeyFor chunk) g')

/-- An authorised operation: it verifies, brings no new certificate, its issuer may make the
change, and who holds what it names knows the issuer. -/
structure Acceptable (store : CapabilityStore) (held : Set ControlOp) (a : AuthorizedOp) : Prop where
  verifies : verifyOp a.op = true
  proof : (store.extend a.proof).2 = store
  authorised : authorize store a.op.payload a.op.issuer = .ok ()
  issuer : Introduced a.op ∨ ∃ intro ∈ held, intro.payload.added? = some a.op.issuer

/-- A set of operations that misses none of the offered ones it holds the predecessors of. -/
def ClosedUnder (offered : Set AuthorizedOp) (ops : Set ControlOp) : Prop :=
  ∀ a ∈ offered, (∀ h ∈ a.op.payload.predecessors, ∃ p ∈ ops, opHash p = h) → a.op ∈ ops

/-- The controller went from `g` to here by being offered these operations, of which
`todo` are still to be retried. -/
structure Absorbs (g : Cgka) (store : CapabilityStore) (offered : Set AuthorizedOp)
    (todo : List AuthorizedOp) (c : CgkaController) : Prop where
  certs : c.certs = store
  tracked : Tracked c
  descends : Descends g c.cgka
  base : graph g ⊆ graph c.cgka
  least : ∀ ops, graph g ⊆ ops → ClosedUnder offered ops → graph c.cgka ⊆ ops
  parked : ∀ a ∈ c.parked, a ∈ offered
  kept : ∀ a ∈ offered, a.op ∈ graph c.cgka ∨ a ∈ c.parked ∨ a ∈ todo

/-- Nothing in the queue can be taken in. -/
def OpsSettled (c : CgkaController) : Prop := ∀ a ∈ c.parked, ¬ Present c.cgka a.op

variable {g : Cgka} {store : CapabilityStore} {offered : Set AuthorizedOp}
  {todo : List AuthorizedOp} {c : CgkaController} {a : AuthorizedOp}

/-- With nothing left to take in, the graph is the least closed set. -/
theorem Absorbs.closed (h : Absorbs g store offered [] c) (hsettled : OpsSettled c) :
    ClosedUnder offered (graph c.cgka) := by
  intro a ha hpreds
  rcases h.kept a ha with hgraph | hparked | htodo
  · exact hgraph
  · exact absurd hpreds (hsettled a hparked)
  · exact absurd htodo List.not_mem_nil

/-- Two controllers that were offered the same operations end with the same graph. -/
theorem Absorbs.graph_eq {c' : CgkaController} (h : Absorbs g store offered [] c)
    (h' : Absorbs g store offered [] c') (hsettled : OpsSettled c) (hsettled' : OpsSettled c') :
    graph c.cgka = graph c'.cgka := by
  apply Set.Subset.antisymm
  · exact h.least _ h'.base (h'.closed hsettled')
  · exact h'.least _ h.base (h.closed hsettled)

/-! ## Evictions -/

namespace CgkaController

theorem park_evicted (a : AuthorizedOp) (c : CgkaController) :
    c.evictedOps ≤ (c.park a).evictedOps := by
  unfold park
  split_ifs
  · exact Nat.le_succ _
  · exact le_rfl

theorem recordMembership_evicted (op : CgkaOperation OpHash) (c : CgkaController) :
    (recordMembership op c).evictedOps = c.evictedOps := by
  cases op <;> rfl

/-- The count of evicted operations never falls. -/
theorem mergeVerified_evicted (a : AuthorizedOp) :
    Raises CgkaController.evictedOps (mergeVerified a) := by
  intro c
  unfold mergeVerified
  rw [wp_bind, wp_get]
  dsimp only
  split_ifs
  · rw [wp_bind, wp_verdict]
    cases authorize c.certs a.op.payload a.op.issuer with
    | error err => exact le_rfl
    | ok u =>
        dsimp only
        rw [wp_bind, wp_attempt, onTree, wp_zoom]
        refine wp_of_run (fun applied g _ => ?_) fun err g _ => ?_
        · cases applied with
          | false => exact le_rfl
          | true => exact (recordMembership_evicted a.op.payload { c with cgka := g }).ge
        · cases err <;> exact le_rfl
  · exact le_rfl
  · exact park_evicted a c

theorem pendingRound_evicted (queue : List AuthorizedOp) (total : Nat)
    (firstError : Option CoreError) :
    Raises CgkaController.evictedOps (pendingRound queue total firstError) := by
  induction queue generalizing total firstError with
  | nil => exact .pure _
  | cons a rest ih =>
      unfold pendingRound
      refine .bind (mergeVerified_evicted a).attempt fun r => ?_
      split
      · exact ih _ _
      · exact ih _ _
      · exact ih _ _
      · exact ih _ _
      · exact ih _ _

theorem pendingRounds_evicted (fuel total : Nat) (firstError : Option CoreError) :
    Raises CgkaController.evictedOps (pendingRounds fuel total firstError) := by
  induction fuel generalizing total firstError with
  | zero => exact .pure _
  | succ fuel ih =>
      intro c
      unfold pendingRounds
      rw [wp_bind, wp_get, wp_bind, wp_set]
      refine (pendingRound_evicted c.parked total firstError { c with parked := [] }).seq ?_
        fun _ _ => id
      rintro ⟨total', firstError'⟩ c' hle
      dsimp only
      split_ifs
      · cases firstError' with
        | none => exact hle
        | some err => exact hle
      · exact (ih total' firstError' c').mono (fun _ _ h => hle.trans h) fun _ _ h => hle.trans h

/-! ## Retrying -/

variable [LiveBeekem]

/-- An accepted operation waits for what it names, or is taken in, or is there already. -/
theorem mergeVerified_acceptable {held : Set ControlOp} (h : Acceptable c.certs held a)
    (hheld : held ⊆ graph c.cgka) (htracked : Tracked c) :
    Wp (mergeVerified a)
      (fun outcome c' =>
        outcome = .deferred ∧ ¬ Present c.cgka a.op ∧ c' = c.park a ∨
        outcome ≠ .deferred ∧ Present c.cgka a.op ∧
          (outcome ≠ .applied → a.op ∈ graph c.cgka) ∧
          Evolves c c' (if outcome = .applied then [a.op] else []) [] ∧ c'.certs = c.certs ∧
          c'.parked = c.parked ∧ c'.evictedOps = c.evictedOps ∧
          c'.cgka = after (Beekem.mergeConcurrentOperation a.op) c.cgka)
      (fun _ _ => False) c := by
  unfold mergeVerified
  rw [wp_bind, wp_get]
  dsimp only
  split_ifs with hcontains hknown
  · have hpreds := (LawfulBeekem.containsPredecessors_iff c.cgka _).mp hcontains
    rw [wp_bind, wp_verdict, h.authorised]
    obtain ⟨applied, g', hrun⟩ := LiveBeekem.mergeConcurrentOperation_ok a.op c.cgka hpreds
    have hspec := (LawfulBeekem.mergeConcurrentOperation_spec a.op c.cgka).of_ok hrun
    have hafter : g' = after (Beekem.mergeConcurrentOperation a.op) c.cgka := by
      unfold Library.after
      rw [hrun]
    dsimp only
    rw [wp_bind, wp_attempt, onTree, wp_zoom]
    unfold Wp
    rw [hrun]
    cases applied with
    | false =>
        simp only [Bool.false_eq_true, if_false] at hspec
        refine Or.inr ⟨by simp, hpreds, fun _ => hspec.1, ?_, rfl, rfl, rfl, hafter⟩
        exact .of_tree rfl rfl hspec.2 rfl rfl rfl (fun _ => Or.inl) id
    | true =>
        simp only [if_true] at hspec
        have hevolves := recordMembership_evolves c hspec.2 ⟨⟨hspec.1, hpreds⟩, trivial⟩ []
        refine Or.inr ⟨by simp, hpreds, fun hnot => absurd rfl hnot, hevolves, ?_, ?_, ?_, ?_⟩
        · unfold recordMembership
          cases a.op.payload <;> rfl
        · unfold recordMembership
          cases a.op.payload <;> rfl
        · exact recordMembership_evicted a.op.payload { c with cgka := g' }
        · rw [← hafter]
          unfold recordMembership
          cases a.op.payload <;> rfl
  · apply hknown
    have hpreds := (LawfulBeekem.containsPredecessors_iff c.cgka _).mp hcontains
    rcases h.issuer with hintro | ⟨intro, hintro, hadded⟩
    · exact htracked.knows hintro hpreds
    · exact (htracked.known a.op.issuer).mpr ⟨intro, hheld hintro, hadded⟩
  · refine Or.inl ⟨rfl, fun hpreds => ?_, rfl⟩
    exact absurd ((LawfulBeekem.containsPredecessors_iff c.cgka _).mpr hpreds) (by assumption)

/-- Retrying one operation, unless that evicts one. -/
theorem absorbs_retry (hacceptable : ∀ a ∈ offered, Acceptable store (graph g) a) (ha : a ∈ offered)
    (h : Absorbs g store offered (a :: todo) c) :
    Wp (mergeVerified a)
      (fun outcome c' => c'.evictedOps = c.evictedOps → Absorbs g store offered todo c' ∧
        (outcome = .applied → c'.parked = c.parked) ∧
        (outcome ≠ .applied → graph c'.cgka = graph c.cgka ∧
          (c'.parked = c.parked ∨ c'.parked = c.parked ++ [a] ∧ ¬ Present c.cgka a.op)))
      (fun _ _ => False) c := by
  have hok : Acceptable c.certs (graph g) a := h.certs ▸ hacceptable a ha
  refine (mergeVerified_acceptable hok h.base h.tracked).mono ?_ fun _ _ => id
  rintro outcome c' (⟨rfl, habsent, rfl⟩ | ⟨-, hpresent, hmem, hevolves, hcerts, hparked, -, hcgka⟩)
    hevicted
  · have hpark : c.park a = { c with parked := c.parked ++ [a] } := by
      unfold park at hevicted ⊢
      split_ifs at hevicted ⊢ with hfull
      · exact absurd hevicted (Nat.succ_ne_self _)
      · rfl
    rw [hpark]
    refine ⟨⟨h.certs, ⟨h.tracked.known, h.tracked.signer⟩, h.descends, h.base, h.least, ?_, ?_⟩,
      by simp, fun _ => ⟨rfl, Or.inr ⟨rfl, habsent⟩⟩⟩
    · intro b hb
      rcases List.mem_append.mp hb with hb | hb
      · exact h.parked b hb
      · exact List.mem_singleton.mp hb ▸ ha
    · intro b hb
      rcases h.kept b hb with hb | hb | hb
      · exact Or.inl hb
      · exact Or.inr (Or.inl (List.mem_append_left _ hb))
      · rcases List.mem_cons.mp hb with rfl | hb
        · exact Or.inr (Or.inl (List.mem_append_right _ List.mem_cons_self))
        · exact Or.inr (Or.inr hb)
  · have hgraph := hevolves.tree.mem_graph
    have hin : a.op ∈ graph c'.cgka := by
      rw [hgraph]
      by_cases happlied : outcome = .applied
      · exact Or.inr (by simp [happlied])
      · exact Or.inl (hmem happlied)
    refine ⟨⟨hcerts.trans h.certs, h.tracked.evolve hevolves, ?_, ?_, ?_, ?_, ?_⟩, fun _ => hparked,
      fun hnot => ⟨?_, Or.inl hparked⟩⟩
    · rw [hcgka]
      exact h.descends.merge a.op
    · exact fun op hop => (hgraph op).mpr (Or.inl (h.base hop))
    · intro ops hbase hclosed op hop
      have hsub := h.least ops hbase hclosed
      rcases (hgraph op).mp hop with hop | hop
      · exact hsub hop
      · split_ifs at hop
        · obtain rfl := List.mem_singleton.mp hop
          refine hclosed a ha fun hash hhash => ?_
          obtain ⟨p, hp, hp'⟩ := hpresent hash hhash
          exact ⟨p, hsub hp, hp'⟩
        · exact absurd hop List.not_mem_nil
    · rw [hparked]
      exact h.parked
    · intro b hb
      rw [hparked]
      rcases h.kept b hb with hb | hb | hb
      · exact Or.inl ((hgraph _).mpr (Or.inl hb))
      · exact Or.inr (Or.inl hb)
      · rcases List.mem_cons.mp hb with rfl | hb
        · exact Or.inl hin
        · exact Or.inr (Or.inr hb)
    · ext op
      rw [hgraph, if_neg hnot]
      simp

/-- A round that ends where something was evicted says nothing. -/
theorem pendingRound_evicts {queue : List AuthorizedOp} {total : Nat}
    {firstError : Option CoreError} {Q : Nat × Option CoreError → CgkaController → Prop}
    {evicted : Nat} (h : evicted < c.evictedOps) :
    Wp (pendingRound queue total firstError) (fun r c' => c'.evictedOps = evicted → Q r c')
      (fun _ _ => False) c := by
  refine ((pendingRound_evicted queue total firstError c).and
    (pendingRound_merges c queue total firstError)).mono ?_ fun _ _ h => h.2
  rintro r c' ⟨hle, -⟩ heq
  exact absurd heq (h.trans_le hle).ne'

/-- A round takes operations in, or leaves the graph alone and all it retried waiting. -/
theorem absorbs_round (hacceptable : ∀ a ∈ offered, Acceptable store (graph g) a)
    {queue : List AuthorizedOp} (hqueue : ∀ a ∈ queue, a ∈ offered) (total : Nat)
    (firstError : Option CoreError) (h : Absorbs g store offered queue c) :
    Wp (pendingRound queue total firstError)
      (fun r c' => c'.evictedOps = c.evictedOps →
        r.2 = firstError ∧ total ≤ r.1 ∧ Absorbs g store offered [] c' ∧
        c'.parked.length + r.1 ≤ c.parked.length + queue.length + total ∧
        (r.1 = total → graph c'.cgka = graph c.cgka ∧
          ∀ b ∈ c'.parked, b ∈ c.parked ∨ ¬ Present c.cgka b.op))
      (fun _ _ => False) c := by
  induction queue generalizing c total with
  | nil => exact fun _ => ⟨rfl, le_rfl, h, by simp, fun _ => ⟨rfl, fun b => Or.inl⟩⟩
  | cons a rest ih =>
      have hrest : ∀ b ∈ rest, b ∈ offered := fun b hb => hqueue b (List.mem_cons_of_mem _ hb)
      unfold pendingRound
      rw [wp_bind, wp_attempt]
      refine ((absorbs_retry hacceptable (hqueue a List.mem_cons_self) h).and
        (mergeVerified_evicted a c)).mono ?_ fun _ _ h => h.1.elim
      rintro outcome c₁ ⟨hstep, hle⟩
      rcases hle.lt_or_eq with hlt | heq
      · cases outcome with
        | applied => exact pendingRound_evicts hlt
        | duplicate => exact pendingRound_evicts hlt
        | deferred => exact pendingRound_evicts hlt
      · obtain ⟨habsorbs, happlied, hwaits⟩ := hstep heq.symm
        have hidle : outcome ≠ .applied → Wp (pendingRound rest total firstError)
            (fun r c' => c'.evictedOps = c.evictedOps →
              r.2 = firstError ∧ total ≤ r.1 ∧ Absorbs g store offered [] c' ∧
              c'.parked.length + r.1 ≤ c.parked.length + (a :: rest).length + total ∧
              (r.1 = total → graph c'.cgka = graph c.cgka ∧
                ∀ b ∈ c'.parked, b ∈ c.parked ∨ ¬ Present c.cgka b.op))
            (fun _ _ => False) c₁ := by
          intro hnot
          obtain ⟨hgraph, hparked⟩ := hwaits hnot
          have hlength : c₁.parked.length ≤ c.parked.length + 1 := by
            rcases hparked with hparked | ⟨hparked, -⟩
            · rw [hparked]
              exact Nat.le_succ _
            · rw [hparked, List.length_append, List.length_singleton]
          refine (ih hrest total habsorbs).mono ?_ fun _ _ => id
          intro r c' hr hevicted
          obtain ⟨herr, htotal, hdone, hcount, hquiet⟩ := hr (hevicted.trans heq)
          refine ⟨herr, htotal, hdone, ?_, fun hnone => ?_⟩
          · rw [List.length_cons]
            omega
          · obtain ⟨hsame, hleft⟩ := hquiet hnone
            refine ⟨hsame.trans hgraph, fun b hb => ?_⟩
            rcases hleft b hb with hb | hb
            · rcases hparked with hparked | ⟨hparked, habsent⟩
              · exact Or.inl (hparked ▸ hb)
              · rw [hparked] at hb
                rcases List.mem_append.mp hb with hb | hb
                · exact Or.inl hb
                · exact Or.inr (List.mem_singleton.mp hb ▸ habsent)
            · refine Or.inr fun hpresent => hb ?_
              unfold Present
              rw [hgraph]
              exact hpresent
        cases outcome with
        | applied =>
            refine (ih hrest (total + 1) habsorbs).mono ?_ fun _ _ => id
            intro r c' hr hevicted
            obtain ⟨herr, htotal, hdone, hcount, -⟩ := hr (hevicted.trans heq)
            rw [happlied rfl] at hcount
            refine ⟨herr, by omega, hdone, ?_, fun hnone => absurd htotal (by omega)⟩
            rw [List.length_cons]
            omega
        | duplicate => exact hidle (by simp)
        | deferred => exact hidle (by simp)

/-- Enough rounds leave nothing that can be taken in. -/
theorem absorbs_rounds (hacceptable : ∀ a ∈ offered, Acceptable store (graph g) a) (fuel total : Nat)
    (hfuel : c.parked.length < fuel) (h : Absorbs g store offered [] c) :
    Wp (pendingRounds fuel total none)
      (fun _ c' => c'.evictedOps = c.evictedOps → Absorbs g store offered [] c' ∧ OpsSettled c')
      (fun _ c' => c'.evictedOps ≠ c.evictedOps) c := by
  induction fuel generalizing c total with
  | zero => exact absurd hfuel (Nat.not_lt_zero _)
  | succ fuel ih =>
      unfold pendingRounds
      rw [wp_bind, wp_get, wp_bind, wp_set]
      have hstart : Absorbs g store offered c.parked { c with parked := [] } :=
        { h with
          tracked := ⟨h.tracked.known, h.tracked.signer⟩
          parked := fun a ha => absurd ha List.not_mem_nil
          kept := fun a ha => (h.kept a ha).imp_right fun hb =>
            Or.inr (hb.elim id fun hb => absurd hb List.not_mem_nil) }
      refine ((absorbs_round hacceptable h.parked total none hstart).and
        (pendingRound_evicted c.parked total none { c with parked := [] })).seq ?_
        fun _ _ h => h.1.elim
      rintro ⟨total', firstError⟩ c₁ ⟨hround, hle⟩
      rcases hle.lt_or_eq with hlt | heq
      · have hmore := fun c' : CgkaController => fun hge : c₁.evictedOps ≤ c'.evictedOps =>
          (hlt.trans_le hge).ne'
        dsimp only
        split_ifs
        · cases firstError with
          | none => exact fun heq => absurd heq (hmore c₁ le_rfl)
          | some err => exact hmore c₁ le_rfl
        · refine (pendingRounds_evicted fuel total' firstError c₁).mono ?_ ?_
          · exact fun _ c' hge heq => absurd heq (hmore c' hge)
          · exact fun _ c' hge => hmore c' hge
      · obtain ⟨hnone, htotal, habsorbs, hcount, hquiet⟩ := hround heq.symm
        change firstError = none at hnone
        subst hnone
        change c₁.parked.length + total' ≤ 0 + c.parked.length + total at hcount
        dsimp only
        split_ifs with hsame
        · intro _
          obtain ⟨hgraph, hleft⟩ := hquiet hsame
          refine ⟨habsorbs, fun a ha hpresent => ?_⟩
          rcases hleft a ha with ha | ha
          · exact absurd ha List.not_mem_nil
          · apply ha
            unfold Present
            rw [← hgraph]
            exact hpresent
        · have hprogress : total < total' := lt_of_le_of_ne htotal (Ne.symm hsame)
          refine (ih total' (by omega) habsorbs).mono ?_ ?_
          · exact fun _ c' h hevicted => h (hevicted.trans heq)
          · exact fun _ c' h hevicted => h (hevicted.trans heq)

/-- Draining the queue settles it. -/
theorem absorbs_mergePending (hacceptable : ∀ a ∈ offered, Acceptable store (graph g) a)
    (h : Absorbs g store offered [] c) :
    Wp mergePending
      (fun _ c' => c'.evictedOps = c.evictedOps → Absorbs g store offered [] c' ∧ OpsSettled c')
      (fun _ c' => c'.evictedOps ≠ c.evictedOps) c := by
  unfold mergePending
  rw [wp_bind, wp_get]
  exact absorbs_rounds hacceptable _ 0 (Nat.lt_succ_self _) h

/-- Offering one more operation, unless that evicts one. -/
theorem absorbs_merge (hacceptable : ∀ b ∈ insert a offered, Acceptable store (graph g) b)
    (h : Absorbs g store offered [] c) :
    Wp (merge a)
      (fun outcome c' => c'.evictedOps = c.evictedOps →
        Absorbs g store (insert a offered) [] c' ∧
        (outcome ≠ .applied → graph c'.cgka = graph c.cgka ∧ (OpsSettled c → OpsSettled c')))
      (fun _ _ => False) c := by
  have ha : a ∈ insert a offered := Set.mem_insert a offered
  have hoffer : Absorbs g store (insert a offered) [a] c :=
    { h with
      least := fun ops hbase hclosed => h.least ops hbase fun b hb =>
        hclosed b (Set.mem_insert_of_mem a hb)
      parked := fun b hb => Set.mem_insert_of_mem a (h.parked b hb)
      kept := fun b hb => by
        rcases Set.mem_insert_iff.mp hb with rfl | hb
        · exact Or.inr (Or.inr List.mem_cons_self)
        · rcases h.kept b hb with hb | hb | hb
          · exact Or.inl hb
          · exact Or.inr (Or.inl hb)
          · exact absurd hb List.not_mem_nil }
  have hsame : { c with certs := (c.certs.extend a.proof).2 } = c := by
    have hproof := (hacceptable a ha).proof
    rw [← h.certs] at hproof
    rw [hproof]
  unfold merge
  rw [if_neg (not_not.mpr (hacceptable a ha).verifies), wp_bind, wp_modify, hsame]
  refine (absorbs_retry hacceptable ha hoffer).mono ?_ fun _ _ => id
  intro outcome c' hstep hevicted
  obtain ⟨habsorbs, -, hwaits⟩ := hstep hevicted
  refine ⟨habsorbs, fun hnot => ?_⟩
  obtain ⟨hgraph, hparked⟩ := hwaits hnot
  refine ⟨hgraph, fun hsettled b hb hpresent => ?_⟩
  have hbefore : Present c.cgka b.op := by
    unfold Present
    rw [← hgraph]
    exact hpresent
  rcases hparked with hparked | ⟨hparked, habsent⟩
  · exact hsettled b (hparked ▸ hb) hbefore
  · rw [hparked] at hb
    rcases List.mem_append.mp hb with hb | hb
    · exact hsettled b hb hbefore
    · exact habsent (List.mem_singleton.mp hb ▸ hbefore)

theorem merge_evicted (a : AuthorizedOp) : Raises CgkaController.evictedOps (merge a) := by
  intro c
  unfold merge
  split_ifs
  · rw [wp_bind, wp_modify]
    exact mergeVerified_evicted a { c with certs := (c.certs.extend a.proof).2 }
  · exact le_rfl

end CgkaController

/-! ## ChunkReading chunks -/

/-- What can be made of a chunk once the operation that keyed it is held. -/
inductive ChunkReading where
  | unreachable
  | corrupt
  | plaintext (content : Bytes)

omit [Keyhive] in
/-- What a node makes of a chunk whose key it derives in this way. -/
def reading (key : Chunk OpHash → Option Bytes32) (chunk : Chunk OpHash) : ChunkReading :=
  match key chunk with
  | none => .unreachable
  | some k =>
      match Beekem.tryDecrypt chunk k with
      | none => .corrupt
      | some content => .plaintext content

omit [Keyhive] in
/-- The operation that keyed a chunk is among these. -/
def Established (ops : Set ControlOp) (chunk : Chunk OpHash) : Prop :=
  ∃ p ∈ ops, opHash p = chunk.pcsUpdateOpHash

omit [Keyhive] in
/-- Once the operation that keyed a chunk is held, its key is derived or not, and which does
not change as the tree takes in more; before that it is not. -/
structure Keyed (g : Cgka) (key : Chunk OpHash → Option Bytes32) : Prop where
  held : ∀ g', Descends g g' → ∀ chunk, Established (graph g') chunk →
    ∀ k, (∃ g'', Beekem.decryptionKeyFor chunk g' = .ok k g'') ↔ key chunk = some k
  absent : ∀ g', Descends g g' → ∀ chunk, ¬ Established (graph g') chunk →
    ∀ k g'', Beekem.decryptionKeyFor chunk g' ≠ .ok k g''

namespace CgkaController

/-- What decrypting finds out about a chunk. -/
def Reveals (key : Chunk OpHash → Option Bytes32) (ops : Set ControlOp) (chunk : Chunk OpHash) :
    DecryptOutcome → Prop
  | .awaitingOp => ¬ Established ops chunk
  | .unreachable => Established ops chunk ∧ reading key chunk = .unreachable
  | .plaintext content => Established ops chunk ∧ reading key chunk = .plaintext content

/-- Decrypting tells what the key says, and changes nothing but derived keys. -/
theorem decrypt_reveals [LawfulBeekem] {key : Chunk OpHash → Option Bytes32}
    (hkeys : Keyed g key) (hdescends : Descends g c.cgka) (chunk : Chunk OpHash) :
    Wp (decrypt chunk)
      (fun outcome c' => (∃ g', c' = { c with cgka := g' } ∧ Descends g g' ∧
          graph g' = graph c.cgka) ∧ Reveals key (graph c.cgka) chunk outcome)
      (fun _ c' => (∃ g', c' = { c with cgka := g' } ∧ Descends g g' ∧ graph g' = graph c.cgka) ∧
        Established (graph c.cgka) chunk ∧ reading key chunk = .corrupt) c := by
  have hspec := LawfulBeekem.decryptionKeyFor_spec chunk c.cgka
  unfold decrypt
  rw [wp_bind, wp_attempt, onTree, wp_zoom]
  refine wp_of_run (fun k g' hrun => ?_) fun err g' hrun => ?_
  · have hgraph : graph g' = graph c.cgka := by
      ext op
      rw [(hspec.of_ok hrun).mem_graph]
      simp
    have hnext : Descends g g' := by
      have hstep := hdescends.derive chunk
      unfold Library.after at hstep
      rw [hrun] at hstep
      exact hstep
    have hest : Established (graph c.cgka) chunk := by
      by_contra hnot
      exact hkeys.absent c.cgka hdescends chunk hnot k g' hrun
    have hkey := (hkeys.held c.cgka hdescends chunk hest k).mp ⟨g', hrun⟩
    have hreading : reading key chunk =
        match Beekem.tryDecrypt chunk k with
        | none => .corrupt
        | some content => .plaintext content := by
      unfold reading
      rw [hkey]
    dsimp only
    cases hcipher : Beekem.tryDecrypt chunk k with
    | none =>
        rw [hcipher] at hreading
        exact ⟨⟨g', rfl, hnext, hgraph⟩, hest, hreading⟩
    | some content =>
        rw [hcipher] at hreading
        exact ⟨⟨g', rfl, hnext, hgraph⟩, hest, hreading⟩
  · have hgraph : graph g' = graph c.cgka := by
      ext op
      rw [(hspec.of_error hrun).mem_graph]
      simp
    have hnext : Descends g g' := by
      have hstep := hdescends.derive chunk
      unfold Library.after at hstep
      rw [hrun] at hstep
      exact hstep
    have hcontains : Beekem.containsPredecessors g' [chunk.pcsUpdateOpHash] = true ↔
        Established (graph c.cgka) chunk := by
      rw [LawfulBeekem.containsPredecessors_iff, hgraph]
      simp [Established]
    dsimp only
    rw [wp_bind, wp_get]
    dsimp only
    split_ifs with hest
    · have hest' := hcontains.mp hest
      refine ⟨⟨g', rfl, hnext, hgraph⟩, hest', ?_⟩
      unfold reading
      cases hkey : key chunk with
      | none => rfl
      | some k =>
          obtain ⟨g'', hok⟩ := (hkeys.held c.cgka hdescends chunk hest' k).mpr hkey
          exact absurd (hrun.symm.trans hok) (by simp)
    · exact ⟨⟨g', rfl, hnext, hgraph⟩, fun h => hest (hcontains.mpr h)⟩

end CgkaController

end IrohBeekem
