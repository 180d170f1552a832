import IrohBeekem.Keys.Fates

/-!
# Delivering an operation again

Whole logs are exchanged again and again, so an operation arrives more often
than once.  The doc of `ControlMsg::Log` says that merging is idempotent and a
repeated exchange harmless.  `redelivered_unchanged_iff` says when it is: unless
the operation is turned away at its signature, its predecessors must have been
in the graph at the first delivery.  Otherwise every delivery parks a further
copy, and in a full queue each copy pushes an older operation out.
-/

set_option linter.unusedSectionVars false

namespace IrohBeekem

open Library

variable [Keyhive]

/-- Offering a bundle again changes nothing. -/
theorem CapabilityStore.extend_extend (s : CapabilityStore) (bundle : List Certificate) :
    ((s.extend bundle).2.extend bundle).2 = (s.extend bundle).2 := by
  refine ext_certs (extend_founder _ _) ?_
  rw [extend_certs, extend_certs]
  have hstaged := Certificates.mem_stageAll (s.certs.stageAll bundle).2 bundle
  refine Certificates.ext_mem fun x => ⟨fun hx => ?_, hstaged.1 x⟩
  rcases hstaged.2 x hx with hx | ⟨hmem, hverify⟩
  · exact hx
  · -- its digest was taken the first time, by itself
    obtain ⟨y, hy, hkind, hdigest⟩ := Certificates.stageAll_taken s.certs hmem hverify
    exact Certificates.eq_of_digest_eq (hstaged.1 y hy) hx hkind hdigest ▸ hy

variable [Beekem]

namespace CgkaController

variable {c : CgkaController} {a : AuthorizedOp}

/-- The same graph, members, certificates and queue. -/
structure Unchanged (c c' : CgkaController) : Prop where
  graph : graph c'.cgka = graph c.cgka
  knownMembers : c'.knownMembers = c.knownMembers
  currentMembers : c'.currentMembers = c.currentMembers
  certs : c'.certs = c.certs
  parked : c'.parked = c.parked
  evictedOps : c'.evictedOps = c.evictedOps

/-- The controller after an operation has been delivered so many times. -/
def delivered (a : AuthorizedOp) (n : Nat) (c : CgkaController) : CgkaController :=
  (after (merge a))^[n] c

/-- The tree after an operation has been offered to it so many times. -/
def offeredTimes (op : ControlOp) (n : Nat) (g : Cgka) : Cgka :=
  (after (Beekem.mergeConcurrentOperation op))^[n] g

theorem delivered_succ (n : Nat) : delivered a (n + 1) c = after (merge a) (delivered a n c) :=
  Function.iterate_succ_apply' _ _ _

theorem offeredTimes_succ {op : ControlOp} {g : Cgka} (n : Nat) :
    offeredTimes op (n + 1) g = after (Beekem.mergeConcurrentOperation op) (offeredTimes op n g) :=
  Function.iterate_succ_apply' _ _ _

/-- A delivery repeats harmlessly when the operation is turned away at its
signature, or has its predecessors in the graph; where it gets as far as the
tree, the tree takes it in at once or not at all. -/
def Repeatable (c : CgkaController) (a : AuthorizedOp) : Prop :=
  verifyOp a.op = true →
    Beekem.containsPredecessors c.cgka a.op.payload.predecessors = true ∧
      (Admitted (absorbed c a) a.op → ∀ n, a.op ∈ graph (offeredTimes a.op n c.cgka) →
        a.op ∈ graph (offeredTimes a.op 1 c.cgka))

theorem absorbed_absorbed (c : CgkaController) (a : AuthorizedOp) :
    absorbed (absorbed c a) a = absorbed c a := by
  unfold absorbed
  rw [CapabilityStore.extend_extend]

/-! ## What a delivery leaves -/

theorem after_merge_unverified (h : ¬ verifyOp a.op = true) : after (merge a) c = c := by
  unfold after
  rw [merge_unverified h]

theorem after_merge_waits (hverify : verifyOp a.op = true)
    (hpreds : Beekem.containsPredecessors c.cgka a.op.payload.predecessors = false) :
    after (merge a) c = (absorbed c a).park a := by
  unfold after
  rw [merge_verified hverify, mergeVerified_waits (c := absorbed c a) hpreds]

theorem after_merge_refused (hverify : verifyOp a.op = true)
    (hpreds : Beekem.containsPredecessors c.cgka a.op.payload.predecessors = true)
    (h : ¬ Admitted (absorbed c a) a.op) : after (merge a) c = absorbed c a := by
  obtain ⟨err, hrun, -⟩ := mergeVerified_refused (c := absorbed c a) hpreds h
  unfold after
  rw [merge_verified hverify, hrun]

/-- An operation that gets as far as the tree leaves what the tree does with it,
and the membership it stands for once it is applied. -/
theorem after_merge_admitted (hverify : verifyOp a.op = true)
    (h : Admitted (absorbed c a) a.op) :
    after (merge a) c = { absorbed c a with cgka := offeredTimes a.op 1 c.cgka } ∨
      (∃ g, Beekem.mergeConcurrentOperation a.op c.cgka = .ok true g) ∧
        after (merge a) c =
          recordMembership a.op.payload
            { absorbed c a with cgka := offeredTimes a.op 1 c.cgka } := by
  have hrun := mergeVerified_admitted h
  have htree : (absorbed c a).cgka = c.cgka := rfl
  rw [htree] at hrun
  unfold after offeredTimes
  rw [merge_verified hverify, Function.iterate_one]
  unfold after
  cases hmerge : Beekem.mergeConcurrentOperation a.op c.cgka with
  | ok applied g =>
      rw [hmerge] at hrun
      cases applied with
      | true => exact Or.inr ⟨⟨g, rfl⟩, by rw [hrun]⟩
      | false => exact Or.inl (by rw [hrun])
  | error err g =>
      rw [hmerge] at hrun
      cases err <;> exact Or.inl (by rw [hrun])

/-! ## Delivering again -/

theorem Unchanged.refl (c : CgkaController) : Unchanged c c := ⟨rfl, rfl, rfl, rfl, rfl, rfl⟩

theorem Unchanged.trans {c c' c'' : CgkaController} (h : Unchanged c c') (h' : Unchanged c' c'') :
    Unchanged c c'' :=
  ⟨h'.graph.trans h.graph, h'.knownMembers.trans h.knownMembers,
    h'.currentMembers.trans h.currentMembers, h'.certs.trans h.certs, h'.parked.trans h.parked,
    h'.evictedOps.trans h.evictedOps⟩

theorem recordMembership_known (op : CgkaOperation OpHash) (c : CgkaController) :
    c.knownMembers ⊆ (recordMembership op c).knownMembers := by
  cases op with
  | add doc added pk preds detail => exact Finset.subset_insert _ _
  | remove doc removed preds detail => exact Finset.Subset.refl _
  | update doc preds detail => exact Finset.Subset.refl _

variable [LawfulBeekem]

/-- An operation offered to the tree is taken in, if it was not there, or
nothing is. -/
theorem offered_grows (op : ControlOp) (g : Cgka) :
    (op ∉ graph g ∧ Grows g (after (Beekem.mergeConcurrentOperation op) g) [op]) ∨
      (∀ g', Beekem.mergeConcurrentOperation op g ≠ .ok true g') ∧
        Grows g (after (Beekem.mergeConcurrentOperation op) g) [] := by
  have hspec := LawfulBeekem.mergeConcurrentOperation_spec op g
  unfold Wp at hspec
  unfold after
  cases hrun : Beekem.mergeConcurrentOperation op g with
  | ok applied g' =>
      rw [hrun] at hspec
      cases applied with
      | true => exact Or.inl (by simpa using hspec)
      | false => exact Or.inr ⟨by simp, by simpa using hspec.2⟩
  | error err g' =>
      rw [hrun] at hspec
      exact Or.inr ⟨by simp, hspec⟩

theorem graph_after_mono (op : ControlOp) (g : Cgka) :
    graph g ⊆ graph (after (Beekem.mergeConcurrentOperation op) g) := by
  intro x hx
  rcases offered_grows op g with ⟨-, hgrows⟩ | ⟨-, hgrows⟩
  · exact (hgrows.mem_graph x).mpr (Or.inl hx)
  · exact (hgrows.mem_graph x).mpr (Or.inl hx)

/-- What the tree took in of an operation at some time it keeps. -/
theorem graph_offeredTimes_mono (op : ControlOp) (g : Cgka) (n : Nat) :
    graph (offeredTimes op 1 g) ⊆ graph (offeredTimes op (n + 1) g) := by
  induction n with
  | zero => exact Set.Subset.refl _
  | succ n ih =>
      rw [offeredTimes_succ (n + 1)]
      exact ih.trans (graph_after_mono op _)

/-- An operation that gets as far as the tree once does so at every delivery. -/
theorem Admitted.again (hverify : verifyOp a.op = true) (h : Admitted (absorbed c a) a.op) :
    Admitted (absorbed (after (merge a) c) a) a.op ∧
      (after (merge a) c).cgka = after (Beekem.mergeConcurrentOperation a.op) c.cgka ∧
      (after (merge a) c).certs = (absorbed c a).certs := by
  have hgraph := graph_after_mono a.op c.cgka
  have hpreds : Beekem.containsPredecessors (after (Beekem.mergeConcurrentOperation a.op) c.cgka)
      a.op.payload.predecessors = true := by
    have hheld := (LawfulBeekem.containsPredecessors_iff _ _).mp h.predecessors
    exact (LawfulBeekem.containsPredecessors_iff _ _).mpr fun hash hmem =>
      (hheld hash hmem).imp fun _ hp => ⟨hgraph hp.1, hp.2⟩
  have hcerts : ((absorbed c a).certs.extend a.proof).2 = (absorbed c a).certs :=
    c.certs.extend_extend a.proof
  rcases after_merge_admitted hverify h with hafter | ⟨-, hafter⟩
  · rw [hafter]
    refine ⟨⟨hpreds, h.known, ?_⟩, rfl, rfl⟩
    change authorize ((absorbed c a).certs.extend a.proof).2 _ _ = _
    rw [hcerts]
    exact h.authorized
  · obtain ⟨hcgka, -, -, hsame⟩ := recordMembership_frame a.op.payload
      { absorbed c a with cgka := offeredTimes a.op 1 c.cgka }
    rw [hafter]
    refine ⟨⟨?_, recordMembership_known _ _ h.known, ?_⟩, hcgka, hsame⟩
    · change Beekem.containsPredecessors (recordMembership a.op.payload _).cgka _ = true
      rw [hcgka]
      exact hpreds
    · change authorize ((recordMembership a.op.payload _).certs.extend a.proof).2 _ _ = _
      rw [hsame]
      change authorize ((absorbed c a).certs.extend a.proof).2 _ _ = _
      rw [hcerts]
      exact h.authorized

/-- The tree sees every delivery of an operation that gets as far as it. -/
theorem delivered_admitted (hverify : verifyOp a.op = true) (h : Admitted (absorbed c a) a.op)
    (n : Nat) :
    Admitted (absorbed (delivered a n c) a) a.op ∧
      (delivered a n c).cgka = offeredTimes a.op n c.cgka ∧
      (delivered a (n + 1) c).certs = (absorbed c a).certs := by
  have hfirst := (h.again hverify).2.2
  induction n with
  | zero => exact ⟨h, rfl, hfirst⟩
  | succ n ih =>
      obtain ⟨hadmitted, hcgka, hcerts⟩ := ih
      obtain ⟨hagain, htree, -⟩ := hadmitted.again hverify
      rw [← delivered_succ] at hagain htree
      refine ⟨hagain, by rw [htree, hcgka, offeredTimes_succ], ?_⟩
      rw [delivered_succ, (hagain.again hverify).2.2]
      change ((delivered a (n + 1) c).certs.extend a.proof).2 = _
      rw [hcerts]
      exact c.certs.extend_extend a.proof

/-- A further delivery of an operation that got as far as the tree changes
nothing, if the tree does not take it in any more. -/
private theorem Admitted.unchanged (hverify : verifyOp a.op = true)
    (h : Admitted (absorbed c a) a.op) (hcerts : c.certs = (absorbed c a).certs)
    (hheld : a.op ∈ graph (after (Beekem.mergeConcurrentOperation a.op) c.cgka) →
      a.op ∈ graph c.cgka) : Unchanged c (after (merge a) c) := by
  rcases offered_grows a.op c.cgka with ⟨hnew, hgrows⟩ | ⟨hidle, hgrows⟩
  · exact absurd (hheld ((hgrows.mem_graph _).mpr (Or.inr List.mem_cons_self))) hnew
  · rcases after_merge_admitted hverify h with hafter | ⟨⟨g, hmerge⟩, -⟩
    · rw [hafter]
      exact ⟨Set.ext fun x => (hgrows.mem_graph x).trans (by simp), rfl, rfl, hcerts.symm, rfl, rfl⟩
    · exact absurd hmerge (hidle g)

private theorem unchanged_of_fixed (h : after (merge a) c = c) (n : Nat) :
    Unchanged c (delivered a n c) := by
  have hall : delivered a n c = c := Function.iterate_fixed h n
  rw [hall]
  exact .refl c

/-- Of an operation that repeats harmlessly, the deliveries after the first
change nothing. -/
theorem Repeatable.unchanged (h : Repeatable c a) (n : Nat) :
    Unchanged (after (merge a) c) (delivered a n (after (merge a) c)) := by
  by_cases hverify : verifyOp a.op = true
  · obtain ⟨hpreds, hsteady⟩ := h hverify
    by_cases hadmitted : Admitted (absorbed c a) a.op
    · have hshift : ∀ k, delivered a k (after (merge a) c) = delivered a (k + 1) c := fun k =>
        (Function.iterate_succ_apply _ _ _).symm
      induction n with
      | zero => exact .refl _
      | succ n ih =>
          refine ih.trans ?_
          rw [hshift, hshift, delivered_succ (n + 1)]
          obtain ⟨hagain, hcgka, -⟩ := delivered_admitted hverify hadmitted (n + 1)
          obtain ⟨-, -, hcerts⟩ := delivered_admitted hverify hadmitted n
          refine hagain.unchanged hverify ?_ fun hop => ?_
          · change _ = ((delivered a (n + 1) c).certs.extend a.proof).2
            rw [hcerts]
            exact (c.certs.extend_extend a.proof).symm
          · -- whatever the tree holds of the operation it held after the first delivery
            rw [hcgka, ← offeredTimes_succ] at hop
            rw [hcgka]
            exact graph_offeredTimes_mono a.op c.cgka n (hsteady hadmitted _ hop)
    · refine unchanged_of_fixed ?_ n
      have habsorbed := after_merge_refused hverify hpreds hadmitted
      rw [habsorbed, after_merge_refused (c := absorbed c a) hverify hpreds
        (by rwa [absorbed_absorbed]), absorbed_absorbed]
  · refine unchanged_of_fixed ?_ n
    rw [after_merge_unverified hverify, after_merge_unverified hverify]

/-- Deliveries after the first that change nothing repeat harmlessly. -/
theorem Repeatable.of_unchanged
    (h : ∀ n, Unchanged (after (merge a) c) (delivered a n (after (merge a) c))) :
    Repeatable c a := by
  intro hverify
  have hpreds : Beekem.containsPredecessors c.cgka a.op.payload.predecessors = true := by
    by_contra hmissing
    have hmissing := Bool.not_eq_true _ ▸ hmissing
    have hfirst := after_merge_waits hverify hmissing
    have hsecond : after (merge a) (after (merge a) c) =
        (absorbed (after (merge a) c) a).park a := by
      refine after_merge_waits hverify ?_
      rw [hfirst, (park_frame a (absorbed c a)).1]
      exact hmissing
    have hagain : Unchanged (after (merge a) c) (after (merge a) (after (merge a) c)) := h 1
    -- the second copy makes the queue longer, or pushes another operation out
    obtain ⟨⟨evicted, hparked, hevicted⟩, -, -⟩ := park_accounts a (absorbed (after (merge a) c) a)
    have hlength := congrArg Multiset.card hparked
    rw [← hsecond] at hlength hevicted
    rw [hagain.parked] at hlength
    rw [hagain.evictedOps] at hevicted
    have hcount : (after (merge a) c).evictedOps = (after (merge a) c).evictedOps + evicted.card :=
      hevicted
    have hqueue : (after (merge a) c).parked.length + 1 =
        evicted.card + (after (merge a) c).parked.length := by
      simpa [absorbed] using hlength
    omega
  refine ⟨hpreds, fun hadmitted n hop => ?_⟩
  cases n with
  | zero => exact graph_after_mono a.op c.cgka hop
  | succ n =>
      have hsame := (h n).graph
      have hshift : delivered a n (after (merge a) c) = delivered a (n + 1) c :=
        (Function.iterate_succ_apply _ _ _).symm
      rw [hshift, (delivered_admitted hverify hadmitted (n + 1)).2.1,
        (hadmitted.again hverify).2.1] at hsame
      exact hsame ▸ hop

/-- Deliveries of an operation after the first change nothing exactly when it
repeats harmlessly. -/
theorem redelivered_unchanged_iff (c : CgkaController) (a : AuthorizedOp) :
    (∀ n, Unchanged (after (merge a) c) (delivered a n (after (merge a) c))) ↔ Repeatable c a :=
  ⟨.of_unchanged, fun h => h.unchanged⟩

end CgkaController

end IrohBeekem

/-! ## An operation ahead of what it follows -/

namespace IrohBeekem

open Library CgkaController

section Samples

local instance redeliveredKeyhive : Keyhive := transparentKeyhive

local instance redeliveredBeekem : Beekem := listBeekem

local instance redeliveredLawful : LawfulBeekem := listBeekem_live.toLawfulBeekem

/-- An operation of device `2` that follows one the founder does not have yet. -/
def earlyUpdate : AuthorizedOp := .bare ⟨.update 7 [OpId.of sampleAdd] 0, 2, (2, 0)⟩

/-- Its second delivery parks a second copy. -/
theorem earlyUpdate_copies :
    (after (merge earlyUpdate) sampleAdmitting).parked.length = 1 ∧
      (delivered earlyUpdate 1 (after (merge earlyUpdate) sampleAdmitting)).parked.length = 2 ∧
      ¬ ∀ n, Unchanged (after (merge earlyUpdate) sampleAdmitting)
        (delivered earlyUpdate n (after (merge earlyUpdate) sampleAdmitting)) := by
  have hcopies : (after (merge earlyUpdate) sampleAdmitting).parked.length = 1 ∧
      (delivered earlyUpdate 1 (after (merge earlyUpdate) sampleAdmitting)).parked.length = 2 := by
    decide +kernel
  refine ⟨hcopies.1, hcopies.2, fun h => ?_⟩
  have hsame := congrArg List.length (h 1).parked
  omega

/-- The operation that admits device `3`, with its certificates. -/
def sampleDelivery : AuthorizedOp := ⟨sampleAdd, sampleDelegate.certs.certificates⟩

/-- Delivered again, the operation that admitted device `3` changes nothing. -/
theorem redelivered_unchanged_sampleDelivery :
    Beekem.containsPredecessors sampleAdmitting.cgka sampleDelivery.op.payload.predecessors = true ∧
      ∀ n, Unchanged (after (merge sampleDelivery) sampleAdmitting)
        (delivered sampleDelivery n (after (merge sampleDelivery) sampleAdmitting)) := by
  have hpreds : Beekem.containsPredecessors sampleAdmitting.cgka
      sampleDelivery.op.payload.predecessors = true := by decide +kernel
  have htaken : sampleDelivery.op ∈ graph (offeredTimes sampleDelivery.op 1 sampleAdmitting.cgka) := by
    change sampleDelivery.op ∈ (offeredTimes sampleDelivery.op 1 sampleAdmitting.cgka : ListCgka).log
    decide +kernel
  exact ⟨hpreds, (redelivered_unchanged_iff sampleAdmitting sampleDelivery).mpr
    fun _ => ⟨hpreds, fun _ _ _ => htaken⟩⟩

end Samples

end IrohBeekem
