import IrohBeekem.Keys.Fates
import IrohBeekem.Library.Keeps
import IrohBeekem.Library.Mirror

/-!
# Operations in company

Whether the controller takes an operation in depends on the certificates, on who was ever a
member, and on the tree.  It does not depend on the operations that are offered or wait
beside it and are not taken in, as long as none of them pushes it out of the queue.

To say so, a controller is put beside one that has the same queue without the operations
called `junk` (`Beside`), and the two are offered the same operations, the second one
without the junk.  What the tree answers is taken to depend on a view of it that a failed
operation leaves as it is (`Governs`).  Then the two stay beside each other, through an
offer (`mergeVerified_mirrors`, `Beside.skip`), a round (`pendingRound_beside`) and the
loop of `merge_pending` (`mergePending_beside`), as long as no junk is taken in.
-/

set_option linter.unusedSectionVars false

namespace IrohBeekem

open Library

variable [Keyhive] [Beekem]

/-- What the tree answers depends on this view of it: the graph can be read off it, two trees
that look the same answer alike and look the same afterwards, and neither a failed
operation nor a decryption shows. -/
structure Governs {V : Type} (view : Cgka → V) : Prop where
  graph : ∀ {g g' : Cgka}, view g' = view g → graph g' = graph g
  merge_failed : ∀ {op : ControlOp} {g g' : Cgka} {err : CgkaError},
    Beekem.mergeConcurrentOperation op g = .error err g' → view g' = view g
  decryptionKeyFor : ∀ chunk, Keeps view (Beekem.decryptionKeyFor chunk)
  merge : ∀ (op : ControlOp) {g g' : Cgka}, view g' = view g →
    Mirrors (fun g g' => view g' = view g) (Beekem.mergeConcurrentOperation op) g
      (Beekem.mergeConcurrentOperation op) g'
  remove : ∀ (member signer : Bytes32) {g g' : Cgka}, view g' = view g →
    Mirrors (fun g g' => view g' = view g) (Beekem.remove member signer) g
      (Beekem.remove member signer) g'

namespace CgkaController

/-- The queue has a place for the operation, or does not need one. -/
def RoomFor (op : ControlOp) (c : CgkaController) : Prop :=
  Beekem.containsPredecessors c.cgka op.payload.predecessors = true ∨
    c.parked.length < maxParkedOps

/-- The queue of the first controller is within its bound, and the second controller is the
first without the junk in its queue. -/
structure Beside {V : Type} (view : Cgka → V) (junk : ControlOp → Bool) (c d : CgkaController) :
    Prop where
  view : view d.cgka = view c.cgka
  signer : d.signer = c.signer
  certs : d.certs = c.certs
  known : d.knownMembers = c.knownMembers
  parked : d.parked = c.parked.filter fun a => ! junk a.op
  bounded : c.parked.length ≤ maxParkedOps

variable {V : Type} {view : Cgka → V} {junk : ControlOp → Bool}
variable {c d c' d' : CgkaController} {a : AuthorizedOp}

namespace Beside

theorem length_le (h : Beside view junk c d) : d.parked.length ≤ c.parked.length := by
  rw [h.parked]
  exact List.length_filter_le _ _

/-- What differs in nothing that is compared may be put in place of either. -/
theorem left (h : Beside view junk c d) (hview : view c'.cgka = view c.cgka)
    (hsigner : c'.signer = c.signer) (hcerts : c'.certs = c.certs)
    (hknown : c'.knownMembers = c.knownMembers) (hparked : c'.parked = c.parked) :
    Beside view junk c' d where
  view := h.view.trans hview.symm
  signer := h.signer.trans hsigner.symm
  certs := h.certs.trans hcerts.symm
  known := h.known.trans hknown.symm
  parked := by rw [h.parked, hparked]
  bounded := hparked ▸ h.bounded

/-- The two trees change and still look the same. -/
theorem tree (h : Beside view junk c d) {g g' : Cgka} (hview : view g' = view g) :
    Beside view junk { c with cgka := g } { d with cgka := g' } where
  view := hview
  signer := h.signer
  certs := h.certs
  known := h.known
  parked := h.parked
  bounded := h.bounded

theorem recordMembership (h : Beside view junk c d) (op : CgkaOperation OpHash) :
    Beside view junk (recordMembership op c) (CgkaController.recordMembership op d) := by
  obtain ⟨hview, hsigner, hcerts, hknown, hparked, hbounded⟩ := h
  cases op with
  | add doc added pk preds detail =>
      exact ⟨hview, hsigner, hcerts, congrArg (insert added) hknown, hparked, hbounded⟩
  | remove doc removed preds detail => exact ⟨hview, hsigner, hcerts, hknown, hparked, hbounded⟩
  | update doc preds detail => exact ⟨hview, hsigner, hcerts, hknown, hparked, hbounded⟩

end Beside

theorem park_of_room (h : c.parked.length < maxParkedOps) :
    c.park a = { c with parked := c.parked ++ [a] } := by
  unfold park
  rw [if_neg (Nat.not_le.mpr h)]

variable [LawfulBeekem]

namespace Beside

theorem containsPredecessors (hview : Governs view) (h : Beside view junk c d)
    (preds : List OpHash) :
    Beekem.containsPredecessors d.cgka preds = Beekem.containsPredecessors c.cgka preds :=
  containsPredecessors_congr (hview.graph h.view) preds

theorem park (h : Beside view junk c d) (hjunk : junk a.op = false)
    (hroom : c.parked.length < maxParkedOps) : Beside view junk (c.park a) (d.park a) := by
  rw [park_of_room hroom, park_of_room (h.length_le.trans_lt hroom)]
  exact ⟨h.view, h.signer, h.certs, h.known, by simp [h.parked, hjunk], by simpa using hroom⟩

end Beside

/-! ## One offer -/

/-- Both controllers are offered the operation, and do the same with it. -/
theorem mergeVerified_mirrors (hview : Governs view) (h : Beside view junk c d)
    (hjunk : junk a.op = false) (hroom : c.RoomFor a.op) :
    Mirrors (Beside view junk) (mergeVerified a) c (mergeVerified a) d := by
  unfold mergeVerified
  refine .read ?_
  dsimp only
  rw [h.containsPredecessors hview, h.known, h.certs]
  split_ifs with hpreds hknown
  · refine .bind (.verdict _ h) fun _ c₁ d₁ h₁ => ?_
    have htree : Mirrors (Beside view junk) (onTree (Beekem.mergeConcurrentOperation a.op)) c₁
        (onTree (Beekem.mergeConcurrentOperation a.op)) d₁ := by
      unfold onTree
      exact .zoom (hview.merge a.op h₁.view) fun g g' hsame => h₁.tree hsame
    refine .bind (.attempt htree) ?_
    intro _ c₂ d₂ h₂
    split
    · exact .bind ⟨rfl, h₂.recordMembership a.op.payload⟩ fun _ _ _ h' => .pure _ h'
    · exact .pure _ h₂
    · exact .pure _ h₂
    · exact .throw _ h₂
  · exact .throw _ h
  · have hlt : c.parked.length < maxParkedOps := hroom.resolve_left hpreds
    exact .bind (.set (h.park hjunk hlt)) fun _ _ _ h' => .pure _ h'

/-- Only the first one is offered the operation, and does not take it in. -/
theorem Beside.skip (hview : Governs view) (h : Beside view junk c d) (hjunk : junk a.op = true)
    (hroom : c.RoomFor a.op) (hout : a.op ∉ graph (after (mergeVerified a) c).cgka) :
    Beside view junk (after (mergeVerified a) c) d ∧
      answer (mergeVerified a) c ≠ .ok .applied := by
  have htaken := (mergeVerified_offered c a).taken
  unfold after at hout htaken ⊢
  unfold answer
  rcases offer_cases c a with ⟨-, hpreds, hrun⟩ | ⟨-, -, err, hrun, -⟩ |
    ⟨-, g, ⟨hfate, -, -⟩ | ⟨hfate, -, -⟩ | ⟨-, hmerge, hrun⟩ | ⟨err, -, -, hmerge, hrun⟩⟩
  · rw [hrun]
    have hlt : c.parked.length < maxParkedOps :=
      hroom.resolve_left (by rw [hpreds]; exact Bool.false_ne_true)
    dsimp only
    rw [park_of_room hlt]
    exact ⟨⟨h.view, h.signer, h.certs, h.known, by simp [h.parked, hjunk], by simpa using hlt⟩,
      by simp⟩
  · rw [hrun]
    exact ⟨h, by simp⟩
  · exact absurd (htaken hfate) hout
  · exact absurd (htaken hfate) hout
  · rw [hrun]
    exact ⟨h.left (hview.merge_failed hmerge) rfl rfl rfl rfl, by simp⟩
  · rw [hrun]
    exact ⟨h.left (hview.merge_failed hmerge) rfl rfl rfl rfl, by simp⟩

/-! ## One round -/

omit [LawfulBeekem] in
/-- What an offer does to the count and the first failure depends on its answer. -/
theorem tally_eq (total : Nat) (firstError : Option CoreError) :
    tally c a total firstError = match answer (mergeVerified a) c with
      | .ok .applied => (total + 1, firstError)
      | .ok _ => (total, firstError)
      | .error (.unauthorized _) => (total, firstError)
      | .error (.uncertified _) => (total, firstError)
      | .error err => (total, firstError.or (some err)) := by
  unfold tally answer
  cases mergeVerified a c with
  | ok outcome c₁ => cases outcome <;> rfl
  | error err c₁ => cases err <;> rfl

omit [LawfulBeekem] in
theorem tally_of_answer (h : answer (mergeVerified a) d = answer (mergeVerified a) c) (total : Nat)
    {firstError other : Option CoreError} (himp : firstError = none → other = none) :
    (tally d a total other).1 = (tally c a total firstError).1 ∧
      ((tally c a total firstError).2 = none → (tally d a total other).2 = none) := by
  rw [tally_eq, tally_eq, h]
  split
  · exact ⟨rfl, himp⟩
  · exact ⟨rfl, himp⟩
  · exact ⟨rfl, himp⟩
  · exact ⟨rfl, himp⟩
  · exact ⟨rfl, by simp⟩

/-- An offer makes the queue longer by one at most. -/
theorem length_after_mergeVerified (c : CgkaController) (a : AuthorizedOp) :
    (after (mergeVerified a) c).parked.length ≤ c.parked.length + 1 := by
  obtain ⟨evicted, hparked, -⟩ := (mergeVerified_offered c a).conserved
  have hcard := congrArg Multiset.card hparked
  simp only [Multiset.card_add, Multiset.coe_card, Multiset.card_singleton] at hcard
  omega

/-- A round over a queue, and over the queue without the junk. -/
theorem pendingRound_beside (hview : Governs view) (queue : List AuthorizedOp)
    {total total' : Nat} {firstError firstError' other : Option CoreError}
    (hrun : pendingRound queue total firstError c = .ok (total', firstError') c')
    (h : Beside view junk c d) (hroom : c.parked.length + queue.length ≤ maxParkedOps)
    (hout : ∀ op, junk op = true → op ∉ graph c'.cgka) (himp : firstError = none → other = none) :
    ∃ d' other', pendingRound (queue.filter fun a => ! junk a.op) total other d =
        .ok (total', other') d' ∧ Beside view junk c' d' ∧ (firstError' = none → other' = none) := by
  induction queue generalizing c d total firstError other with
  | nil =>
      obtain ⟨⟨rfl, rfl⟩, rfl⟩ : (total = total' ∧ firstError = firstError') ∧ c = c' := by
        simpa using EStateM.Result.ok.inj hrun
      exact ⟨d, other, rfl, h, himp⟩
  | cons a rest ih =>
      rw [pendingRound_cons] at hrun
      rw [List.length_cons] at hroom
      have hlength := length_after_mergeVerified c a
      have hrest : (after (mergeVerified a) c).parked.length + rest.length ≤ maxParkedOps := by omega
      have hplace : c.RoomFor a.op := Or.inr (by omega)
      cases hjunk : junk a.op with
      | false =>
          rw [List.filter_cons_of_pos (by simp [hjunk]), pendingRound_cons]
          obtain ⟨hanswer, hbeside⟩ := mergeVerified_mirrors hview h hjunk hplace
          obtain ⟨htotal, hnone⟩ := tally_of_answer hanswer total himp
          rw [htotal]
          exact ih hrun hbeside hrest hnone
      | true =>
          rw [List.filter_cons_of_neg (by simp [hjunk])]
          obtain ⟨c₁, total₁, error₁, hrun₁, hrounded⟩ :=
            pendingRound_rounded rest (after (mergeVerified a) c) (tally c a total firstError).1
              (tally c a total firstError).2
          obtain ⟨-, rfl⟩ := EStateM.Result.ok.inj (hrun₁.symm.trans hrun)
          have hkept : a.op ∉ graph (after (mergeVerified a) c).cgka := fun hmem =>
            hout a.op hjunk (hrounded.kept _ hmem)
          have htotal : (tally c a total firstError).1 = total := by
            rcases tally_total (c := c) (a := a) total firstError with ⟨hsame, -⟩ | ⟨-, htaken⟩
            · exact hsame
            · exact absurd ((mergeVerified_offered c a).taken htaken) hkept
          rw [htotal] at hrun
          refine ih hrun (h.skip hview hjunk hplace hkept).1 hrest fun hnone => himp ?_
          exact ((tally_error total firstError).mp hnone).1

/-! ## The loop -/

theorem Drains.kept {total total' : Nat} {firstError firstError' : Option CoreError}
    {offers : List Offering} (h : Drains c total firstError offers c' total' firstError') :
    ∀ op ∈ graph c.cgka, op ∈ graph c'.cgka := h.drained.kept

omit [LawfulBeekem] in
/-- The loop ends in one way only. -/
theorem Drains.unique {total t t' : Nat} {firstError e e' : Option CoreError}
    {offers offers' : List Offering} (h : Drains c total firstError offers d t e)
    (h' : Drains c total firstError offers' d' t' e') : d' = d ∧ t' = t ∧ e' = e := by
  induction h generalizing offers' d' t' e' with
  | last hround =>
      cases h' with
      | last hround' =>
          obtain ⟨hanswer, hstate⟩ := EStateM.Result.ok.inj (hround'.symm.trans hround)
          exact ⟨hstate, rfl, (Prod.mk.inj hanswer).2⟩
      | more hround' hchanged _ =>
          obtain ⟨hanswer, -⟩ := EStateM.Result.ok.inj (hround'.symm.trans hround)
          exact absurd (Prod.mk.inj hanswer).1 hchanged
  | more hround hchanged _ ih =>
      cases h' with
      | last hround' =>
          obtain ⟨hanswer, -⟩ := EStateM.Result.ok.inj (hround.symm.trans hround')
          exact absurd (Prod.mk.inj hanswer).1 hchanged
      | more hround' _ hrest' =>
          obtain ⟨hanswer, rfl⟩ := EStateM.Result.ok.inj (hround'.symm.trans hround)
          obtain ⟨rfl, rfl⟩ := Prod.mk.inj hanswer
          exact ih hrest'

/-- The loop over the queue, and over the queue without the junk. -/
theorem Drains.beside (hview : Governs view) {total total' : Nat}
    {firstError firstError' other : Option CoreError} {offers : List Offering}
    (hdrains : Drains c total firstError offers c' total' firstError')
    (h : Beside view junk c d) (hout : ∀ op, junk op = true → op ∉ graph c'.cgka)
    (himp : firstError = none → other = none) :
    ∃ offers' d' other', Drains d total other offers' d' total' other' ∧
      Beside view junk c' d' ∧ (firstError' = none → other' = none) := by
  induction hdrains generalizing d other with
  | @last c c' total firstError firstError' hround =>
      have hemptied : Beside view junk { c with parked := [] } { d with parked := [] } :=
        ⟨h.view, h.signer, h.certs, h.known, rfl, Nat.zero_le _⟩
      obtain ⟨d', other', hrun, hbeside, hnone⟩ :=
        pendingRound_beside hview c.parked hround hemptied (by simpa using h.bounded) hout himp
      rw [← h.parked] at hrun
      exact ⟨_, d', other', .last hrun, hbeside, hnone⟩
  | @more c c₁ c' total total₁ total' firstError error₁ firstError' offers hround hchanged hrest ih =>
      have hemptied : Beside view junk { c with parked := [] } { d with parked := [] } :=
        ⟨h.view, h.signer, h.certs, h.known, rfl, Nat.zero_le _⟩
      have hout₁ : ∀ op, junk op = true → op ∉ graph c₁.cgka := fun op hjunk hmem =>
        hout op hjunk (hrest.kept op hmem)
      obtain ⟨d₁, other₁, hrun, hbeside, hnone⟩ :=
        pendingRound_beside hview c.parked hround hemptied (by simpa using h.bounded) hout₁ himp
      rw [← h.parked] at hrun
      obtain ⟨offers', d', other', hdrains', hbeside', hnone'⟩ := ih hbeside hout hnone
      exact ⟨_, d', other', .more hrun hchanged hdrains', hbeside', hnone'⟩

/-- `merge_pending` on the two controllers. -/
theorem mergePending_beside (hview : Governs view) (h : Beside view junk c d)
    (hout : ∀ op, junk op = true → op ∉ graph (after mergePending c).cgka) :
    Beside view junk (after mergePending c) (after mergePending d) ∧
      (Library.succeeds mergePending c = true → Library.succeeds mergePending d = true) := by
  obtain ⟨offers, c', total, firstError, hdrains, hrun⟩ := mergePending_drains c
  obtain ⟨offers₂, d₂, total₂, error₂, hdrains₂, hrun₂⟩ := mergePending_drains d
  have hafter : after mergePending c = c' := by
    unfold after
    rw [hrun]
    cases firstError <;> rfl
  rw [hafter] at hout ⊢
  have hsilent : (none : Option CoreError) = none → (none : Option CoreError) = none := id
  obtain ⟨offers', d', other', hdrains', hbeside, hnone⟩ :=
    hdrains.beside hview h hout hsilent
  obtain ⟨rfl, rfl, rfl⟩ := hdrains'.unique hdrains₂
  unfold after Library.succeeds
  rw [hrun, hrun₂]
  cases firstError with
  | none => exact ⟨by rw [hnone rfl]; exact hbeside, by rw [hnone rfl]; exact fun _ => rfl⟩
  | some err => exact ⟨by cases error₂ <;> exact hbeside, fun hfalse => absurd hfalse (by simp [drained])⟩

/-- The loop takes nothing out of the graph and leaves the certificates alone. -/
theorem after_mergePending (c : CgkaController) :
    (∀ op ∈ graph c.cgka, op ∈ graph (after mergePending c).cgka) ∧
      (after mergePending c).certs = c.certs := by
  obtain ⟨added, hmerges, -⟩ := Wp.after (P := fun c' => ∃ added, Merges c c' added [] ∧
    ∀ op ∈ added, ∃ a ∈ c.parked, a.op = op) (mergePending_merges c)
  refine ⟨fun op hop => ?_, hmerges.certs⟩
  exact (hmerges.progress.evolves.tree.mem_graph op).mpr (Or.inl hop)

/-! ## An operation of a log -/

/-- What an operation without a proof leaves: if it is taken in, the queue is retried. -/
def heard (op : ControlOp) (c : CgkaController) : CgkaController :=
  match merge (.bare op) c with
  | .ok .applied c' => after mergePending c'
  | .ok _ c' => c'
  | .error _ c' => c'

omit [LawfulBeekem] in
theorem heard_of_answer (op : ControlOp) (c : CgkaController) :
    heard op c = if answer (merge (.bare op)) c = .ok .applied then
      after mergePending (after (merge (.bare op)) c) else after (merge (.bare op)) c := by
  unfold heard answer after
  cases merge (.bare op) c with
  | ok outcome c' => cases outcome <;> simp
  | error err c' => simp

omit [LawfulBeekem] in
/-- An operation that brings no proof leaves the certificates as they are. -/
theorem merge_bare {op : ControlOp} (h : verifyOp op = true) (c : CgkaController) :
    merge (.bare op) c = mergeVerified (.bare op) c :=
  merge_verified h

/-- An offer takes nothing out of the graph and leaves the certificates alone. -/
theorem after_merge_bare (op : ControlOp) (c : CgkaController) :
    (∀ o ∈ graph c.cgka, o ∈ graph (after (merge (.bare op)) c).cgka) ∧
      (after (merge (.bare op)) c).certs = c.certs := by
  by_cases hverify : verifyOp op = true
  · have hcerts : (after (mergeVerified (.bare op)) c).certs = c.certs :=
      Wp.after (P := fun c' => c'.certs = c.certs)
        ((mergeVerified_spec c (.bare op)).mono (fun _ _ h => h.1) fun _ _ h => h.1)
    have hkept := (mergeVerified_offered c (.bare op)).kept
    unfold after at hcerts hkept ⊢
    rw [merge_bare hverify]
    exact ⟨hkept, hcerts⟩
  · unfold after
    rw [merge_unverified hverify]
    exact ⟨fun _ => id, rfl⟩

theorem graph_heard (op : ControlOp) (c : CgkaController) :
    ∀ o ∈ graph c.cgka, o ∈ graph (heard op c).cgka := by
  intro o ho
  have hmerge := (after_merge_bare op c).1 o ho
  rw [heard_of_answer]
  split_ifs
  · exact (after_mergePending _).1 o hmerge
  · exact hmerge

theorem certs_heard (op : ControlOp) (c : CgkaController) : (heard op c).certs = c.certs := by
  rw [heard_of_answer]
  split_ifs
  · exact (after_mergePending _).2.trans (after_merge_bare op c).2
  · exact (after_merge_bare op c).2

/-- Both controllers hear of the operation. -/
theorem Beside.heard (hview : Governs view) (h : Beside view junk c d) {op : ControlOp}
    (hjunk : junk op = false) (hroom : verifyOp op = true → c.RoomFor op)
    (hout : ∀ o, junk o = true → o ∉ graph (heard op c).cgka) :
    Beside view junk (heard op c) (CgkaController.heard op d) := by
  have hmerge : Mirrors (Beside view junk) (merge (.bare op)) c (merge (.bare op)) d := by
    by_cases hverify : verifyOp op = true
    · have hoffer := mergeVerified_mirrors (a := .bare op) hview h hjunk (hroom hverify)
      unfold Mirrors answer after at hoffer ⊢
      rw [merge_bare hverify, merge_bare hverify]
      exact hoffer
    · exact .of_error (merge_unverified hverify) (merge_unverified hverify) h
  obtain ⟨hanswer, hbeside⟩ := hmerge
  rw [heard_of_answer] at hout ⊢
  rw [heard_of_answer, hanswer]
  split_ifs at hout ⊢ with happlied
  · exact (mergePending_beside hview hbeside hout).1
  · exact hbeside

/-- Only the first one hears of the operation, and does not take it in. -/
theorem Beside.heard_skip (hview : Governs view) (h : Beside view junk c d) {op : ControlOp}
    (hjunk : junk op = true) (hroom : verifyOp op = true → c.RoomFor op)
    (hout : op ∉ graph (CgkaController.heard op c).cgka) :
    Beside view junk (CgkaController.heard op c) d := by
  have hkept : op ∉ graph (after (merge (.bare op)) c).cgka := by
    intro hmem
    rw [heard_of_answer] at hout
    split_ifs at hout
    · exact hout ((after_mergePending _).1 op hmem)
    · exact hout hmem
  by_cases hverify : verifyOp op = true
  · have hafter : after (merge (.bare op)) c = after (mergeVerified (.bare op)) c := by
      unfold after
      rw [merge_bare hverify]
    rw [hafter] at hkept
    obtain ⟨hbeside, hanswer⟩ := h.skip (a := .bare op) hview hjunk (hroom hverify) hkept
    rw [heard_of_answer, if_neg, hafter]
    · exact hbeside
    · unfold answer at hanswer ⊢
      rw [merge_bare hverify]
      exact hanswer
  · rw [heard_of_answer]
    unfold answer after
    rw [merge_unverified hverify]
    simpa using h

/-! ## The certificates of a log -/

/-- The controller once it has taken in some certificates. -/
def extended (certs : List Certificate) (c : CgkaController) : CgkaController :=
  { c with certs := (c.certs.extend certs).2 }

/-- What certificates leave: if any of them is new, the queue is retried. -/
def gathered (certs : List Certificate) (c : CgkaController) : CgkaController :=
  if 0 < (c.certs.extend certs).1 then after mergePending (extended certs c) else c

theorem certs_gathered (certs : List Certificate) (c : CgkaController) :
    (gathered certs c).certs = (c.certs.extend certs).2 := by
  unfold gathered
  split_ifs with hnew
  · exact (after_mergePending _).2
  · unfold CapabilityStore.extend at hnew ⊢
    dsimp only at hnew ⊢
    rw [if_neg hnew]

/-- The retry that new certificates bring about does not fail. -/
def Retries (certs : List Certificate) (c : CgkaController) : Prop :=
  0 < (c.certs.extend certs).1 → Library.succeeds mergePending (extended certs c) = true

omit [LawfulBeekem] in
theorem Beside.extended (h : Beside view junk c d) (certs : List Certificate) :
    Beside view junk (extended certs c) (CgkaController.extended certs d) where
  view := h.view
  signer := h.signer
  certs := by
    unfold CgkaController.extended
    rw [h.certs]
  known := h.known
  parked := h.parked
  bounded := h.bounded

/-- Both controllers take in the certificates. -/
theorem Beside.gathered (hview : Governs view) (h : Beside view junk c d)
    {certs : List Certificate}
    (hout : ∀ op, junk op = true → op ∉ graph (gathered certs c).cgka) :
    Beside view junk (gathered certs c) (CgkaController.gathered certs d) ∧
      (Retries certs c → Retries certs d) := by
  unfold Retries
  unfold CgkaController.gathered at hout ⊢
  rw [h.certs]
  split_ifs at hout ⊢ with hnew
  · obtain ⟨hbeside, hsucceeds⟩ := mergePending_beside hview (h.extended certs) hout
    exact ⟨hbeside, fun hretry _ => hsucceeds (hretry hnew)⟩
  · exact ⟨h, fun _ hnew' => absurd hnew' hnew⟩

end CgkaController

end IrohBeekem
