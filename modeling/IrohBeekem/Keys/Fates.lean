import IrohBeekem.Keys.Authorize
import IrohBeekem.Keys.Join

/-!
# What becomes of an offered operation

An operation whose signature holds is offered to the tree by `merge_verified`,
once when it arrives and again in every round of `merge_pending` while it is
parked.  Its `Fate` at one offer is read off the answer: it is in the graph, it
waits in the queue, it was refused, or its failure was reported.  There is a
fifth one.  `MergeOutcome::Deferred` is documented to say that the operation has
been parked, but where the tree itself answers that an operation is out of order
the answer is given and nothing is parked; such an operation is *mislaid*.

`Drains` is the loop of `merge_pending` without a bound, with every offer it
makes.  `parking_conserves_iff` accounts for all of them: the loop ends, it
leaves nothing in the queue that could be merged, the queue keeps its bound, and
every operation is somewhere exactly when none was mislaid.
-/

set_option linter.unusedSectionVars false

namespace IrohBeekem

open Library

variable [Keyhive] [Beekem]

namespace CgkaController

/-! ## The branches of an offer -/

/-- The operation gets as far as the tree: its predecessors are there, and its
issuer was a member and may make the change. -/
structure Admitted (c : CgkaController) (op : ControlOp) : Prop where
  predecessors : Beekem.containsPredecessors c.cgka op.payload.predecessors = true
  known : op.issuer ∈ c.knownMembers
  authorized : authorize c.certs op.payload op.issuer = .ok ()

variable {c : CgkaController} {a : AuthorizedOp}

theorem mergeVerified_waits
    (h : Beekem.containsPredecessors c.cgka a.op.payload.predecessors = false) :
    mergeVerified a c = .ok .deferred (c.park a) := by
  change (if ¬ Beekem.containsPredecessors c.cgka a.op.payload.predecessors = true then _ else _ :
    EStateM CoreError CgkaController MergeOutcome) c = _
  rw [if_pos (by simp [h])]
  rfl

theorem mergeVerified_refused
    (hpreds : Beekem.containsPredecessors c.cgka a.op.payload.predecessors = true)
    (h : ¬ Admitted c a.op) :
    ∃ err, mergeVerified a c = .error err c ∧
      (err = .unauthorized a.op.issuer ∨ err = .uncertified a.op.issuer) := by
  change ∃ err, (if ¬ Beekem.containsPredecessors c.cgka a.op.payload.predecessors = true then _
    else if a.op.issuer ∉ c.knownMembers then _ else _ :
    EStateM CoreError CgkaController MergeOutcome) c = _ ∧ _
  rw [if_neg (not_not.mpr hpreds)]
  split_ifs with hknown
  · cases hauth : authorize c.certs a.op.payload a.op.issuer with
    | ok u => exact absurd ⟨hpreds, hknown, hauth⟩ h
    | error err => exact ⟨err, rfl, Or.inr (authorize_error hauth)⟩
  · exact ⟨_, rfl, Or.inl rfl⟩

theorem mergeVerified_admitted (h : Admitted c a.op) :
    mergeVerified a c = match Beekem.mergeConcurrentOperation a.op c.cgka with
      | .ok true g => .ok .applied (recordMembership a.op.payload { c with cgka := g })
      | .ok false g => .ok .duplicate { c with cgka := g }
      | .error .outOfOrderOperation g => .ok .deferred { c with cgka := g }
      | .error err g => .error (.cgka err) { c with cgka := g } := by
  change (if ¬ Beekem.containsPredecessors c.cgka a.op.payload.predecessors = true then _
    else if a.op.issuer ∉ c.knownMembers then _ else _ :
    EStateM CoreError CgkaController MergeOutcome) c = _
  rw [if_neg (not_not.mpr h.predecessors), if_neg (not_not.mpr h.known), h.authorized]
  simp only [verdict, pure_bind]
  unfold onTree zoom attempt
  change EStateM.bind _ _ c = _
  unfold EStateM.bind
  dsimp only
  cases Beekem.mergeConcurrentOperation a.op c.cgka with
  | ok applied g => cases applied <;> rfl
  | error err g => cases err <;> rfl

/-! ## Fates -/

/-- Where an operation is after one offer. -/
inductive Fate where
  /-- In the graph, now or before. -/
  | taken
  /-- In the queue, for want of a predecessor. -/
  | waits
  /-- Dropped, its issuer being a stranger or not permitted. -/
  | refused
  /-- Dropped, the tree having failed on it. -/
  | failed
  /-- Answered as if it were in the queue, and not put there. -/
  | mislaid
  deriving DecidableEq

/-- The fate of an operation offered at `c`. -/
def fate (c : CgkaController) (a : AuthorizedOp) : Fate :=
  match mergeVerified a c with
  | .ok .applied _ => .taken
  | .ok .duplicate _ => .taken
  | .ok .deferred _ =>
      if Beekem.containsPredecessors c.cgka a.op.payload.predecessors then .mislaid else .waits
  | .error (.unauthorized _) _ => .refused
  | .error (.uncertified _) _ => .refused
  | .error _ _ => .failed

/-- The tree has an operation's predecessors and answers that it is out of
order. -/
def Misjudged (c : CgkaController) (a : AuthorizedOp) : Prop :=
  Admitted c a.op ∧ ∃ g, Beekem.mergeConcurrentOperation a.op c.cgka = .error .outOfOrderOperation g

/-- Everything an offer can do. -/
theorem offer_cases (c : CgkaController) (a : AuthorizedOp) :
    (fate c a = .waits ∧ Beekem.containsPredecessors c.cgka a.op.payload.predecessors = false ∧
      mergeVerified a c = .ok .deferred (c.park a)) ∨
    (fate c a = .refused ∧ ¬ Admitted c a.op ∧ ∃ err, mergeVerified a c = .error err c ∧
      (err = .unauthorized a.op.issuer ∨ err = .uncertified a.op.issuer)) ∨
    Admitted c a.op ∧ ∃ g,
      (fate c a = .taken ∧ Beekem.mergeConcurrentOperation a.op c.cgka = .ok true g ∧
        mergeVerified a c = .ok .applied (recordMembership a.op.payload { c with cgka := g })) ∨
      (fate c a = .taken ∧ Beekem.mergeConcurrentOperation a.op c.cgka = .ok false g ∧
        mergeVerified a c = .ok .duplicate { c with cgka := g }) ∨
      (fate c a = .mislaid ∧
        Beekem.mergeConcurrentOperation a.op c.cgka = .error .outOfOrderOperation g ∧
        mergeVerified a c = .ok .deferred { c with cgka := g }) ∨
      ∃ err, fate c a = .failed ∧ err ≠ .outOfOrderOperation ∧
        Beekem.mergeConcurrentOperation a.op c.cgka = .error err g ∧
        mergeVerified a c = .error (.cgka err) { c with cgka := g } := by
  cases hpreds : Beekem.containsPredecessors c.cgka a.op.payload.predecessors with
  | false =>
      have hrun := mergeVerified_waits hpreds
      exact Or.inl ⟨by simp [fate, hrun, hpreds], rfl, hrun⟩
  | true =>
      by_cases hadmitted : Admitted c a.op
      · have hrun := mergeVerified_admitted hadmitted
        refine Or.inr (Or.inr ⟨hadmitted, ?_⟩)
        cases hmerge : Beekem.mergeConcurrentOperation a.op c.cgka with
        | ok applied g =>
            rw [hmerge] at hrun
            cases applied with
            | true => exact ⟨g, Or.inl ⟨by simp [fate, hrun], rfl, hrun⟩⟩
            | false => exact ⟨g, Or.inr (Or.inl ⟨by simp [fate, hrun], rfl, hrun⟩)⟩
        | error err g =>
            rw [hmerge] at hrun
            refine ⟨g, Or.inr (Or.inr ?_)⟩
            by_cases horder : err = .outOfOrderOperation
            · subst horder
              exact Or.inl ⟨by simp [fate, hrun, hpreds], rfl, hrun⟩
            · have hfailed : mergeVerified a c = .error (.cgka err) { c with cgka := g } := by
                cases err <;> first | exact hrun | exact absurd rfl horder
              exact Or.inr ⟨err, by simp [fate, hfailed], horder, rfl, hfailed⟩
      · obtain ⟨err, hrun, herr⟩ := mergeVerified_refused hpreds hadmitted
        refine Or.inr (Or.inl ⟨?_, hadmitted, err, hrun, herr⟩)
        rcases herr with rfl | rfl <;> simp [fate, hrun]

theorem fate_mislaid_iff : fate c a = .mislaid ↔ Misjudged c a := by
  constructor
  · intro h
    rcases offer_cases c a with ⟨hfate, -⟩ | ⟨hfate, -⟩ | ⟨hadmitted, g, ⟨hfate, -⟩ | ⟨hfate, -⟩ |
      ⟨-, hmerge, -⟩ | ⟨err, hfate, -⟩⟩
    · exact absurd (hfate.symm.trans h) (by simp)
    · exact absurd (hfate.symm.trans h) (by simp)
    · exact absurd (hfate.symm.trans h) (by simp)
    · exact absurd (hfate.symm.trans h) (by simp)
    · exact ⟨hadmitted, g, hmerge⟩
    · exact absurd (hfate.symm.trans h) (by simp)
  · rintro ⟨hadmitted, g, hmerge⟩
    have hrun := mergeVerified_admitted hadmitted
    rw [hmerge] at hrun
    simp [fate, hrun, hadmitted.predecessors]

/-! ## One offer -/

/-- An offer: the controller it was made to, and what was offered. -/
abbrev Offering := CgkaController × AuthorizedOp

/-- The offers with one fate. -/
def ended (f : Fate) (offers : List Offering) : Multiset AuthorizedOp :=
  ((offers.filter fun o => fate o.1 o.2 = f).map Prod.snd : List AuthorizedOp)

/-- The offers that did not end in the queue. -/
def settled (offers : List Offering) : Multiset AuthorizedOp :=
  ended .taken offers + ended .refused offers + ended .failed offers + ended .mislaid offers

@[simp] theorem settled_nil : settled [] = 0 := rfl

theorem ended_cons (f : Fate) (o : Offering) (offers : List Offering) :
    ended f (o :: offers) = (if fate o.1 o.2 = f then {o.2} else 0) + ended f offers := by
  unfold ended
  rw [List.filter_cons]
  split_ifs with h h' h'
  · rfl
  · exact absurd (of_decide_eq_true h) h'
  · exact absurd (decide_eq_true h') h
  · rw [zero_add]

theorem settled_cons (o : Offering) (offers : List Offering) :
    settled (o :: offers) = (if fate o.1 o.2 = .waits then 0 else {o.2}) + settled offers := by
  unfold settled
  simp only [ended_cons]
  cases fate o.1 o.2 <;> simp [add_assoc, add_left_comm]

theorem settled_append (offers later : List Offering) :
    settled (offers ++ later) = settled offers + settled later := by
  induction offers with
  | nil => simp
  | cons o offers ih => rw [List.cons_append, settled_cons, settled_cons, ih, add_assoc]

theorem settled_pos {o : Offering} {offers : List Offering} (ho : o ∈ offers)
    (hfate : fate o.1 o.2 ≠ .waits) : 0 < (settled offers).card := by
  induction offers with
  | nil => exact absurd ho List.not_mem_nil
  | cons first rest ih =>
      rw [settled_cons, Multiset.card_add]
      rcases List.mem_cons.mp ho with rfl | ho
      · rw [if_neg hfate, Multiset.card_singleton]
        omega
      · exact Nat.lt_of_lt_of_le (ih ho) (Nat.le_add_left _ _)

theorem ended_eq_zero {f : Fate} {offers : List Offering} :
    ended f offers = 0 ↔ ∀ o ∈ offers, fate o.1 o.2 ≠ f := by
  unfold ended
  rw [Multiset.coe_eq_zero, List.map_eq_nil_iff, List.filter_eq_nil_iff]
  simp

/-- Parking appends, and drops the oldest and counts it when the queue is full. -/
theorem park_accounts (a : AuthorizedOp) (c : CgkaController) :
    (∃ evicted : Multiset AuthorizedOp, (c.parked : Multiset AuthorizedOp) + {a} =
        evicted + (c.park a).parked ∧ (c.park a).evictedOps = c.evictedOps + evicted.card) ∧
      (c.park a).parked.length ≤ max c.parked.length maxParkedOps ∧ a ∈ (c.park a).parked := by
  unfold park
  split_ifs with hfull
  · have hpos : 0 < c.parked.length := Nat.lt_of_lt_of_le (by decide) hfull
    have hlength : (c.parked.tail ++ [a]).length ≤ max c.parked.length maxParkedOps := by
      rw [List.length_append, List.length_tail, List.length_singleton]
      omega
    refine ⟨?_, hlength, by simp⟩
    cases hparked : c.parked with
    | nil => exact absurd (hparked ▸ hpos) (by simp)
    | cons oldest rest => exact ⟨{oldest}, rfl, rfl⟩
  · refine ⟨⟨0, (zero_add _).symm, rfl⟩, ?_, by simp⟩
    rw [List.length_append, List.length_singleton]
    exact le_max_of_le_right (Nat.lt_of_not_le hfull)

/-- What one offer to `c` leaves at `c'`. -/
structure Offered (c : CgkaController) (a : AuthorizedOp) (c' : CgkaController) : Prop where
  conserved : ∃ evicted : Multiset AuthorizedOp, (c.parked : Multiset AuthorizedOp) + {a} =
    settled [(c, a)] + evicted + c'.parked ∧ c'.evictedOps = c.evictedOps + evicted.card
  bounded : c'.parked.length ≤ max c.parked.length maxParkedOps
  kept : ∀ op ∈ graph c.cgka, op ∈ graph c'.cgka
  taken : fate c a = .taken → a.op ∈ graph c'.cgka
  waits : ∀ b ∈ c'.parked, b ∈ c.parked ∨
    b = a ∧ Beekem.containsPredecessors c.cgka a.op.payload.predecessors = false
  unchanged : (∀ s, mergeVerified a c ≠ .ok .applied s) → graph c'.cgka = graph c.cgka

theorem recordMembership_frame (op : CgkaOperation OpHash) (c : CgkaController) :
    (recordMembership op c).cgka = c.cgka ∧ (recordMembership op c).parked = c.parked ∧
      (recordMembership op c).evictedOps = c.evictedOps ∧
      (recordMembership op c).certs = c.certs := by
  cases op <;> exact ⟨rfl, rfl, rfl, rfl⟩

theorem park_frame (a : AuthorizedOp) (c : CgkaController) :
    (c.park a).cgka = c.cgka ∧ (c.park a).certs = c.certs ∧
      (c.park a).knownMembers = c.knownMembers ∧ (c.park a).currentMembers = c.currentMembers := by
  unfold park
  split_ifs <;> exact ⟨rfl, rfl, rfl, rfl⟩

/-- An offer that leaves the queue alone. -/
private theorem Offered.of_settled {c' : CgkaController} (hfate : fate c a ≠ .waits)
    (hparked : c'.parked = c.parked) (hevicted : c'.evictedOps = c.evictedOps)
    (hkept : ∀ op ∈ graph c.cgka, op ∈ graph c'.cgka)
    (htaken : fate c a = .taken → a.op ∈ graph c'.cgka)
    (hunchanged : (∀ s, mergeVerified a c ≠ .ok .applied s) → graph c'.cgka = graph c.cgka) :
    Offered c a c' where
  conserved := ⟨0, by rw [settled_cons, if_neg hfate, hparked]; simp [add_comm], by simp [hevicted]⟩
  bounded := hparked ▸ Nat.le_max_left _ _
  kept := hkept
  taken := htaken
  waits := fun b hb => Or.inl (hparked ▸ hb)
  unchanged := hunchanged

theorem mergeVerified_offered [LawfulBeekem] (c : CgkaController) (a : AuthorizedOp) :
    Offered c a (after (mergeVerified a) c) := by
  have hgraph : ∀ {applied : Bool} {g : Cgka},
      Beekem.mergeConcurrentOperation a.op c.cgka = .ok applied g →
        (∀ op, op ∈ graph g ↔ op ∈ graph c.cgka ∨ applied = true ∧ op = a.op) ∧ a.op ∈ graph g := by
    intro applied g hmerge
    have hspec := (LawfulBeekem.mergeConcurrentOperation_spec a.op c.cgka).of_ok hmerge
    cases applied with
    | true =>
        obtain ⟨-, hgrows⟩ : _ ∧ Grows c.cgka g [a.op] := by simpa using hspec
        exact ⟨fun op => by rw [hgrows.mem_graph]; simp, (hgrows.mem_graph _).mpr (by simp)⟩
    | false =>
        obtain ⟨hmem, hgrows⟩ : a.op ∈ graph c.cgka ∧ Grows c.cgka g [] := by simpa using hspec
        exact ⟨fun op => by rw [hgrows.mem_graph]; simp, (hgrows.mem_graph _).mpr (Or.inl hmem)⟩
  have hsame : ∀ {err : CgkaError} {g : Cgka},
      Beekem.mergeConcurrentOperation a.op c.cgka = .error err g → graph g = graph c.cgka := by
    intro err g hmerge
    have hgrows := (LawfulBeekem.mergeConcurrentOperation_spec a.op c.cgka).of_error hmerge
    exact Set.ext fun op => by rw [hgrows.mem_graph]; simp
  unfold after
  rcases offer_cases c a with ⟨hfate, hpreds, hrun⟩ | ⟨hfate, -, err, hrun, -⟩ |
    ⟨-, g, ⟨hfate, hmerge, hrun⟩ | ⟨hfate, hmerge, hrun⟩ | ⟨hfate, hmerge, hrun⟩ |
      ⟨err, hfate, -, hmerge, hrun⟩⟩
  · rw [hrun]
    dsimp only
    obtain ⟨⟨evicted, hparked, hevicted⟩, hbound, -⟩ := park_accounts a c
    have hcgka := (park_frame a c).1
    refine ⟨⟨evicted, ?_, hevicted⟩, hbound, fun op hop => hcgka ▸ hop,
      fun h => absurd (hfate.symm.trans h) (by simp), fun b hb => ?_, fun _ => by rw [hcgka]⟩
    · rw [settled_cons, if_pos hfate, hparked]
      simp
    · have hqueue := (park_evolves c a).parked b hb
      exact hqueue.imp_right fun hnew => ⟨List.mem_singleton.mp hnew, hpreds⟩
  · rw [hrun]
    exact .of_settled (by simp [hfate]) rfl rfl (fun _ => id)
      (fun h => absurd (hfate.symm.trans h) (by simp)) fun _ => rfl
  · rw [hrun]
    obtain ⟨hcgka, hparked, hevicted, -⟩ :=
      recordMembership_frame a.op.payload { c with cgka := g }
    obtain ⟨hmem, htaken⟩ := hgraph hmerge
    refine .of_settled (by simp [hfate]) hparked hevicted (fun op hop => ?_) (fun _ => ?_)
      fun h => absurd hrun (h _)
    · exact hcgka ▸ (hmem op).mpr (Or.inl hop)
    · exact hcgka ▸ htaken
  · rw [hrun]
    obtain ⟨hmem, htaken⟩ := hgraph hmerge
    exact .of_settled (by simp [hfate]) rfl rfl (fun op hop => (hmem op).mpr (Or.inl hop))
      (fun _ => htaken) fun _ => Set.ext fun op => by rw [hmem]; simp
  · rw [hrun]
    exact .of_settled (by simp [hfate]) rfl rfl (fun op hop => hsame hmerge ▸ hop)
      (fun h => absurd (hfate.symm.trans h) (by simp)) fun _ => hsame hmerge
  · rw [hrun]
    exact .of_settled (by simp [hfate]) rfl rfl (fun op hop => hsame hmerge ▸ hop)
      (fun h => absurd (hfate.symm.trans h) (by simp)) fun _ => hsame hmerge

/-! ## One round -/

/-- The offers of a round over a queue, each made where the one before left off. -/
def roundOffers : List AuthorizedOp → CgkaController → List Offering
  | [], _ => []
  | a :: rest, c => (c, a) :: roundOffers rest (after (mergeVerified a) c)

/-- What the answer to one offer does to the count and the first failure. -/
def tally (c : CgkaController) (a : AuthorizedOp) (total : Nat) (firstError : Option CoreError) :
    Nat × Option CoreError :=
  match mergeVerified a c with
  | .ok .applied _ => (total + 1, firstError)
  | .ok _ _ => (total, firstError)
  | .error (.unauthorized _) _ => (total, firstError)
  | .error (.uncertified _) _ => (total, firstError)
  | .error err _ => (total, firstError.or (some err))

theorem pendingRound_cons (rest : List AuthorizedOp) (total : Nat)
    (firstError : Option CoreError) :
    pendingRound (a :: rest) total firstError c =
      pendingRound rest (tally c a total firstError).1 (tally c a total firstError).2
        (after (mergeVerified a) c) := by
  conv_lhs => unfold pendingRound
  change EStateM.bind _ _ c = _
  unfold EStateM.bind attempt tally after
  cases mergeVerified a c with
  | ok outcome c' => cases outcome <;> rfl
  | error err c' => cases err <;> rfl

/-- Only a failed operation changes the first failure, and only by being the
first. -/
theorem tally_error (total : Nat) (firstError : Option CoreError) :
    (tally c a total firstError).2 = none ↔ firstError = none ∧ fate c a ≠ .failed := by
  have htally : (tally c a total firstError).2 =
      if fate c a = .failed then (tally c a total firstError).2 else firstError := by
    rcases offer_cases c a with ⟨hfate, -, hrun⟩ | ⟨hfate, -, err, hrun, rfl | rfl⟩ |
      ⟨-, g, ⟨hfate, -, hrun⟩ | ⟨hfate, -, hrun⟩ | ⟨hfate, -, hrun⟩ | ⟨err, hfate, -, -, hrun⟩⟩ <;>
      simp [hfate, tally, hrun]
  by_cases hfailed : fate c a = .failed
  · have hsome : (tally c a total firstError).2 ≠ none := by
      rcases offer_cases c a with ⟨hfate, -⟩ | ⟨hfate, -⟩ | ⟨-, g, ⟨hfate, -⟩ | ⟨hfate, -⟩ |
        ⟨hfate, -⟩ | ⟨err, -, -, -, hrun⟩⟩
      · exact absurd (hfate.symm.trans hfailed) (by simp)
      · exact absurd (hfate.symm.trans hfailed) (by simp)
      · exact absurd (hfate.symm.trans hfailed) (by simp)
      · exact absurd (hfate.symm.trans hfailed) (by simp)
      · exact absurd (hfate.symm.trans hfailed) (by simp)
      · simp [tally, hrun]
    simp [hsome, hfailed]
  · rw [if_neg hfailed] at htally
    simp [htally, hfailed]

/-- The count rises when the offered operation is applied, and only then. -/
theorem tally_total (total : Nat) (firstError : Option CoreError) :
    (tally c a total firstError).1 = total ∧ (∀ s, mergeVerified a c ≠ .ok .applied s) ∨
      (tally c a total firstError).1 = total + 1 ∧ fate c a = .taken := by
  rcases offer_cases c a with ⟨hfate, -, hrun⟩ | ⟨hfate, -, err, hrun, rfl | rfl⟩ |
    ⟨-, g, ⟨hfate, -, hrun⟩ | ⟨hfate, -, hrun⟩ | ⟨hfate, -, hrun⟩ | ⟨err, hfate, -, -, hrun⟩⟩
  · exact Or.inl ⟨by simp [tally, hrun], by simp [hrun]⟩
  · exact Or.inl ⟨by simp [tally, hrun], by simp [hrun]⟩
  · exact Or.inl ⟨by simp [tally, hrun], by simp [hrun]⟩
  · exact Or.inr ⟨by simp [tally, hrun], hfate⟩
  · exact Or.inl ⟨by simp [tally, hrun], by simp [hrun]⟩
  · exact Or.inl ⟨by simp [tally, hrun], by simp [hrun]⟩
  · exact Or.inl ⟨by simp [tally, hrun], by simp [hrun]⟩

/-- What a round over `queue` from `c` leaves at `c'`. -/
structure Rounded (queue : List AuthorizedOp) (c : CgkaController) (total : Nat)
    (firstError : Option CoreError) (c' : CgkaController) (total' : Nat)
    (firstError' : Option CoreError) : Prop where
  conserved : ∃ evicted : Multiset AuthorizedOp, (c.parked : Multiset AuthorizedOp) + queue =
    settled (roundOffers queue c) + evicted + c'.parked ∧
      c'.evictedOps = c.evictedOps + evicted.card
  bounded : c'.parked.length ≤ max c.parked.length maxParkedOps
  kept : ∀ op ∈ graph c.cgka, op ∈ graph c'.cgka
  taken : ∀ o ∈ roundOffers queue c, fate o.1 o.2 = .taken → o.2.op ∈ graph c'.cgka
  reported : firstError' = none ↔
    firstError = none ∧ ∀ o ∈ roundOffers queue c, fate o.1 o.2 ≠ .failed
  total_le : total ≤ total'
  progress : total < total' → ∃ o ∈ roundOffers queue c, fate o.1 o.2 ≠ .waits
  quiet : total' = total → graph c'.cgka = graph c.cgka ∧ ∀ b ∈ c'.parked, b ∈ c.parked ∨
    Beekem.containsPredecessors c'.cgka b.op.payload.predecessors = false

theorem containsPredecessors_congr [LawfulBeekem] {g g' : Cgka} (h : graph g' = graph g)
    (preds : List OpHash) :
    Beekem.containsPredecessors g' preds = Beekem.containsPredecessors g preds := by
  rw [Bool.eq_iff_iff, LawfulBeekem.containsPredecessors_iff, LawfulBeekem.containsPredecessors_iff,
    h]

variable [LawfulBeekem]

theorem pendingRound_rounded (queue : List AuthorizedOp) (c : CgkaController) (total : Nat)
    (firstError : Option CoreError) :
    ∃ c' total' firstError',
      pendingRound queue total firstError c = .ok (total', firstError') c' ∧
        Rounded queue c total firstError c' total' firstError' := by
  induction queue generalizing c total firstError with
  | nil =>
      refine ⟨c, total, firstError, rfl, ⟨0, by simp [roundOffers], by simp⟩, le_max_left _ _,
        fun _ => id, ?_, ?_, le_rfl, fun h => absurd h (lt_irrefl _), fun _ => ⟨rfl, fun _ => Or.inl⟩⟩
      · simp [roundOffers]
      · simp [roundOffers]
  | cons a rest ih =>
      have hoffer := mergeVerified_offered c a
      obtain ⟨c', total', firstError', hrun, h⟩ :=
        ih (after (mergeVerified a) c) (tally c a total firstError).1 (tally c a total firstError).2
      refine ⟨c', total', firstError', (pendingRound_cons _ _ _).trans hrun, ?_⟩
      have htotal := tally_total (c := c) (a := a) total firstError
      refine
        { conserved := ?_
          bounded := h.bounded.trans (max_le hoffer.bounded (le_max_right _ _))
          kept := fun op hop => h.kept op (hoffer.kept op hop)
          taken := ?_
          reported := ?_
          total_le := ?_
          progress := ?_
          quiet := fun heq => ?_ }
      · obtain ⟨gone, hgone, hcount⟩ := hoffer.conserved
        obtain ⟨later, hlater, hcount'⟩ := h.conserved
        refine ⟨gone + later, ?_, by rw [hcount', hcount, Multiset.card_add, add_assoc]⟩
        calc (c.parked : Multiset AuthorizedOp) + ↑(a :: rest)
            = (↑c.parked + {a}) + ↑rest := by rw [add_assoc]; rfl
          _ = settled [(c, a)] + gone +
              ((after (mergeVerified a) c).parked + (rest : Multiset AuthorizedOp)) := by
                rw [hgone, add_assoc]
          _ = settled [(c, a)] + settled (roundOffers rest (after (mergeVerified a) c)) +
              (gone + later) + c'.parked := by rw [hlater]; abel
          _ = settled (roundOffers (a :: rest) c) + (gone + later) + c'.parked := by
                rw [← settled_append]; rfl
      · intro o ho hfate
        rcases List.mem_cons.mp ho with rfl | ho
        · exact h.kept _ (hoffer.taken hfate)
        · exact h.taken o ho hfate
      · rw [h.reported, tally_error, and_assoc]
        simp [roundOffers]
      · have hrest := h.total_le
        rcases htotal with ⟨hsame, -⟩ | ⟨hmore, -⟩
        · omega
        · omega
      · intro hlt
        rcases htotal with ⟨hsame, -⟩ | ⟨-, hfate⟩
        · obtain ⟨o, ho, hfate⟩ := h.progress (hsame.symm ▸ hlt)
          exact ⟨o, List.mem_cons_of_mem _ ho, hfate⟩
        · exact ⟨(c, a), List.mem_cons_self, by simp [hfate]⟩
      · rcases htotal with ⟨hsame, hnot⟩ | ⟨hmore, -⟩
        · obtain ⟨hgraph, hparked⟩ := h.quiet (heq.trans hsame.symm)
          have hall := hgraph.trans (hoffer.unchanged hnot)
          refine ⟨hall, fun b hb => ?_⟩
          rcases hparked b hb with hb | hb
          · refine (hoffer.waits b hb).imp_right ?_
            rintro ⟨rfl, hpreds⟩
            exact (containsPredecessors_congr hall _).trans hpreds
          · exact Or.inr hb
        · have := h.total_le
          omega

/-! ## The loop -/

/-- The loop of `merge_pending` without a bound: it takes the queue out and
offers what was in it, until a round applies nothing. -/
inductive Drains : CgkaController → Nat → Option CoreError → List Offering →
    CgkaController → Nat → Option CoreError → Prop where
  | last {c c' : CgkaController} {total : Nat} {firstError firstError' : Option CoreError}
      (hround : pendingRound c.parked total firstError { c with parked := [] } =
        .ok (total, firstError') c') :
      Drains c total firstError (roundOffers c.parked { c with parked := [] }) c' total firstError'
  | more {c c' c'' : CgkaController} {total total' total'' : Nat}
      {firstError firstError' firstError'' : Option CoreError} {offers : List Offering}
      (hround : pendingRound c.parked total firstError { c with parked := [] } =
        .ok (total', firstError') c')
      (hchanged : total' ≠ total) (hrest : Drains c' total' firstError' offers c'' total'' firstError'') :
      Drains c total firstError (roundOffers c.parked { c with parked := [] } ++ offers)
        c'' total'' firstError''

/-- What the loop returns. -/
def drained (total : Nat) (firstError : Option CoreError) (c : CgkaController) :
    EStateM.Result CoreError CgkaController Nat :=
  match firstError with
  | none => .ok total c
  | some err => .error err c

/-- What the loop leaves, whatever it started from. -/
structure Drained (c : CgkaController) (firstError : Option CoreError) (offers : List Offering)
    (c' : CgkaController) (firstError' : Option CoreError) : Prop where
  conserved : ∃ evicted : Multiset AuthorizedOp, (c.parked : Multiset AuthorizedOp) =
    settled offers + evicted + c'.parked ∧ c'.evictedOps = c.evictedOps + evicted.card
  bounded : c'.parked.length ≤ maxParkedOps
  kept : ∀ op ∈ graph c.cgka, op ∈ graph c'.cgka
  taken : ∀ o ∈ offers, fate o.1 o.2 = .taken → o.2.op ∈ graph c'.cgka
  reported : firstError' = none ↔ firstError = none ∧ ∀ o ∈ offers, fate o.1 o.2 ≠ .failed
  waits : ∀ b ∈ c'.parked,
    Beekem.containsPredecessors c'.cgka b.op.payload.predecessors = false

/-- A round that applied nothing is the last. -/
private theorem Rounded.drained {c c' : CgkaController} {total : Nat}
    {firstError firstError' : Option CoreError}
    (h : Rounded c.parked { c with parked := [] } total firstError c' total firstError') :
    Drained c firstError (roundOffers c.parked { c with parked := [] }) c' firstError' where
  conserved := by
    obtain ⟨evicted, hparked, hevicted⟩ := h.conserved
    exact ⟨evicted, (zero_add _).symm.trans hparked, hevicted⟩
  bounded := h.bounded.trans (max_le (Nat.zero_le _) le_rfl)
  kept := h.kept
  taken := h.taken
  reported := h.reported
  waits := fun b hb => ((h.quiet rfl).2 b hb).resolve_left List.not_mem_nil

theorem Drains.drained {c c' : CgkaController} {total total' : Nat}
    {firstError firstError' : Option CoreError} {offers : List Offering}
    (h : Drains c total firstError offers c' total' firstError') :
    Drained c firstError offers c' firstError' := by
  induction h with
  | @last c c' total firstError firstError' hround =>
      obtain ⟨d, t, e, hrun, hrounded⟩ :=
        pendingRound_rounded c.parked { c with parked := [] } total firstError
      obtain ⟨⟨rfl, rfl⟩, rfl⟩ : (t = total ∧ e = firstError') ∧ d = c' := by
        simpa using hrun.symm.trans hround
      exact hrounded.drained
  | @more c c' c'' total total' total'' firstError firstError' firstError'' offers hround _ _ ih =>
      obtain ⟨d, t, e, hrun, h⟩ :=
        pendingRound_rounded c.parked { c with parked := [] } total firstError
      obtain ⟨⟨rfl, rfl⟩, rfl⟩ : (t = total' ∧ e = firstError') ∧ d = c' := by
        simpa using hrun.symm.trans hround
      refine
        { conserved := ?_
          bounded := ih.bounded
          kept := fun op hop => ih.kept op (h.kept op hop)
          taken := fun o ho hfate => ?_
          reported := ?_
          waits := ih.waits }
      · obtain ⟨gone, hgone, hcount⟩ := h.conserved
        obtain ⟨later, hlater, hcount'⟩ := ih.conserved
        refine ⟨gone + later, ?_, by rw [hcount', hcount, Multiset.card_add, add_assoc]⟩
        calc (c.parked : Multiset AuthorizedOp)
            = settled (roundOffers c.parked { c with parked := [] }) + gone + d.parked :=
              (zero_add _).symm.trans hgone
          _ = settled (roundOffers c.parked { c with parked := [] } ++ offers) +
              (gone + later) + c''.parked := by rw [hlater, settled_append]; abel
      · rcases List.mem_append.mp ho with ho | ho
        · exact ih.kept _ (h.taken o ho hfate)
        · exact ih.taken o ho hfate
      · rw [ih.reported, h.reported, and_assoc]
        simp only [List.mem_append, or_imp, forall_and]

/-- With more fuel than there are operations in the queue, the bounded loop does
what the loop does. -/
theorem pendingRounds_drains (fuel : Nat) (c : CgkaController) (total : Nat)
    (firstError : Option CoreError) (hfuel : c.parked.length < fuel) :
    ∃ offers c' total' firstError', Drains c total firstError offers c' total' firstError' ∧
      pendingRounds fuel total firstError c = drained total' firstError' c' := by
  induction fuel generalizing c total firstError with
  | zero => exact absurd hfuel (Nat.not_lt_zero _)
  | succ fuel ih =>
      obtain ⟨d, total', firstError', hround, h⟩ :=
        pendingRound_rounded c.parked { c with parked := [] } total firstError
      have hrun : pendingRounds (fuel + 1) total firstError c =
          if total' = total then drained total' firstError' d
          else pendingRounds fuel total' firstError' d := by
        conv_lhs => unfold pendingRounds
        change EStateM.bind (pendingRound c.parked total firstError) _ { c with parked := [] } = _
        unfold EStateM.bind
        rw [hround]
        dsimp only
        split_ifs
        · cases firstError' <;> rfl
        · rfl
      rw [hrun]
      split_ifs with hsame
      · subst hsame
        exact ⟨_, d, _, firstError', .last hround, rfl⟩
      · -- a round that applied something took it out of the queue
        have hshorter : d.parked.length < c.parked.length := by
          obtain ⟨o, ho, hfate⟩ := h.progress (lt_of_le_of_ne h.total_le (Ne.symm hsame))
          obtain ⟨evicted, hparked, -⟩ := h.conserved
          have hcard := congrArg Multiset.card hparked
          have hpos : 0 < (settled (roundOffers c.parked { c with parked := [] })).card :=
            settled_pos ho hfate
          simp only [Multiset.card_add, Multiset.coe_card, List.length_nil, zero_add] at hcard
          omega
        obtain ⟨offers, c', total'', firstError'', hdrains, hfinal⟩ :=
          ih d total' firstError' (by omega)
        exact ⟨_, c', total'', firstError'', .more hround hsame hdrains, hfinal⟩

theorem mergePending_drains (c : CgkaController) :
    ∃ offers c' total firstError, Drains c 0 none offers c' total firstError ∧
      mergePending c = drained total firstError c' :=
  pendingRounds_drains _ c 0 none (Nat.lt_succ_self _)

/-! ## The account -/

/-- Every operation of `offered` ended in exactly one place: it is in the graph,
it was refused, its failure was reported, it was evicted and counted, or it is
in the queue; and one answered `Deferred` was put into the queue. -/
structure Conserves (offered : Multiset AuthorizedOp) (c : CgkaController)
    (offers : List Offering) (c' : CgkaController) (failed : Prop) : Prop where
  ends : ∃ evicted : Multiset AuthorizedOp, offered =
    ended .taken offers + ended .refused offers + ended .failed offers + evicted + c'.parked ∧
      c'.evictedOps = c.evictedOps + evicted.card
  taken : ∀ o ∈ offers, fate o.1 o.2 = .taken → o.2.op ∈ graph c'.cgka
  reported : (∃ o ∈ offers, fate o.1 o.2 = .failed) → failed
  deferred : ∀ o ∈ offers, ∀ s, mergeVerified o.2 o.1 = .ok .deferred s → o.2 ∈ s.parked

omit [LawfulBeekem] in
/-- The account balances exactly when no offer was mislaid. -/
theorem conserves_iff {offered : Multiset AuthorizedOp} {c c' : CgkaController}
    {offers : List Offering} {failed : Prop}
    (hconserved : ∃ evicted : Multiset AuthorizedOp,
      offered = settled offers + evicted + c'.parked ∧
        c'.evictedOps = c.evictedOps + evicted.card)
    (htaken : ∀ o ∈ offers, fate o.1 o.2 = .taken → o.2.op ∈ graph c'.cgka)
    (hreported : (∃ o ∈ offers, fate o.1 o.2 = .failed) → failed) :
    Conserves offered c offers c' failed ↔ ∀ o ∈ offers, ¬ Misjudged o.1 o.2 := by
  obtain ⟨evicted, hall, hcount⟩ := hconserved
  simp only [← fate_mislaid_iff]
  constructor
  · intro h
    obtain ⟨evicted', hends, hcount'⟩ := h.ends
    -- both accounts drop equally many, so nothing is left for the mislaid
    have hcard := congrArg Multiset.card (hall.symm.trans hends)
    simp only [settled, Multiset.card_add] at hcard
    refine ended_eq_zero.mp (Multiset.card_eq_zero.mp ?_)
    omega
  · intro h
    have hnone : ended .mislaid offers = 0 := ended_eq_zero.mpr h
    refine ⟨⟨evicted, by rw [hall, settled, hnone, add_zero], hcount⟩, htaken, hreported,
      fun o ho s hrun => ?_⟩
    rcases offer_cases o.1 o.2 with ⟨-, -, hwaits⟩ | ⟨-, -, err, hrefused, -⟩ |
      ⟨-, g, ⟨-, -, happlied⟩ | ⟨-, -, hknown⟩ | ⟨hmislaid, -⟩ | ⟨err, -, -, -, hfailed⟩⟩
    · obtain rfl : o.1.park o.2 = s := by simpa using hwaits.symm.trans hrun
      exact (park_accounts o.2 o.1).2.2
    · exact absurd (hrefused.symm.trans hrun) (by simp)
    · exact absurd (happlied.symm.trans hrun) (by simp)
    · exact absurd (hknown.symm.trans hrun) (by simp)
    · exact absurd hmislaid (h o ho)
    · exact absurd (hfailed.symm.trans hrun) (by simp)

/-- The controller once it has absorbed the proof an operation came with. -/
def absorbed (c : CgkaController) (a : AuthorizedOp) : CgkaController :=
  { c with certs := (c.certs.extend a.proof).2 }

/-- The offer `merge` makes: none where the signature does not hold. -/
def arrivalOffers (c : CgkaController) (a : AuthorizedOp) : List Offering :=
  if verifyOp a.op then [(absorbed c a, a)] else []

/-- The queue, and with it the operation that arrives if its signature holds. -/
def arrived (c : CgkaController) (a : AuthorizedOp) : Multiset AuthorizedOp :=
  c.parked + (arrivalOffers c a).map Prod.snd

omit [LawfulBeekem] in
theorem merge_verified (h : verifyOp a.op = true) :
    merge a c = mergeVerified a (absorbed c a) := by
  change (if ¬ verifyOp a.op = true then _ else _ : EStateM CoreError CgkaController MergeOutcome) c
    = _
  rw [if_neg (not_not.mpr h)]
  rfl

omit [LawfulBeekem] in
theorem merge_unverified (h : ¬ verifyOp a.op = true) : merge a c = .error .badSignature c := by
  change (if ¬ verifyOp a.op = true then _ else _ : EStateM CoreError CgkaController MergeOutcome) c
    = _
  rw [if_pos h]
  rfl

/-- An arriving operation is accounted for. -/
theorem merge_accounts (c : CgkaController) (a : AuthorizedOp) :
    (after (merge a) c).parked.length ≤ max c.parked.length maxParkedOps ∧
      (Conserves (arrived c a) c (arrivalOffers c a) (after (merge a) c)
          (Library.succeeds (merge a) c = false) ↔
        ∀ o ∈ arrivalOffers c a, ¬ Misjudged o.1 o.2) := by
  unfold arrived arrivalOffers
  split_ifs with hverify
  · have h := mergeVerified_offered (absorbed c a) a
    have hafter : after (merge a) c = after (mergeVerified a) (absorbed c a) := by
      unfold after
      rw [merge_verified hverify]
    rw [hafter]
    refine ⟨h.bounded, conserves_iff h.conserved (fun o ho hfate => ?_) ?_⟩
    · obtain rfl := List.mem_singleton.mp ho
      exact h.taken hfate
    · rintro ⟨o, ho, hfate⟩
      obtain rfl := List.mem_singleton.mp ho
      unfold Library.succeeds
      rw [merge_verified hverify]
      rcases offer_cases (absorbed c a) a with ⟨hwaits, -⟩ | ⟨-, -, err, hrun, -⟩ |
        ⟨-, g, ⟨htaken, -⟩ | ⟨htaken, -⟩ | ⟨hmislaid, -⟩ | ⟨err, -, -, -, hrun⟩⟩
      · exact absurd (hwaits.symm.trans hfate) (by simp)
      · rw [hrun]
      · exact absurd (htaken.symm.trans hfate) (by simp)
      · exact absurd (htaken.symm.trans hfate) (by simp)
      · exact absurd (hmislaid.symm.trans hfate) (by simp)
      · rw [hrun]
  · have hafter : after (merge a) c = c := by
      unfold after
      rw [merge_unverified hverify]
    rw [hafter]
    refine ⟨le_max_left _ _, conserves_iff ⟨0, by simp, rfl⟩ (by simp) (by simp)⟩

/-- The loop of `merge_pending` ends; what it leaves in the queue waits for a
predecessor; neither it nor `merge` lets the queue grow past its bound; and an
operation offered by either is in exactly one place, with the answer `Deferred`
given to those put into the queue only, exactly when the tree found no operation
out of order whose predecessors it had. -/
theorem parking_conserves_iff (c : CgkaController) :
    (∀ a, (after (merge a) c).parked.length ≤ max c.parked.length maxParkedOps ∧
      (Conserves (arrived c a) c (arrivalOffers c a) (after (merge a) c)
          (Library.succeeds (merge a) c = false) ↔
        ∀ o ∈ arrivalOffers c a, ¬ Misjudged o.1 o.2)) ∧
      ∃ offers c' total firstError, Drains c 0 none offers c' total firstError ∧
        mergePending c = drained total firstError c' ∧
        (∀ b ∈ c'.parked, Beekem.containsPredecessors c'.cgka b.op.payload.predecessors = false) ∧
        c'.parked.length ≤ maxParkedOps ∧
        (Conserves c.parked c offers c' (firstError ≠ none) ↔
          ∀ o ∈ offers, ¬ Misjudged o.1 o.2) := by
  refine ⟨merge_accounts c, ?_⟩
  obtain ⟨offers, c', total, firstError, hdrains, hrun⟩ := mergePending_drains c
  have h := hdrains.drained
  refine ⟨offers, c', total, firstError, hdrains, hrun, h.waits, h.bounded,
    conserves_iff h.conserved h.taken ?_⟩
  rintro ⟨o, ho, hfate⟩ hnone
  exact (h.reported.mp hnone).2 o ho hfate

end CgkaController

end IrohBeekem

/-! ## A tree that finds an operation out of order -/

namespace IrohBeekem

open Library CgkaController

section Samples

local instance fatesKeyhive : Keyhive := transparentKeyhive

section

local instance fatesBeekem : Beekem := listBeekem

local instance fatesLawful : LawfulBeekem := listBeekem_live.toLawfulBeekem

/-- The list model misjudges nothing. -/
private theorem not_misjudged_list (c : CgkaController) (a : AuthorizedOp) : ¬ Misjudged c a := by
  rintro ⟨hadmitted, g, hmerge⟩
  obtain ⟨applied, g', hok⟩ := listBeekem_live.mergeConcurrentOperation_ok a.op c.cgka
    ((LawfulBeekem.containsPredecessors_iff _ _).mp hadmitted.predecessors)
  exact absurd (hmerge.symm.trans hok) (by simp)

/-- A member that parked the operation which admits device `3`. -/
def sampleWaiting : CgkaController :=
  { sampleAdmitting with parked := [⟨sampleAdd, sampleDelegate.certs.certificates⟩] }

/-- Draining its queue accounts for what was in it. -/
theorem parking_conserves_sampleWaiting :
    ∃ offers c' total firstError, Drains sampleWaiting 0 none offers c' total firstError ∧
      mergePending sampleWaiting = drained total firstError c' ∧
      Conserves sampleWaiting.parked sampleWaiting offers c' (firstError ≠ none) := by
  obtain ⟨-, offers, c', total, firstError, hdrains, hrun, -, -, hiff⟩ :=
    parking_conserves_iff sampleWaiting
  exact ⟨offers, c', total, firstError, hdrains, hrun,
    hiff.mpr fun o _ => not_misjudged_list o.1 o.2⟩

end

/-- The list model with another way to merge. -/
@[reducible] def listBeekemMerging
    (m : Signed (CgkaOperation OpId) → EStateM CgkaError ListCgka Bool) : Beekem :=
  { listBeekem with mergeConcurrentOperation := m }

section

variable {m : Signed (CgkaOperation OpId) → EStateM CgkaError ListCgka Bool} {g g' : ListCgka}
variable {op : Signed (CgkaOperation OpId)}

private theorem grows_merging {added : List (Signed (CgkaOperation OpId))}
    (h : @Grows listBeekem g g' added) : @Grows (listBeekemMerging m) g g' added :=
  @Grows.mk (listBeekemMerging m) g g' added (@Grows.initAddOp listBeekem g g' added h)
    (@Grows.mem_graph listBeekem g g' added h)

private theorem before_merging {first : Signed (CgkaOperation OpId)}
    (h : @Before listBeekem first op) : @Before (listBeekemMerging m) first op := by
  refine @Before.rec listBeekem first (fun last _ => @Before (listBeekemMerging m) first last)
    ?_ ?_ op h
  · exact fun hnames => @Before.direct (listBeekemMerging m) _ _ hnames
  · exact fun _ hnames ih => @Before.step (listBeekemMerging m) _ _ _ ih hnames

private theorem minted_merging {signer : Bytes32} (h : @Minted listBeekem signer g op) :
    @Minted (listBeekemMerging m) signer g op :=
  @Minted.mk (listBeekemMerging m) signer g op (@Minted.issuer listBeekem _ _ _ h)
    (@Minted.verifies listBeekem _ _ _ h) (@Minted.fresh listBeekem _ _ _ h)
    (@Minted.predecessors listBeekem _ _ _ h)
    fun a ha => before_merging (@Minted.after listBeekem _ _ _ h a ha)

/-- Its laws are those of the list model, and what merging is to satisfy. -/
theorem listBeekemMerging_lawful
    (hm : ∀ op g, Wp (m op)
      (fun applied g' => if applied then op ∉ g.log ∧ @Grows listBeekem g g' [op]
        else op ∈ g.log ∧ @Grows listBeekem g g' [])
      (fun _ g' => @Grows listBeekem g g' []) g) :
    @LawfulBeekem (listBeekemMerging m) :=
  letI := listBeekemMerging m
  have laws : @LawfulBeekem listBeekem := listBeekem_live.toLawfulBeekem
  { opHash_injective := laws.opHash_injective
    initAddOp_mem := laws.initAddOp_mem
    predecessors_mem := laws.predecessors_mem
    containsPredecessors_iff := laws.containsPredecessors_iff
    new_spec := laws.new_spec
    newFromInitAdd_spec := laws.newFromInitAdd_spec
    insertOwnerSk_spec := fun key secret g => grows_merging (laws.insertOwnerSk_spec key secret g)
    withNewOwner_spec := fun memberId pk secret g g' h =>
      grows_merging (laws.withNewOwner_spec memberId pk secret g g' h)
    add_spec := fun memberId key signer g => (laws.add_spec memberId key signer g).mono
      (fun _ _ h => ⟨grows_merging h.1, fun o ho => (h.2 o ho).imp_left minted_merging⟩)
      fun _ _ h => grows_merging h
    remove_spec := fun memberId signer g => (laws.remove_spec memberId signer g).mono
      (fun _ _ h => ⟨grows_merging h.1, fun o ho => (h.2 o ho).imp_left minted_merging⟩)
      fun _ _ h => grows_merging h
    update_spec := fun newKey newSecret signer g rng =>
      (laws.update_spec newKey newSecret signer g rng).mono
        (fun _ _ h => ⟨grows_merging h.1, minted_merging h.2.1, h.2.2⟩)
        fun _ _ h => grows_merging h
    newAppSecretFor_spec := fun ref content predRefs signer g rng =>
      (laws.newAppSecretFor_spec ref content predRefs signer g rng).mono
        (fun _ _ h => ⟨grows_merging h.1, fun o ho => (h.2 o ho).imp_left minted_merging⟩)
        fun _ _ h => grows_merging h
    mergeConcurrentOperation_spec := fun op g => (hm op g).mono
      (fun applied g' h => by
        cases applied with
        | true => exact ⟨h.1, grows_merging h.2⟩
        | false => exact ⟨h.1, grows_merging h.2⟩)
      fun _ _ h => grows_merging h
    decryptionKeyFor_spec := fun chunk g => (laws.decryptionKeyFor_spec chunk g).mono
      (fun _ _ h => grows_merging h) fun _ _ h => grows_merging h }

end

/-- An update of the founder's that follows the founding operation. -/
def balkyUpdate : Signed (CgkaOperation OpId) :=
  ⟨.update 7 [OpId.of (ListCgka.new 7 1 0 1).init] 5, 1, (1, 0)⟩

/-- A tree that finds the update out of order. -/
local instance balkyBeekem : Beekem := listBeekemMerging fun op g =>
  if op = balkyUpdate then .error .outOfOrderOperation g
  else ListCgka.mergeConcurrentOperation op g

private theorem balkyBeekem_lawful : LawfulBeekem := by
  refine listBeekemMerging_lawful fun op g => ?_
  have hlist := listBeekem_live.mergeConcurrentOperation_spec op g
  unfold Wp at hlist ⊢
  dsimp only at hlist ⊢
  split_ifs
  · exact @Grows.refl listBeekem g
  · exact hlist

def balkyFounder : CgkaController :=
  { cgka := ListCgka.new 7 1 0 1
    signer := 1, memberId := 1, shareSecret := 0, shareKey := 0
    knownMembers := {1}, currentMembers := {1}
    certs := .new 1, parked := [], evictedOps := 0 }

/-- The founder is told that the update has been parked, and it is nowhere. -/
theorem balkyUpdate_mislaid :
    LawfulBeekem ∧
      (∃ c', merge (.bare balkyUpdate) balkyFounder = .ok .deferred c' ∧ c'.parked = [] ∧
        balkyUpdate ∉ graph c'.cgka ∧ c'.evictedOps = 0) ∧
      ¬ Conserves (arrived balkyFounder (.bare balkyUpdate)) balkyFounder
        (arrivalOffers balkyFounder (.bare balkyUpdate))
        (after (merge (.bare balkyUpdate)) balkyFounder)
        (Library.succeeds (merge (.bare balkyUpdate)) balkyFounder = false) := by
  have hmisjudged : Misjudged (absorbed balkyFounder (.bare balkyUpdate)) (.bare balkyUpdate) :=
    ⟨⟨by decide +kernel, by decide +kernel, rfl⟩, _, rfl⟩
  have hoffer : (absorbed balkyFounder (.bare balkyUpdate), .bare balkyUpdate) ∈
      arrivalOffers balkyFounder (.bare balkyUpdate) := List.mem_singleton_self _
  have hfresh : balkyUpdate ∉ balkyFounder.cgka.log := by decide +kernel
  have hlawful := balkyBeekem_lawful
  exact ⟨hlawful, ⟨_, rfl, rfl, hfresh, rfl⟩,
    fun h => (merge_accounts balkyFounder (.bare balkyUpdate)).2.mp h _ hoffer hmisjudged⟩

end Samples

end IrohBeekem
