import IrohBeekem.Capability.Roles

/-!
# Derivations behind the closure

`recompute` grows three sets in one loop: which user a device acts for, who has
ever been an admin, and which proposals are executed.  `Derives` reads the three
rules as an inference system over one kind of `Fact`, with the founder as its
axiom and the stored certificates as its only other source.  A derivation is a
finite tree, so nothing in it rests on itself.

Every conclusion in a derivation must be a fact the closure holds.  Without
that the system would prove more than the loop does, since a device's first
admitted binding is final and a second one, equally admissible, is not.

`recompute_settles` is the result: the loop ends, what it ends with is exactly
what can be derived, and no certificate is left to apply.
-/

namespace IrohBeekem

open Library

/-! ## Facts -/

/-- What one entry of a closure says. -/
inductive Fact where
  /-- The device acts for the user. -/
  | acts (device user : Bytes32)
  /-- The user has ever held an admitted admin grant. -/
  | admin (user : Bytes32)
  /-- The proposal has reached quorum. -/
  | executed (digest : Bytes32)
  deriving DecidableEq

/-- The facts a closure holds. -/
def Closure.Holds (c : Closure) : Fact → Prop
  | .acts device user => c.user device = some user
  | .admin user => user ∈ c.everAdmin
  | .executed digest => digest ∈ c.executed

theorem Closure.Holds.mono {c c' : Closure} (hle : c ≤ c') {fact : Fact} (h : c.Holds fact) :
    c'.Holds fact := by
  cases fact with
  | acts device user => exact hle.user h
  | admin user => exact hle.everAdmin h
  | executed digest => exact hle.executed h

variable [Keyhive]

/-! ## The inference system -/

/-- Derivations from the founder axiom by the rules of `recompute`, using the
certificates in `S` and concluding nothing `c` does not hold. -/
inductive Derives (founder : Bytes32) (threshold : Nat) (S : Certificates) (c : Closure) :
    Fact → Prop where
  /-- The founder is their own user. -/
  | founderUser (hheld : c.Holds (.acts founder founder)) :
      Derives founder threshold S c (.acts founder founder)
  /-- The founder is an admin. -/
  | founderAdmin (hheld : c.Holds (.admin founder)) :
      Derives founder threshold S c (.admin founder)
  /-- A device enrols a further device of its own user. -/
  | bindOwn {signed : Signed DeviceBinding} (hmem : signed ∈ S.bindings)
      (hissuer : Derives founder threshold S c (.acts signed.issuer signed.payload.user))
      (hheld : c.Holds (.acts signed.payload.device signed.payload.user)) :
      Derives founder threshold S c (.acts signed.payload.device signed.payload.user)
  /-- A device of an ever-admin enrols a device for anybody. -/
  | bindAdmin {signed : Signed DeviceBinding} {u : Bytes32} (hmem : signed ∈ S.bindings)
      (hissuer : Derives founder threshold S c (.acts signed.issuer u))
      (hadmin : Derives founder threshold S c (.admin u))
      (hheld : c.Holds (.acts signed.payload.device signed.payload.user)) :
      Derives founder threshold S c (.acts signed.payload.device signed.payload.user)
  /-- An ever-admin's proposal is executed on the approvals, one each, of
  enough distinct ever-admins. -/
  | execute {signed : Signed AdminProposal} {u : Bytes32} (hmem : signed ∈ S.proposals)
      (hissuer : Derives founder threshold S c (.acts signed.issuer u))
      (hadmin : Derives founder threshold S c (.admin u))
      (approving : Finset Bytes32) (hquorum : threshold ≤ approving.card)
      (approval : Bytes32 → Signed Approval)
      (hstored : ∀ v ∈ approving, approval v ∈ S.approvals)
      (hnames : ∀ v ∈ approving,
        (approval v).payload.proposal = Certificate.digest (.proposal signed))
      (hacts : ∀ v ∈ approving, Derives founder threshold S c (.acts (approval v).issuer v))
      (hadmins : ∀ v ∈ approving, Derives founder threshold S c (.admin v))
      (hheld : c.Holds (.executed (Certificate.digest (.proposal signed)))) :
      Derives founder threshold S c (.executed (Certificate.digest (.proposal signed)))
  /-- An ever-admin appoints another alone: anybody may at a threshold of one,
  the founder always. -/
  | appoint {signed : Signed Grant} {u : Bytes32} (hmem : signed ∈ S.grants)
      (hcap : signed.payload.capability.canAdminister = true)
      (hissuer : Derives founder threshold S c (.acts signed.issuer u))
      (hadmin : Derives founder threshold S c (.admin u))
      (halone : threshold ≤ defaultThreshold ∨ u = founder)
      (hheld : c.Holds (.admin signed.payload.subject)) :
      Derives founder threshold S c (.admin signed.payload.subject)
  /-- An ever-admin appoints another on an executed proposal for exactly that
  user and role. -/
  | appointByQuorum {signed : Signed Grant} {decided : Signed AdminProposal} {u : Bytes32}
      (hmem : signed ∈ S.grants) (hcap : signed.payload.capability.canAdminister = true)
      (hissuer : Derives founder threshold S c (.acts signed.issuer u))
      (hadmin : Derives founder threshold S c (.admin u))
      (hdecided : decided ∈ S.proposals)
      (haction : decided.payload.action =
        .setRole signed.payload.subject signed.payload.capability)
      (hexecuted :
        Derives founder threshold S c (.executed (Certificate.digest (.proposal decided))))
      (hheld : c.Holds (.admin signed.payload.subject)) :
      Derives founder threshold S c (.admin signed.payload.subject)

section

variable {founder : Bytes32} {threshold : Nat} {S : Certificates} {c c' : Closure}

/-- What is derived is held. -/
theorem Derives.holds {fact : Fact} (h : Derives founder threshold S c fact) : c.Holds fact := by
  cases h <;> assumption

/-- A derivation stands when the closure it is read against grows. -/
theorem Derives.mono (hle : c ≤ c') {fact : Fact} (h : Derives founder threshold S c fact) :
    Derives founder threshold S c' fact := by
  induction h with
  | founderUser hheld => exact .founderUser (hheld.mono hle)
  | founderAdmin hheld => exact .founderAdmin (hheld.mono hle)
  | bindOwn hmem _ hheld ih => exact .bindOwn hmem ih (hheld.mono hle)
  | bindAdmin hmem _ _ hheld hissuer hadmin => exact .bindAdmin hmem hissuer hadmin (hheld.mono hle)
  | execute hmem _ _ approving hquorum approval hstored hnames _ _ hheld hissuer hadmin hacts
      hadmins =>
      exact .execute hmem hissuer hadmin approving hquorum approval hstored hnames hacts hadmins
        (hheld.mono hle)
  | appoint hmem hcap _ _ halone hheld hissuer hadmin =>
      exact .appoint hmem hcap hissuer hadmin halone (hheld.mono hle)
  | appointByQuorum hmem hcap _ _ hdecided haction _ hheld hissuer hadmin hexecuted =>
      exact .appointByQuorum hmem hcap hissuer hadmin hdecided haction hexecuted (hheld.mono hle)

/-! ## Soundness -/

/-- Everything a closure holds is derived. -/
def Sound (founder : Bytes32) (threshold : Nat) (S : Certificates) (c : Closure) : Prop :=
  ∀ fact, c.Holds fact → Derives founder threshold S c fact

theorem founding_sound : Sound founder threshold S (.founding founder) := by
  intro fact hheld
  cases fact with
  | acts device user =>
      have huser : (Closure.founding founder).user device = some user := hheld
      rw [Closure.user_founding] at huser
      split_ifs at huser with hdevice
      obtain rfl := Option.some.inj huser
      exact hdevice ▸ .founderUser (hdevice ▸ hheld)
  | admin user =>
      obtain rfl := (Closure.mem_everAdmin_founding founder user).mp hheld
      exact .founderAdmin hheld
  | executed digest => exact absurd hheld (Closure.not_mem_executed_founding founder digest)

/-- A closure that grows by one derived fact stays sound. -/
theorem Sound.grow (h : Sound founder threshold S c) (hle : c ≤ c') (new : Fact)
    (hcases : ∀ fact, c'.Holds fact → fact = new ∨ c.Holds fact)
    (hnew : c'.Holds new → Derives founder threshold S c' new) : Sound founder threshold S c' := by
  intro fact hheld
  rcases hcases fact hheld with rfl | hold
  · exact hnew hheld
  · exact (h fact hold).mono hle

theorem Sound.bind (h : Sound founder threshold S c) {signed : Signed DeviceBinding}
    (hmem : signed ∈ S.bindings) (hfree : c.user signed.payload.device = none)
    (hadmissible : BindingAdmissible c signed) :
    Sound founder threshold S (c.bind signed.payload.device signed.payload.user) := by
  have hle := Closure.le_bind signed.payload.user hfree
  refine h.grow hle (.acts signed.payload.device signed.payload.user)
    (fun fact hheld => ?_) (fun hheld => ?_)
  · cases fact with
    | acts device user =>
        have huser : (c.bind signed.payload.device signed.payload.user).user device = some user :=
          hheld
        rw [Closure.user_bind] at huser
        split_ifs at huser with hdevice
        · exact Or.inl (by rw [hdevice, Option.some.inj huser])
        · exact Or.inr huser
    | admin user => exact Or.inr hheld
    | executed digest => exact Or.inr hheld
  · obtain ⟨u, huser, rfl | hadmin⟩ := hadmissible
    · exact .bindOwn hmem ((h (.acts _ _) huser).mono hle) hheld
    · exact .bindAdmin hmem ((h (.acts _ _) huser).mono hle) ((h (.admin _) hadmin).mono hle) hheld

/-- The approvers counted for a quorate proposal, each with an approval of
theirs. -/
theorem ProposalQuorate.approvals {signed : Signed AdminProposal}
    (h : ProposalQuorate threshold S c signed) :
    ∃ (approving : Finset Bytes32) (approval : Bytes32 → Signed Approval),
      threshold ≤ approving.card ∧ ∀ v ∈ approving, v ∈ c.everAdmin ∧
        approval v ∈ S.approvals ∧
        (approval v).payload.proposal = Certificate.digest (.proposal signed) ∧
        c.user (approval v).issuer = some v := by
  have hone : ∀ v, ∃ a : Signed Approval,
      v ∈ approvingUsers S.approvals c (Certificate.digest (.proposal signed)) →
        v ∈ c.everAdmin ∧ a ∈ S.approvals ∧
          a.payload.proposal = Certificate.digest (.proposal signed) ∧ c.user a.issuer = some v := by
    intro v
    by_cases hv : v ∈ approvingUsers S.approvals c (Certificate.digest (.proposal signed))
    · obtain ⟨hadmin, a, hmem, hnames, huser⟩ := mem_approvingUsers.mp hv
      exact ⟨a, fun _ => ⟨hadmin, hmem, hnames, huser⟩⟩
    · exact ⟨⟨.new signed.issuer 0, signed.issuer, signed.signature⟩, fun h => absurd h hv⟩
  choose approval happroval using hone
  refine ⟨(approvingUsers S.approvals c (Certificate.digest (.proposal signed))).toFinset, approval,
    ?_, fun v hv => happroval v (BTreeSet.mem_toFinset.mp hv)⟩
  rw [← BTreeSet.size_eq_card]
  exact h.2

theorem Sound.execute (h : Sound founder threshold S c) {signed : Signed AdminProposal}
    (hmem : signed ∈ S.proposals) (hquorate : ProposalQuorate threshold S c signed) :
    Sound founder threshold S (c.execute (Certificate.digest (.proposal signed))) := by
  have hle := Closure.le_execute c (Certificate.digest (.proposal signed))
  refine h.grow hle (.executed (Certificate.digest (.proposal signed)))
    (fun fact hheld => ?_) (fun hheld => ?_)
  · cases fact with
    | acts device user => exact Or.inr hheld
    | admin user => exact Or.inr hheld
    | executed digest =>
        rcases (Closure.mem_executed_execute _ _ _).mp hheld with rfl | hold
        · exact Or.inl rfl
        · exact Or.inr hold
  · obtain ⟨approving, approval, hcard, happroval⟩ := hquorate.approvals
    obtain ⟨u, huser, hadmin⟩ := hquorate.1
    refine .execute hmem ((h (.acts _ _) huser).mono hle) ((h (.admin _) hadmin).mono hle)
      approving hcard approval (fun v hv => (happroval v hv).2.1)
      (fun v hv => (happroval v hv).2.2.1) (fun v hv => ?_) (fun v hv => ?_) hheld
    · exact (h (.acts _ _) (happroval v hv).2.2.2).mono hle
    · exact (h (.admin _) (happroval v hv).1).mono hle

theorem Sound.appoint (h : Sound founder threshold S c) {signed : Signed Grant}
    (hmem : signed ∈ S.grants) (hcap : signed.payload.capability = .admin)
    (hadmitted : GrantAdmitted founder threshold S c signed) :
    Sound founder threshold S (c.appoint signed.payload.subject) := by
  have hle := Closure.le_appoint c signed.payload.subject
  have hadministers : signed.payload.capability.canAdminister = true := by rw [hcap]; rfl
  refine h.grow hle (.admin signed.payload.subject) (fun fact hheld => ?_)
    (fun hheld => ?_)
  · cases fact with
    | acts device user => exact Or.inr hheld
    | admin user =>
        rcases (Closure.mem_everAdmin_appoint _ _ _).mp hheld with rfl | hold
        · exact Or.inl rfl
        · exact Or.inr hold
    | executed digest => exact Or.inr hheld
  · obtain ⟨u, huser, hadmin, hauth⟩ := hadmitted
    have hissuer := (h (.acts _ _) huser).mono hle
    have hever := (h (.admin _) hadmin).mono hle
    rcases hauth with hone | hfounder | ⟨decided, hdecided, hexecuted, haction⟩
    · exact .appoint hmem hadministers hissuer hever (Or.inl hone) hheld
    · exact .appoint hmem hadministers hissuer hever (Or.inr hfounder) hheld
    · exact .appointByQuorum hmem hadministers hissuer hever hdecided haction
        ((h (.executed _) hexecuted).mono hle) hheld

theorem closure_sound (founder : Bytes32) (threshold : Nat) (S : Certificates) :
    Sound founder threshold S (closure founder threshold S) :=
  closure_induction founding_sound (fun _ hc _ hmem _ hfree hadm => hc.bind hmem hfree hadm)
    (fun _ hc _ hmem hquorate => hc.execute hmem hquorate)
    (fun _ hc _ hmem hcap hadmitted => hc.appoint hmem hcap hadmitted)

end

/-! ## The loop of `recompute` -/

/-- The loop of `recompute` ends, after at most one round for each certificate
it can apply and a last that applies none; what it ends with holds exactly the
facts that have a derivation; and no binding of a device without a user, no
quorate proposal and no authorised admin grant is left. -/
theorem recompute_settles (founder : Bytes32) (S : Certificates) :
    (∃ n ≤ roundBound S, Settles (Rule.step founder (S.resolveThreshold founder) S) (rules S)
        (.founding founder) n (recompute founder S).toClosure) ∧
      (∀ fact, (recompute founder S).Holds fact ↔
        Derives founder (S.resolveThreshold founder) S (recompute founder S).toClosure fact) ∧
      Closed founder (S.resolveThreshold founder) S (recompute founder S).toClosure :=
  ⟨closure_settles founder _ S,
    fun fact => ⟨closure_sound founder _ S fact, Derives.holds⟩,
    closure_closed founder _ S⟩

end IrohBeekem
