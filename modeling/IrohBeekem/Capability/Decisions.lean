import IrohBeekem.Capability.Growth

/-!
# Decisions about roles

`resolve_roles` weighs every decision in force about a user: the founding, the grants
the closure admits, and the role proposals it has executed.  Each has a generation
number and a digest, and the table keeps the highest.  Of two of one rank it keeps the
one it met first, so that the pass a decision is met in is a part of its weight.

`roleOf_iff_prevails` says that a user's role is the one the weightiest decision sets.
-/

namespace IrohBeekem

open Library

/-- A decision about a user's role, as the table weighs it. -/
structure Decision where
  user : Bytes32
  rank : Rank
  /-- How many passes come after the one it is met in. -/
  pass : Fin 3
  role : Role

def Decision.weight (d : Decision) : Rank ×ₗ Fin 3 := toLex (d.rank, d.pass)

theorem Decision.weight_lt {d d' : Decision} (h : d.rank < d'.rank) : d.weight < d'.weight :=
  Prod.Lex.toLex_lt_toLex.mpr (Or.inl h)

/-! ## The table -/

/-- The table holds the weightiest of these decisions about every user. -/
def RoleTable.Tracks (t : RoleTable) (met : Set Decision) : Prop :=
  ∀ u, (BTreeMap.get? t.best u = none ∧ BTreeMap.get? t.roles u = none ∧
      ∀ d ∈ met, d.user ≠ u) ∨
    ∃ d ∈ met, d.user = u ∧ BTreeMap.get? t.best u = some d.rank ∧
      BTreeMap.get? t.roles u = some d.role ∧ ∀ d' ∈ met, d'.user = u → d'.weight ≤ d.weight

namespace RoleTable.Tracks

variable {t : RoleTable} {met : Set Decision}

/-- One more decision, met in the same pass as the last or in a later one. -/
theorem consider (h : t.Tracks met) {e : Decision} (hlast : ∀ d ∈ met, e.pass ≤ d.pass) :
    (t.consider e.user e.rank e.role).Tracks (insert e met) := by
  intro u
  by_cases hu : u = e.user
  · subst hu
    right
    rcases h e.user with ⟨hbest, hroles, hnone⟩ | ⟨d, hd, hduser, hbest, hroles, hmax⟩
    · refine ⟨e, Set.mem_insert e met, rfl, ?_, ?_, ?_⟩
      · simp [RoleTable.consider, hbest, BTreeMap.get?_set]
      · simp [RoleTable.consider, hbest, BTreeMap.get?_set]
      · rintro d' (rfl | hd') hd'user
        · exact le_rfl
        · exact absurd hd'user (hnone d' hd')
    · by_cases hrank : d.rank < e.rank
      · refine ⟨e, Set.mem_insert e met, rfl, ?_, ?_, ?_⟩
        · simp [RoleTable.consider, hbest, hrank, BTreeMap.get?_set]
        · simp [RoleTable.consider, hbest, hrank, BTreeMap.get?_set]
        · rintro d' (rfl | hd') hd'user
          · exact le_rfl
          · exact (hmax d' hd' hd'user).trans (Decision.weight_lt hrank).le
      · refine ⟨d, Set.mem_insert_of_mem e hd, hduser, ?_, ?_, ?_⟩
        · simp [RoleTable.consider, hbest, hrank]
        · simp [RoleTable.consider, hbest, hrank, hroles]
        · rintro d' (rfl | hd') hd'user
          · rcases (not_lt.mp hrank).lt_or_eq with hlt | heq
            · exact (Decision.weight_lt hlt).le
            · exact Prod.Lex.toLex_le_toLex.mpr (Or.inr ⟨heq, hlast d hd⟩)
          · exact hmax d' hd' hd'user
  · have hkeep : BTreeMap.get? (t.consider e.user e.rank e.role).best u = BTreeMap.get? t.best u ∧
        BTreeMap.get? (t.consider e.user e.rank e.role).roles u = BTreeMap.get? t.roles u := by
      unfold RoleTable.consider
      dsimp only
      split_ifs
      · simp [BTreeMap.get?_set, hu]
      · exact ⟨rfl, rfl⟩
    rw [hkeep.1, hkeep.2]
    rcases h u with ⟨hbest, hroles, hnone⟩ | ⟨d, hd, hduser, hbest, hroles, hmax⟩
    · refine Or.inl ⟨hbest, hroles, ?_⟩
      rintro d' (rfl | hd')
      · exact Ne.symm hu
      · exact hnone d' hd'
    · refine Or.inr ⟨d, Set.mem_insert_of_mem e hd, hduser, hbest, hroles, ?_⟩
      rintro d' (rfl | hd') hd'user
      · exact absurd hd'user.symm hu
      · exact hmax d' hd' hd'user

/-- A pass over some certificates, each of which carries a decision or none. -/
theorem foldl {α : Type} {f : RoleTable → α → RoleTable} {carried : α → Option Decision}
    {k : Fin 3} (hf : ∀ t a, f t a = (carried a).elim t fun d => t.consider d.user d.rank d.role)
    (hpass : ∀ a d, carried a = some d → d.pass = k) (h : t.Tracks met)
    (hlast : ∀ d ∈ met, k ≤ d.pass) (l : List α) :
    (l.foldl f t).Tracks (met ∪ { d | ∃ a ∈ l, carried a = some d }) := by
  induction l generalizing t met with
  | nil =>
      have hmet : met ∪ { d | ∃ a ∈ ([] : List α), carried a = some d } = met := by
        ext d
        simp
      rw [hmet]
      exact h
  | cons a rest ih =>
      rw [List.foldl_cons, hf]
      cases hcarried : carried a with
      | none =>
          have hmet : met ∪ { d | ∃ b ∈ a :: rest, carried b = some d } =
              met ∪ { d | ∃ b ∈ rest, carried b = some d } := by
            ext d
            simp [hcarried]
          rw [hmet]
          exact ih h hlast
      | some e =>
          have hmet : met ∪ { d | ∃ b ∈ a :: rest, carried b = some d } =
              insert e met ∪ { d | ∃ b ∈ rest, carried b = some d } := by
            ext d
            simp only [Set.mem_union, Set.mem_ofPred_eq, List.mem_cons, exists_eq_or_imp, hcarried,
              Option.some.injEq, Set.mem_insert_iff]
            constructor
            · rintro (hd | hd | hd)
              · exact Or.inl (Or.inr hd)
              · exact Or.inl (Or.inl hd.symm)
              · exact Or.inr hd
            · rintro ((hd | hd) | hd)
              · exact Or.inr (Or.inl hd.symm)
              · exact Or.inl hd
              · exact Or.inr (Or.inr hd)
          have he : e.pass = k := hpass a e hcarried
          rw [hmet]
          refine ih (h.consider fun d hd => he ▸ hlast d hd) ?_
          rintro d (rfl | hd)
          · exact he.ge
          · exact hlast d hd

end RoleTable.Tracks

/-! ## Decisions in force -/

section InForce

variable [Keyhive] {founder : Bytes32} {threshold : Nat} {S : Certificates} {c : Closure}

/-- The founder's seed, below every real decision. -/
def Decision.seed (founder : Bytes32) : Decision := ⟨founder, toLex (0, 0), 2, .admin⟩

/-- What a grant decides. -/
def Decision.grant (signed : Signed Grant) : Decision where
  user := signed.payload.subject
  rank := toLex (signed.payload.seq, Certificate.digest (.grant signed))
  pass := 1
  role := signed.payload.capability

/-- What a proposal for this role decides once it is executed. -/
def Decision.proposal (signed : Signed AdminProposal) (user : Bytes32) (role : Role) : Decision where
  user := user
  rank := toLex (signed.payload.seq, Certificate.digest (.proposal signed))
  pass := 0
  role := role

/-- A decision the closure recognises. -/
inductive InForce (founder : Bytes32) (threshold : Nat) (S : Certificates) (c : Closure) :
    Decision → Prop where
  | seed : InForce founder threshold S c (.seed founder)
  | grant (signed : Signed Grant) (hmem : signed ∈ S.grants)
      (hadmitted : GrantAdmitted founder threshold S c signed) :
      InForce founder threshold S c (.grant signed)
  | proposal (signed : Signed AdminProposal) (user : Bytes32) (role : Role)
      (hmem : signed ∈ S.proposals)
      (hexecuted : Certificate.digest (.proposal signed) ∈ c.executed)
      (haction : signed.payload.action = .setRole user role) :
      InForce founder threshold S c (.proposal signed user role)

/-- No two decisions in force weigh the same. -/
theorem InForce.eq_of_weight_eq {d d' : Decision} (h : InForce founder threshold S c d)
    (h' : InForce founder threshold S c d') (hweight : d.weight = d'.weight) : d = d' := by
  have hrank : d.rank = d'.rank := congrArg (fun w => (ofLex w).1) hweight
  have hpass : d.pass = d'.pass := congrArg (fun w => (ofLex w).2) hweight
  have hdigest : (ofLex d.rank).2 = (ofLex d'.rank).2 := congrArg (fun r => (ofLex r).2) hrank
  cases h with
  | seed =>
      cases h' with
      | seed => rfl
      | grant signed' => exact absurd hpass (by simp [Decision.seed, Decision.grant])
      | proposal signed' => exact absurd hpass (by simp [Decision.seed, Decision.proposal])
  | grant signed hmem =>
      cases h' with
      | seed => exact absurd hpass (by simp [Decision.seed, Decision.grant])
      | grant signed' hmem' => rw [Keyed.eq_of_key_eq hmem hmem' hdigest]
      | proposal signed' => exact absurd hpass (by simp [Decision.grant, Decision.proposal])
  | proposal signed user role hmem _ haction =>
      cases h' with
      | seed => exact absurd hpass (by simp [Decision.seed, Decision.proposal])
      | grant signed' => exact absurd hpass (by simp [Decision.grant, Decision.proposal])
      | proposal signed' user' role' hmem' _ haction' =>
          obtain rfl := Keyed.eq_of_key_eq hmem hmem' hdigest
          obtain ⟨rfl, rfl⟩ := AdminAction.setRole.inj (haction.symm.trans haction')
          rfl

open Classical in
/-- What a grant contributes to the table. -/
noncomputable def carriedByGrant (founder : Bytes32) (threshold : Nat) (S : Certificates)
    (c : Closure) (signed : Signed Grant) : Option Decision :=
  if GrantAdmitted founder threshold S c signed then some (.grant signed) else none

/-- What a proposal contributes to the table. -/
def carriedByProposal (c : Closure) (signed : Signed AdminProposal) : Option Decision :=
  if ¬ c.executed.contains (Certificate.digest (.proposal signed)) then none
  else
    match signed.payload.action with
    | .removeMember _ => none
    | .setRole user role => some (.proposal signed user role)

theorem considerGrant_eq (t : RoleTable) (signed : Signed Grant) :
    considerGrant founder threshold S c t signed =
      (carriedByGrant founder threshold S c signed).elim t
        fun d => t.consider d.user d.rank d.role := by
  unfold carriedByGrant
  by_cases hadmitted : GrantAdmitted founder threshold S c signed
  · rw [considerGrant_of_admitted hadmitted, if_pos hadmitted]
    rfl
  · rw [considerGrant_of_not_admitted hadmitted, if_neg hadmitted]
    rfl

theorem considerProposal_eq (t : RoleTable) (signed : Signed AdminProposal) :
    considerProposal c t signed =
      (carriedByProposal c signed).elim t fun d => t.consider d.user d.rank d.role := by
  unfold considerProposal carriedByProposal
  split_ifs
  · cases signed.payload.action with
    | removeMember member => rfl
    | setRole user role => rfl
  · rfl

theorem carriedByProposal_eq_some {signed : Signed AdminProposal} {d : Decision} :
    carriedByProposal c signed = some d ↔
      Certificate.digest (.proposal signed) ∈ c.executed ∧
        ∃ user role, signed.payload.action = .setRole user role ∧ d = .proposal signed user role := by
  unfold carriedByProposal
  split_ifs with hexecuted
  · rw [BTreeSet.contains_iff] at hexecuted
    cases haction : signed.payload.action with
    | removeMember member => simp
    | setRole user role => simp [hexecuted, eq_comm]
  · rw [BTreeSet.contains_iff] at hexecuted
    simp [hexecuted]

theorem carriedByGrant_eq_some {signed : Signed Grant} {d : Decision} :
    carriedByGrant founder threshold S c signed = some d ↔
      GrantAdmitted founder threshold S c signed ∧ d = .grant signed := by
  unfold carriedByGrant
  split_ifs with hadmitted
  · simp [hadmitted, eq_comm]
  · simp [hadmitted]

/-- The table `resolve_roles` ends with tracks the decisions in force. -/
theorem resolveRoles_tracks (founder : Bytes32) (threshold : Nat) (S : Certificates)
    (c : Closure) :
    (S.proposals.toList.foldl (considerProposal c)
      (S.grants.toList.foldl (considerGrant founder threshold S c)
        (RoleTable.seed founder))).Tracks { d | InForce founder threshold S c d } := by
  have hseed : (RoleTable.seed founder).Tracks {Decision.seed founder} := by
    intro u
    by_cases hu : u = founder
    · refine Or.inr ⟨.seed founder, rfl, hu.symm, ?_, ?_, ?_⟩
      · simp [RoleTable.seed, BTreeMap.get?_set, hu, Decision.seed]
      · simp [RoleTable.seed, BTreeMap.get?_set, hu, Decision.seed]
      · rintro d rfl _
        exact le_rfl
    · refine Or.inl ⟨?_, ?_, ?_⟩
      · simp [RoleTable.seed, BTreeMap.get?_set, hu]
      · simp [RoleTable.seed, BTreeMap.get?_set, hu]
      · rintro d rfl
        exact Ne.symm hu
  have hgrantPass : ∀ signed d, carriedByGrant founder threshold S c signed = some d →
      d.pass = 1 := by
    intro signed d h
    obtain ⟨-, rfl⟩ := carriedByGrant_eq_some.mp h
    rfl
  have hproposalPass : ∀ signed d, carriedByProposal c signed = some d → d.pass = 0 := by
    intro signed d h
    obtain ⟨-, user, role, -, rfl⟩ := carriedByProposal_eq_some.mp h
    rfl
  have hgrants : (S.grants.toList.foldl (considerGrant founder threshold S c)
      (RoleTable.seed founder)).Tracks ({Decision.seed founder} ∪
        { d | ∃ a ∈ S.grants.toList, carriedByGrant founder threshold S c a = some d }) := by
    refine hseed.foldl considerGrant_eq hgrantPass ?_ _
    rintro d rfl
    exact (by decide : (1 : Fin 3) ≤ 2)
  have hproposals := hgrants.foldl considerProposal_eq hproposalPass
    (fun d _ => Fin.zero_le d.pass) S.proposals.toList
  have hmet : ({Decision.seed founder} ∪
      { d | ∃ a ∈ S.grants.toList, carriedByGrant founder threshold S c a = some d }) ∪
        { d | ∃ a ∈ S.proposals.toList, carriedByProposal c a = some d } =
      { d | InForce founder threshold S c d } := by
    ext d
    constructor
    · rintro ((rfl | ⟨signed, hmem, h⟩) | ⟨signed, hmem, h⟩)
      · exact .seed
      · obtain ⟨hadmitted, rfl⟩ := carriedByGrant_eq_some.mp h
        exact .grant signed hmem hadmitted
      · obtain ⟨hexecuted, user, role, haction, rfl⟩ := carriedByProposal_eq_some.mp h
        exact .proposal signed user role hmem hexecuted haction
    · intro h
      cases h with
      | seed => exact Or.inl (Or.inl rfl)
      | grant signed hmem hadmitted =>
          exact Or.inl (Or.inr ⟨signed, hmem, carriedByGrant_eq_some.mpr ⟨hadmitted, rfl⟩⟩)
      | proposal signed user role hmem hexecuted haction =>
          exact Or.inr ⟨signed, hmem,
            carriedByProposal_eq_some.mpr ⟨hexecuted, user, role, haction, rfl⟩⟩
  rw [← hmet]
  exact hproposals

end InForce

namespace CapabilityStore

variable [Keyhive] {s : CapabilityStore} {user : Bytes32} {role : Role}

/-- The decisions in force in a store. -/
def InForce (s : CapabilityStore) : Decision → Prop :=
  IrohBeekem.InForce s.founder s.threshold s.certs s.derived.toClosure

/-- A grant the store holds and admits. -/
def Admits (s : CapabilityStore) (signed : Signed Grant) : Prop :=
  signed ∈ s.certs.grants ∧
    GrantAdmitted s.founder s.threshold s.certs s.derived.toClosure signed

/-- A proposal the store holds and has executed. -/
def Executes (s : CapabilityStore) (signed : Signed AdminProposal) : Prop :=
  signed ∈ s.certs.proposals ∧ s.isExecutable (Certificate.digest (.proposal signed)) = true

theorem Admits.inForce {signed : Signed Grant} (h : s.Admits signed) :
    s.InForce (.grant signed) :=
  .grant signed h.1 h.2

theorem Executes.inForce {signed : Signed AdminProposal} (h : s.Executes signed)
    (haction : signed.payload.action = .setRole user role) :
    s.InForce (.proposal signed user role) :=
  .proposal signed user role h.1 (BTreeSet.contains_iff.mp h.2) haction

/-- The weightiest decision in force about this user sets this role. -/
def Prevails (s : CapabilityStore) (user : Bytes32) (role : Role) : Prop :=
  ∃ d, s.InForce d ∧ d.user = user ∧ d.role = role ∧
    ∀ d', s.InForce d' → d'.user = user → d'.weight ≤ d.weight

/-- There is a weightiest decision about a user, and it sets the role, unless there is none
at all. -/
theorem roleOf_cases (s : CapabilityStore) (user : Bytes32) :
    (s.roleOf user = none ∧ ∀ d, s.InForce d → d.user ≠ user) ∨
      ∃ d, s.InForce d ∧ d.user = user ∧ s.roleOf user = some d.role ∧
        ∀ d', s.InForce d' → d'.user = user → d'.weight ≤ d.weight := by
  unfold CapabilityStore.InForce threshold roleOf
  rw [s.settled]
  rcases resolveRoles_tracks s.founder (s.certs.resolveThreshold s.founder) s.certs
      (closure s.founder (s.certs.resolveThreshold s.founder) s.certs) user with
    ⟨-, hnone, hfree⟩ | ⟨d, hd, huser, -, hrole, hmax⟩
  · exact Or.inl ⟨hnone, hfree⟩
  · exact Or.inr ⟨d, hd, huser, hrole, hmax⟩

/-- A user's role is the one that prevails. -/
theorem roleOf_iff_prevails : s.roleOf user = some role ↔ s.Prevails user role := by
  rcases s.roleOf_cases user with ⟨hnone, hfree⟩ | ⟨d, hd, huser, hrole, hmax⟩
  · constructor
    · intro h
      exact absurd (hnone.symm.trans h) (by simp)
    · rintro ⟨d, hd, huser, -⟩
      exact absurd huser (hfree d hd)
  · constructor
    · intro h
      exact ⟨d, hd, huser, Option.some.inj (hrole.symm.trans h), hmax⟩
    · rintro ⟨d', hd', huser', rfl, hmax'⟩
      have hweight := le_antisymm (hmax d' hd' huser') (hmax' d hd huser)
      rw [hd'.eq_of_weight_eq hd hweight]
      exact hrole

/-- A decision in force prevails if every one in force for another role weighs less. -/
theorem prevails_of_others {d : Decision} (h : s.InForce d) (huser : d.user = user)
    (hothers : ∀ d', s.InForce d' → d'.user = user → d'.role ≠ role → d'.weight < d.weight) :
    s.Prevails user role := by
  rcases s.roleOf_cases user with ⟨-, hfree⟩ | ⟨top, htop, htopuser, -, hmax⟩
  · exact absurd huser (hfree d h)
  · refine ⟨top, htop, htopuser, ?_, hmax⟩
    by_contra hne
    exact absurd (hmax d h huser) (not_le.mpr (hothers top htop htopuser hne))

end CapabilityStore

end IrohBeekem
