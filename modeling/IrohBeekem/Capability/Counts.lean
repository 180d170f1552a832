import IrohBeekem.Capability.Decisions

/-!
# What the last-admin guard counts

The guard reads two numbers off a store: how many devices a user is certified for, and
how many users are administrators.  Both are counts of certificates, and a removal
changes neither.

A grant of a lesser role is the one certificate the guard weighs.  It moves nobody's
devices, and no role but its subject's (`Demotes`).
-/

namespace IrohBeekem

open Library

variable [Keyhive]

namespace CapabilityStore

variable {s s' : CapabilityStore} {user device : Bytes32}

/-! ## Counts -/

theorem mem_devicesOf : device ∈ s.devicesOf user ↔ s.userOf device = some user := by
  unfold devicesOf userOf Closure.user
  rw [BTreeMap.get?_eq_some, List.mem_map]
  constructor
  · rintro ⟨⟨d, u⟩, hmem, rfl⟩
    obtain ⟨hentry, huser⟩ := List.mem_filter.mp hmem
    obtain rfl : u = user := by simpa using huser
    exact hentry
  · intro hmem
    exact ⟨(device, user), List.mem_filter.mpr ⟨hmem, by simp⟩, rfl⟩

theorem devicesOf_nodup (s : CapabilityStore) (user : Bytes32) : (s.devicesOf user).Nodup := by
  have hkeys : (s.derived.deviceUser.toList.map Prod.fst).Nodup :=
    List.pairwise_map.mpr (s.derived.deviceUser.ascending.imp fun hlt => hlt.ne)
  exact hkeys.sublist (List.filter_sublist.map _)

/-- A user with two devices has one beside any given. -/
theorem exists_other_device (h : ¬ (s.devicesOf user).length ≤ 1) (device : Bytes32) :
    ∃ d, s.userOf d = some user ∧ d ≠ device := by
  by_contra hnone
  have hall : ∀ d ∈ s.devicesOf user, d = device := by
    intro d hd
    by_contra hne
    exact hnone ⟨d, mem_devicesOf.mp hd, hne⟩
  have hsub : s.devicesOf user ⊆ [device] := by
    intro d hd
    exact List.mem_singleton.mpr (hall d hd)
  exact h ((s.devicesOf_nodup user).subperm hsub).length_le

omit [Keyhive] in
theorem canAdminister_iff {role : Role} : role.canAdminister = true ↔ role = .admin := by
  cases role <;> decide

/-- With two administrators there is one beside any given. -/
theorem exists_other_admin (h : ¬ s.adminCount ≤ 1) (user : Bytes32) :
    ∃ u, s.roleOf u = some .admin ∧ u ≠ user := by
  by_contra hnone
  have hkeys : ((s.derived.roles.toList.filter fun entry => entry.2.canAdminister).map
      Prod.fst).Nodup :=
    (List.pairwise_map.mpr (s.derived.roles.ascending.imp fun hlt => hlt.ne)).sublist
      (List.filter_sublist.map _)
  have hsub : (s.derived.roles.toList.filter fun entry => entry.2.canAdminister).map Prod.fst ⊆
      [user] := by
    intro u hu
    obtain ⟨⟨u', role⟩, hmem, rfl⟩ := List.mem_map.mp hu
    obtain ⟨hmem, hadmin⟩ := List.mem_filter.mp hmem
    obtain rfl := canAdminister_iff.mp hadmin
    by_contra hne
    refine hnone ⟨u', ?_, fun heq => hne (List.mem_singleton.mpr heq)⟩
    exact BTreeMap.get?_eq_some.mpr hmem
  refine h ?_
  calc s.adminCount
      = ((s.derived.roles.toList.filter fun entry => entry.2.canAdminister).map
          Prod.fst).length := (List.length_map _).symm
    _ ≤ [user].length := (hkeys.subperm hsub).length_le
    _ = 1 := rfl

/-- The founder is an administrator until somebody decides otherwise. -/
theorem roleOf_founder
    (hgrants : ∀ signed ∈ s.certs.grants, signed.payload.subject = s.founder →
      signed.payload.capability = .admin)
    (hproposals : ∀ signed ∈ s.certs.proposals, ∀ role,
      signed.payload.action = .setRole s.founder role → role = .admin) :
    s.roleOf s.founder = some .admin := by
  rcases s.roleOf_cases s.founder with ⟨-, hfree⟩ | ⟨d, hd, huser, hrole, -⟩
  · exact absurd rfl (hfree _ .seed)
  · rw [hrole]
    cases hd with
    | seed => rfl
    | grant signed hmem hadmitted => exact congrArg some (hgrants signed hmem huser)
    | proposal signed user role hmem hexecuted haction =>
        obtain rfl : user = s.founder := huser
        exact congrArg some (hproposals signed hmem role haction)

end CapabilityStore

/-! ## Grants of a lesser role -/

/-- These certificates are the first ones and grants of a lesser role for this user. -/
structure Certificates.Lessened (user : Bytes32) (S S' : Certificates) : Prop where
  kept : S ⊆ S'
  gained : ∀ x ∈ S', x ∈ S ∨ ∃ signed : Signed Grant, x = .grant signed ∧
    signed.payload.subject = user ∧ signed.payload.capability ≠ .admin

namespace Certificates.Lessened

variable {founder user : Bytes32} {threshold : Nat} {S S' : Certificates}

theorem bindings_eq (h : Lessened user S S') : S'.bindings = S.bindings := by
  refine Keyed.ext_mem fun signed => ⟨fun hmem => ?_, fun hmem => h.kept (.binding signed) hmem⟩
  rcases h.gained (.binding signed) hmem with hmem | ⟨grant, heq, -⟩
  · exact hmem
  · exact absurd heq (by simp)

theorem proposals_eq (h : Lessened user S S') : S'.proposals = S.proposals := by
  refine Keyed.ext_mem fun signed => ⟨fun hmem => ?_, fun hmem => h.kept (.proposal signed) hmem⟩
  rcases h.gained (.proposal signed) hmem with hmem | ⟨grant, heq, -⟩
  · exact hmem
  · exact absurd heq (by simp)

theorem approvals_eq (h : Lessened user S S') : S'.approvals = S.approvals := by
  refine Keyed.ext_mem fun signed => ⟨fun hmem => ?_, fun hmem => h.kept (.approval signed) hmem⟩
  rcases h.gained (.approval signed) hmem with hmem | ⟨grant, heq, -⟩
  · exact hmem
  · exact absurd heq (by simp)

theorem policies_eq (h : Lessened user S S') : S'.policies = S.policies := by
  refine Keyed.ext_mem fun signed => ⟨fun hmem => ?_, fun hmem => h.kept (.policy signed) hmem⟩
  rcases h.gained (.policy signed) hmem with hmem | ⟨grant, heq, -⟩
  · exact hmem
  · exact absurd heq (by simp)

/-- The rules that may fire: all but the grants of a lesser role. -/
private def mayFire : Rule → Bool
  | .grant signed => signed.payload.capability.canAdminister
  | _ => true

private theorem step_of_not_mayFire (r : Rule) (hr : mayFire r = false) (c : Closure) :
    r.step founder threshold S c = none := by
  cases r with
  | binding signed => exact absurd hr (by simp [mayFire])
  | proposal signed => exact absurd hr (by simp [mayFire])
  | grant signed =>
      have hlesser : ¬ signed.payload.capability.canAdminister = true := by
        simpa [mayFire] using hr
      show grantStep founder threshold S signed c = none
      unfold grantStep
      rw [if_pos hlesser]

private theorem rules_mayFire (h : Lessened user S S') :
    (rules S').filter mayFire = (rules S).filter mayFire := by
  have hgrants : (S'.grants.filter fun signed => signed.payload.capability.canAdminister) =
      S.grants.filter fun signed => signed.payload.capability.canAdminister := by
    refine Keyed.ext_mem fun signed => ?_
    rw [Keyed.mem_filter, Keyed.mem_filter]
    constructor
    · rintro ⟨hmem, hadmin⟩
      rcases h.gained (.grant signed) hmem with hmem | ⟨grant, heq, -, hlesser⟩
      · exact ⟨hmem, hadmin⟩
      · obtain rfl := Certificate.grant.inj heq
        exact absurd (CapabilityStore.canAdminister_iff.mp hadmin) hlesser
    · exact fun hs => ⟨h.kept (.grant signed) hs.1, hs.2⟩
  have hlist : (S'.grants.toList.filter fun signed => signed.payload.capability.canAdminister) =
      S.grants.toList.filter fun signed => signed.payload.capability.canAdminister :=
    congrArg Keyed.toList hgrants
  have hmap : ∀ T : Certificates, (T.grants.toList.map Rule.grant).filter mayFire =
      (T.grants.toList.filter fun signed => signed.payload.capability.canAdminister).map
        Rule.grant := by
    intro T
    rw [List.filter_map]
    rfl
  unfold rules
  rw [h.bindings_eq, h.proposals_eq, List.filter_append, hmap, hlist, List.filter_append _ (S.grants.toList.map _), hmap]

/-- A grant of a lesser role leaves the closure as it was. -/
theorem closure_eq (h : Lessened user S S') :
    closure founder threshold S' = closure founder threshold S := by
  have hstep : Rule.step founder threshold S' = Rule.step founder threshold S := by
    funext r c
    cases r with
    | binding signed => rfl
    | proposal signed =>
        show proposalStep threshold S' signed c = proposalStep threshold S signed c
        unfold proposalStep
        rw [h.approvals_eq]
    | grant signed =>
        show grantStep founder threshold S' signed c = grantStep founder threshold S signed c
        unfold grantStep grantIsAuthorised executedAction
        rw [h.proposals_eq]
  have hlesser : ∀ T : Certificates, ∀ r ∈ rules T, mayFire r = false → ∀ c,
      Rule.step founder threshold S r c = none :=
    fun T r _ hr c => step_of_not_mayFire r hr c
  have hsame : ∀ fuel, saturate (Rule.step founder threshold S) (rules S') fuel
      (Closure.founding founder) =
        saturate (Rule.step founder threshold S) (rules S) fuel (Closure.founding founder) := by
    intro fuel
    rw [← saturate_filter (hlesser S'), h.rules_mayFire, saturate_filter (hlesser S)]
  have hbound : roundBound S ≤ roundBound S' := by
    have hgrants : S.grants.size ≤ S'.grants.size := by
      have hkeys : ∀ v ∈ S.grants, Certificate.digest (.grant v) ∈
          S'.grants.toList.map fun signed => Certificate.digest (.grant signed) :=
        fun v hv => List.mem_map.mpr ⟨v, h.kept (.grant v) hv, rfl⟩
      calc S.grants.size
          ≤ (S'.grants.toList.map fun signed => Certificate.digest (.grant signed)).length :=
            Keyed.size_le_length hkeys
        _ = S'.grants.size := List.length_map _
    unfold roundBound
    rw [h.bindings_eq, h.proposals_eq]
    omega
  obtain ⟨extra, hextra⟩ := Nat.exists_eq_add_of_le hbound
  unfold closure
  rw [hstep, hsame, hextra]
  exact saturate_add extra (closure_quiet founder threshold S)

end Certificates.Lessened

namespace CapabilityStore

variable {s s' : CapabilityStore} {user u : Bytes32}

/-- The second store has gained grants of a lesser role for this user, and nothing else. -/
def Demotes (s : CapabilityStore) (user : Bytes32) (s' : CapabilityStore) : Prop :=
  s'.founder = s.founder ∧ Certificates.Lessened user s.certs s'.certs

theorem Demotes.threshold_eq (h : s.Demotes user s') : s'.threshold = s.threshold := by
  rw [CapabilityStore.threshold_eq, CapabilityStore.threshold_eq, h.1]
  unfold Certificates.resolveThreshold
  rw [h.2.policies_eq]

theorem Demotes.closure_eq (h : s.Demotes user s') :
    s'.derived.toClosure = s.derived.toClosure := by
  rw [CapabilityStore.closure_eq, CapabilityStore.closure_eq, h.threshold_eq, h.1, h.2.closure_eq]

theorem Demotes.userOf_eq (h : s.Demotes user s') (device : Bytes32) :
    s'.userOf device = s.userOf device := by
  show s'.derived.toClosure.user device = s.derived.toClosure.user device
  rw [h.closure_eq]

private theorem Demotes.grantAdmitted_iff (h : s.Demotes user s') (signed : Signed Grant) :
    GrantAdmitted s'.founder s'.threshold s'.certs s'.derived.toClosure signed ↔
      GrantAdmitted s.founder s.threshold s.certs s.derived.toClosure signed := by
  unfold GrantAdmitted ActionExecuted
  rw [h.closure_eq, h.threshold_eq, h.1, h.2.proposals_eq]

/-- The decisions about anybody else are the same. -/
theorem Demotes.inForce_iff (h : s.Demotes user s') {d : Decision} (hd : d.user ≠ user) :
    s'.InForce d ↔ s.InForce d := by
  constructor
  · intro hforce
    cases hforce with
    | seed =>
        rw [h.1]
        exact .seed
    | grant signed hmem hadmitted =>
        rcases h.2.gained (.grant signed) hmem with hmem | ⟨grant, heq, hsubject, -⟩
        · exact .grant signed hmem ((h.grantAdmitted_iff signed).mp hadmitted)
        · obtain rfl := Certificate.grant.inj heq
          exact absurd hsubject hd
    | proposal signed user role hmem hexecuted haction =>
        rw [h.2.proposals_eq] at hmem
        rw [h.closure_eq] at hexecuted
        exact .proposal signed user role hmem hexecuted haction
  · intro hforce
    cases hforce with
    | seed =>
        rw [← h.1]
        exact .seed
    | grant signed hmem hadmitted =>
        exact .grant signed (h.2.kept (.grant signed) hmem)
          ((h.grantAdmitted_iff signed).mpr hadmitted)
    | proposal signed user role hmem hexecuted haction =>
        refine .proposal signed user role (h.2.kept (.proposal signed) hmem) ?_ haction
        rw [h.closure_eq]
        exact hexecuted

/-- Nobody else's role changes. -/
theorem Demotes.roleOf_eq (h : s.Demotes user s') (hu : u ≠ user) (role : Role) :
    s'.roleOf u = some role ↔ s.roleOf u = some role := by
  rw [roleOf_iff_prevails, roleOf_iff_prevails]
  constructor
  · rintro ⟨d, hd, rfl, hrole, hmax⟩
    refine ⟨d, (h.inForce_iff hu).mp hd, rfl, hrole, fun d' hd' huser => ?_⟩
    exact hmax d' ((h.inForce_iff (huser ▸ hu)).mpr hd') huser
  · rintro ⟨d, hd, rfl, hrole, hmax⟩
    refine ⟨d, (h.inForce_iff hu).mpr hd, rfl, hrole, fun d' hd' huser => ?_⟩
    exact hmax d' ((h.inForce_iff (huser ▸ hu)).mp hd') huser

end CapabilityStore

end IrohBeekem
