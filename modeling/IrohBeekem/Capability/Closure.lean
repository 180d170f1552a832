import IrohBeekem.Capability.Store

/-!
# The closure of a certificate set

What the fixpoint of `recompute` means, without its loops.  Three predicates say
when a closure *enables* a certificate: `BindingAdmissible`, `ProposalQuorate`
and `GrantAdmitted`.  All three only look at the closure through lookups that
growth preserves, so they are monotone in the order `Closure.Le`.

The results later modules use are

* `closure_induction` — an invariant of the founding closure that survives the
  three additions holds of the closure of any certificate set;
* `closure_settles` — the loop ends, and how soon;
* `closure_closed` — the loop ends with nothing enabled left undone;
* `closure_supported` — everything in the closure was put there by a
  certificate the closure enables.
-/

namespace IrohBeekem

open Library

/-! ## The three additions -/

namespace Closure

/-- Certify a device for a user. -/
def bind (c : Closure) (device user : Bytes32) : Closure :=
  { c with deviceUser := BTreeMap.set c.deviceUser device user }

/-- Record a proposal as executed. -/
def execute (c : Closure) (digest : Bytes32) : Closure :=
  { c with executed := c.executed.insert digest }

/-- Record a user as having been an admin. -/
def appoint (c : Closure) (user : Bytes32) : Closure :=
  { c with everAdmin := c.everAdmin.insert user }

@[simp] theorem user_bind (c : Closure) (device user d : Bytes32) :
    (c.bind device user).user d = if d = device then some user else c.user d :=
  BTreeMap.get?_set

@[simp] theorem user_execute (c : Closure) (digest d : Bytes32) :
    (c.execute digest).user d = c.user d := rfl

@[simp] theorem user_appoint (c : Closure) (user d : Bytes32) :
    (c.appoint user).user d = c.user d := rfl

@[simp] theorem everAdmin_bind (c : Closure) (device user : Bytes32) :
    (c.bind device user).everAdmin = c.everAdmin := rfl

@[simp] theorem everAdmin_execute (c : Closure) (digest : Bytes32) :
    (c.execute digest).everAdmin = c.everAdmin := rfl

@[simp] theorem mem_everAdmin_appoint (c : Closure) (user u : Bytes32) :
    u ∈ (c.appoint user).everAdmin ↔ u = user ∨ u ∈ c.everAdmin :=
  BTreeSet.mem_insert

@[simp] theorem executed_bind (c : Closure) (device user : Bytes32) :
    (c.bind device user).executed = c.executed := rfl

@[simp] theorem executed_appoint (c : Closure) (user : Bytes32) :
    (c.appoint user).executed = c.executed := rfl

@[simp] theorem mem_executed_execute (c : Closure) (digest d : Bytes32) :
    d ∈ (c.execute digest).executed ↔ d = digest ∨ d ∈ c.executed :=
  BTreeSet.mem_insert

@[simp] theorem user_founding (founder d : Bytes32) :
    (founding founder).user d = if d = founder then some founder else none := by
  simp [founding, user, BTreeMap.get?_set]

@[simp] theorem mem_everAdmin_founding (founder u : Bytes32) :
    u ∈ (founding founder).everAdmin ↔ u = founder := by
  simp [founding]

@[simp] theorem not_mem_executed_founding (founder d : Bytes32) :
    d ∉ (founding founder).executed := by
  simp [founding]

theorem contains_deviceUser (c : Closure) (device : Bytes32) :
    c.deviceUser.contains device = false ↔ c.user device = none :=
  BTreeMap.get?_eq_none.symm

/-! ## The order -/

/-- One closure knows at least what another does, and agrees with it. -/
structure Le (c c' : Closure) : Prop where
  user : ∀ {d u : Bytes32}, c.user d = some u → c'.user d = some u
  everAdmin : ∀ {u : Bytes32}, u ∈ c.everAdmin → u ∈ c'.everAdmin
  executed : ∀ {d : Bytes32}, d ∈ c.executed → d ∈ c'.executed

instance : LE Closure := ⟨Le⟩

theorem le_refl (c : Closure) : c ≤ c := ⟨id, id, id⟩

theorem le_trans {a b c : Closure} (hab : a ≤ b) (hbc : b ≤ c) : a ≤ c :=
  ⟨fun h => hbc.user (hab.user h), fun h => hbc.everAdmin (hab.everAdmin h),
    fun h => hbc.executed (hab.executed h)⟩

theorem le_bind {c : Closure} {device : Bytes32} (user : Bytes32)
    (hfree : c.user device = none) : c ≤ c.bind device user := by
  refine ⟨fun {d u} h => ?_, id, id⟩
  rw [user_bind, if_neg]
  · exact h
  · rintro rfl
    rw [hfree] at h
    exact Option.some_ne_none u h.symm

theorem le_execute (c : Closure) (digest : Bytes32) : c ≤ c.execute digest :=
  ⟨id, id, fun h => (mem_executed_execute c digest _).mpr (Or.inr h)⟩

theorem le_appoint (c : Closure) (user : Bytes32) : c ≤ c.appoint user :=
  ⟨id, fun h => (mem_everAdmin_appoint c user _).mpr (Or.inr h), id⟩

theorem bind_le {c c' : Closure} {device user : Bytes32} (h : c ≤ c')
    (hbound : c'.user device = some user) : c.bind device user ≤ c' := by
  refine ⟨fun {d u} hd => ?_, h.everAdmin, h.executed⟩
  rw [user_bind] at hd
  split_ifs at hd with heq
  · rw [heq, hbound, hd]
  · exact h.user hd

theorem execute_le {c c' : Closure} {digest : Bytes32} (h : c ≤ c')
    (hmem : digest ∈ c'.executed) : c.execute digest ≤ c' := by
  refine ⟨h.user, h.everAdmin, fun {d} hd => ?_⟩
  rcases (mem_executed_execute c digest d).mp hd with rfl | hd
  · exact hmem
  · exact h.executed hd

theorem appoint_le {c c' : Closure} {user : Bytes32} (h : c ≤ c')
    (hmem : user ∈ c'.everAdmin) : c.appoint user ≤ c' := by
  refine ⟨h.user, fun {u} hu => ?_, h.executed⟩
  rcases (mem_everAdmin_appoint c user u).mp hu with rfl | hu
  · exact hmem
  · exact h.everAdmin hu

end Closure

/-! ## What a closure enables -/

/-- The device acts for a user that has ever been an admin. -/
def AdminDevice (c : Closure) (device : Bytes32) : Prop :=
  ∃ u, c.user device = some u ∧ u ∈ c.everAdmin

/-- A binding is admissible when its issuer is a device of the same user or of
an ever-admin. -/
def BindingAdmissible (c : Closure) (signed : Signed DeviceBinding) : Prop :=
  ∃ u, c.user signed.issuer = some u ∧ (u = signed.payload.user ∨ u ∈ c.everAdmin)

theorem AdminDevice.mono {c c' : Closure} {device : Bytes32} (hle : c ≤ c')
    (h : AdminDevice c device) : AdminDevice c' device := by
  obtain ⟨u, huser, hadmin⟩ := h
  exact ⟨u, hle.user huser, hle.everAdmin hadmin⟩

theorem BindingAdmissible.mono {c c' : Closure} {signed : Signed DeviceBinding}
    (hle : c ≤ c') (h : BindingAdmissible c signed) : BindingAdmissible c' signed := by
  obtain ⟨u, huser, h⟩ := h
  exact ⟨u, hle.user huser, h.imp_right hle.everAdmin⟩

theorem bindingStep_eq_some {c c' : Closure} {signed : Signed DeviceBinding} :
    bindingStep signed c = some c' ↔
      c.user signed.payload.device = none ∧ BindingAdmissible c signed ∧
        c' = c.bind signed.payload.device signed.payload.user := by
  unfold bindingStep BindingAdmissible
  cases hcontains : c.deviceUser.contains signed.payload.device with
  | true =>
      have hsome : c.user signed.payload.device ≠ none := fun h => by
        rw [(c.contains_deviceUser _).mpr h] at hcontains
        exact Bool.false_ne_true hcontains
      simp [hsome]
  | false =>
      have hnone := (c.contains_deviceUser _).mp hcontains
      cases huser : c.user signed.issuer with
      | none => simp
      | some u =>
          simp only [Bool.false_eq_true, if_false, hnone, BTreeSet.contains_iff, true_and,
            Option.some.injEq, exists_eq_left']
          split_ifs with h
          · simp [h, Closure.bind, eq_comm]
          · simp [h]

variable [Keyhive]

/-- A proposal is quorate when an ever-admin's device made it and enough
distinct ever-admins approved it. -/
def ProposalQuorate (threshold : Nat) (S : Certificates) (c : Closure)
    (signed : Signed AdminProposal) : Prop :=
  AdminDevice c signed.issuer ∧
    threshold ≤ (approvingUsers S.approvals c (Certificate.digest (.proposal signed))).size

/-- Some executed proposal is for exactly this action. -/
def ActionExecuted (S : Certificates) (c : Closure) (action : AdminAction) : Prop :=
  ∃ signed ∈ S.proposals, Certificate.digest (.proposal signed) ∈ c.executed ∧
    signed.payload.action = action

/-- A grant sets a role when an ever-admin's device issued it and the threshold
permits it. -/
def GrantAdmitted (founder : Bytes32) (threshold : Nat) (S : Certificates) (c : Closure)
    (signed : Signed Grant) : Prop :=
  ∃ u, c.user signed.issuer = some u ∧ u ∈ c.everAdmin ∧
    (threshold ≤ defaultThreshold ∨ u = founder ∨
      ActionExecuted S c (.setRole signed.payload.subject signed.payload.capability))

theorem mem_approvingUsers {S : Certificates} {c : Closure} {digest u : Bytes32} :
    u ∈ approvingUsers S.approvals c digest ↔
      u ∈ c.everAdmin ∧ ∃ signed ∈ S.approvals,
        signed.payload.proposal = digest ∧ c.user signed.issuer = some u := by
  unfold approvingUsers
  rw [BTreeSet.mem_ofList]
  simp only [List.mem_filter, List.mem_filterMap, decide_eq_true_eq, BTreeSet.contains_iff]
  constructor
  · rintro ⟨⟨signed, ⟨hmem, hprop⟩, huser⟩, hadmin⟩
    exact ⟨hadmin, signed, hmem, hprop, huser⟩
  · rintro ⟨hadmin, signed, hmem, hprop, huser⟩
    exact ⟨⟨signed, ⟨hmem, hprop⟩, huser⟩, hadmin⟩

theorem executedAction_iff {S : Certificates} {c : Closure} {action : AdminAction} :
    executedAction S c.executed action = true ↔ ActionExecuted S c action := by
  simp only [executedAction, List.any_eq_true, ActionExecuted]
  constructor
  · rintro ⟨digest, hmem, h⟩
    cases hfind : S.proposals.find? digest with
    | none =>
        rw [hfind] at h
        exact absurd h Bool.false_ne_true
    | some signed =>
        rw [hfind] at h
        obtain ⟨hsigned, rfl⟩ := Keyed.find?_eq_some.mp hfind
        exact ⟨signed, hsigned, hmem, by simpa using h⟩
  · rintro ⟨signed, hsigned, hmem, haction⟩
    refine ⟨_, hmem, ?_⟩
    rw [Keyed.find?_eq_some.mpr ⟨hsigned, rfl⟩]
    simpa using haction

theorem grantIsAuthorised_iff (threshold : Nat) (u founder : Bytes32) (grant : Grant)
    (c : Closure) (S : Certificates) :
    grantIsAuthorised threshold u founder grant c.executed S = true ↔
      threshold ≤ defaultThreshold ∨ u = founder ∨
        ActionExecuted S c (.setRole grant.subject grant.capability) := by
  unfold grantIsAuthorised
  split_ifs with h
  · rcases h with h | h
    · simp [h]
    · simp [h]
  · rw [executedAction_iff]
    tauto

/-! ## Growth preserves what is enabled -/

/-- More approvals and a larger closure give a proposal more approvers. -/
theorem approvingUsers_size_mono {S S' : Certificates} {c c' : Closure} {digest : Bytes32}
    (hS : ∀ signed ∈ S.approvals, signed ∈ S'.approvals) (hle : c ≤ c') :
    (approvingUsers S.approvals c digest).size ≤
      (approvingUsers S'.approvals c' digest).size := by
  rw [BTreeSet.size_eq_card, BTreeSet.size_eq_card]
  refine Finset.card_le_card fun u hu => ?_
  obtain ⟨hadmin, signed, hmem, hprop, huser⟩ :=
    mem_approvingUsers.mp (BTreeSet.mem_toFinset.mp hu)
  exact BTreeSet.mem_toFinset.mpr
    (mem_approvingUsers.mpr ⟨hle.everAdmin hadmin, signed, hS _ hmem, hprop, hle.user huser⟩)

theorem ProposalQuorate.mono {threshold : Nat} {S S' : Certificates} {c c' : Closure}
    {signed : Signed AdminProposal} (hS : ∀ signed ∈ S.approvals, signed ∈ S'.approvals)
    (hle : c ≤ c') (h : ProposalQuorate threshold S c signed) :
    ProposalQuorate threshold S' c' signed :=
  ⟨h.1.mono hle, Nat.le_trans h.2 (approvingUsers_size_mono hS hle)⟩

theorem ActionExecuted.mono {S S' : Certificates} {c c' : Closure} {action : AdminAction}
    (hS : ∀ signed ∈ S.proposals, signed ∈ S'.proposals) (hle : c ≤ c')
    (h : ActionExecuted S c action) : ActionExecuted S' c' action := by
  obtain ⟨signed, hmem, hexec, haction⟩ := h
  exact ⟨signed, hS _ hmem, hle.executed hexec, haction⟩

theorem GrantAdmitted.mono {founder : Bytes32} {threshold : Nat} {S S' : Certificates}
    {c c' : Closure} {signed : Signed Grant}
    (hS : ∀ signed ∈ S.proposals, signed ∈ S'.proposals) (hle : c ≤ c')
    (h : GrantAdmitted founder threshold S c signed) :
    GrantAdmitted founder threshold S' c' signed := by
  obtain ⟨u, huser, hadmin, h⟩ := h
  exact ⟨u, hle.user huser, hle.everAdmin hadmin,
    h.imp_right fun h => h.imp_right fun h => h.mono hS hle⟩

/-! ## Inversion of the loop bodies -/

section Loops

variable {founder : Bytes32} {threshold : Nat} {S : Certificates} {c c' : Closure}

theorem proposalStep_eq_some {signed : Signed AdminProposal} :
    proposalStep threshold S signed c = some c' ↔
      Certificate.digest (.proposal signed) ∉ c.executed ∧
        ProposalQuorate threshold S c signed ∧
        c' = c.execute (Certificate.digest (.proposal signed)) := by
  unfold proposalStep ProposalQuorate AdminDevice
  cases hcontains : c.executed.contains (Certificate.digest (.proposal signed)) with
  | true => simp [hcontains, BTreeSet.contains_iff.mp hcontains]
  | false =>
      have hnot := BTreeSet.contains_eq_false.mp hcontains
      cases huser : c.user signed.issuer with
      | none => simp
      | some u =>
          simp only [hcontains, Bool.false_eq_true, if_false, BTreeSet.contains_iff,
            Option.some.injEq, exists_eq_left', hnot, not_false_eq_true, true_and]
          split_ifs with hadmin hsize
          · simp [hadmin, hsize, Closure.execute, eq_comm]
          · simp [hsize]
          · simp [hadmin]

theorem grantStep_eq_some {signed : Signed Grant} :
    grantStep founder threshold S signed c = some c' ↔
      signed.payload.capability = .admin ∧ signed.payload.subject ∉ c.everAdmin ∧
        GrantAdmitted founder threshold S c signed ∧
        c' = c.appoint signed.payload.subject := by
  unfold grantStep GrantAdmitted
  have hcap : signed.payload.capability.canAdminister = true ↔
      signed.payload.capability = .admin := by
    cases signed.payload.capability <;> simp [Role.canAdminister]
  simp only [hcap]
  by_cases hadmin : signed.payload.capability = .admin
  · cases huser : c.user signed.issuer with
    | none => simp
    | some u =>
        have hauth := grantIsAuthorised_iff threshold u founder signed.payload c S
        simp only [hadmin] at hauth
        simp only [hadmin, not_true_eq_false, if_false, BTreeSet.contains_iff,
          Option.some.injEq, exists_eq_left', true_and, ← hauth]
        split_ifs with hever hok hsubject
        · simp [hsubject]
        · simp [hsubject, hever, hok, Closure.appoint, eq_comm]
        · simp [hok]
        · simp [hever]
  · simp [hadmin]

/-- Everything an iteration of the three loops can do. -/
theorem Rule.step_cases {r : Rule} (hr : r ∈ rules S)
    (hstep : r.step founder threshold S c = some c') :
    (∃ signed ∈ S.bindings, c.user signed.payload.device = none ∧
      BindingAdmissible c signed ∧
      c' = c.bind signed.payload.device signed.payload.user) ∨
    (∃ signed ∈ S.proposals, Certificate.digest (.proposal signed) ∉ c.executed ∧
      ProposalQuorate threshold S c signed ∧
      c' = c.execute (Certificate.digest (.proposal signed))) ∨
    (∃ signed ∈ S.grants, signed.payload.capability = .admin ∧
      signed.payload.subject ∉ c.everAdmin ∧ GrantAdmitted founder threshold S c signed ∧
      c' = c.appoint signed.payload.subject) := by
  simp only [rules, List.mem_append, List.mem_map] at hr
  rcases hr with (⟨signed, hmem, rfl⟩ | ⟨signed, hmem, rfl⟩) | ⟨signed, hmem, rfl⟩
  · exact Or.inl ⟨signed, hmem, bindingStep_eq_some.mp hstep⟩
  · exact Or.inr (Or.inl ⟨signed, hmem, proposalStep_eq_some.mp hstep⟩)
  · exact Or.inr (Or.inr ⟨signed, hmem, grantStep_eq_some.mp hstep⟩)

/-! ## Induction, closedness and support -/

/-- A property of the founding closure that the three additions preserve holds
of the closure of every certificate set.  The founder is bound from the start,
so no binding of it is ever added. -/
theorem closure_induction {I : Closure → Prop} (hfounding : I (.founding founder))
    (hbind : ∀ c, I c → ∀ signed ∈ S.bindings, signed.payload.device ≠ founder →
      c.user signed.payload.device = none → BindingAdmissible c signed →
      I (c.bind signed.payload.device signed.payload.user))
    (hexecute : ∀ c, I c → ∀ signed ∈ S.proposals, ProposalQuorate threshold S c signed →
      I (c.execute (Certificate.digest (.proposal signed))))
    (happoint : ∀ c, I c → ∀ signed ∈ S.grants, signed.payload.capability = .admin →
      GrantAdmitted founder threshold S c signed → I (c.appoint signed.payload.subject)) :
    I (closure founder threshold S) := by
  suffices h : I (closure founder threshold S) ∧
      (closure founder threshold S).user founder = some founder from h.1
  refine saturate_induction
    (I := fun c => I c ∧ c.user founder = some founder) ⟨hfounding, by simp⟩ ?_
  rintro r hr c c' ⟨hc, hfounder⟩ hstep
  rcases Rule.step_cases hr hstep with ⟨signed, hmem, hfree, hadm, rfl⟩ |
    ⟨signed, hmem, -, hquorate, rfl⟩ | ⟨signed, hmem, hcap, -, hgrant, rfl⟩
  · have hne : signed.payload.device ≠ founder := by
      rintro heq
      rw [heq, hfounder] at hfree
      exact Option.some_ne_none _ hfree
    exact ⟨hbind c hc signed hmem hne hfree hadm,
      (Closure.le_bind signed.payload.user hfree).user hfounder⟩
  · exact ⟨hexecute c hc signed hmem hquorate, hfounder⟩
  · exact ⟨happoint c hc signed hmem hcap hgrant, hfounder⟩

/-- Every entry of a closure comes from a certificate it enables. -/
structure Supported (founder : Bytes32) (threshold : Nat) (S : Certificates) (c : Closure) :
    Prop where
  founder_user : c.user founder = some founder
  founder_admin : founder ∈ c.everAdmin
  user : ∀ d u, c.user d = some u → d = founder ∧ u = founder ∨
    d ≠ founder ∧ ∃ signed ∈ S.bindings, signed.payload.device = d ∧
      signed.payload.user = u ∧ BindingAdmissible c signed
  executed : ∀ digest ∈ c.executed, ∃ signed ∈ S.proposals,
    Certificate.digest (.proposal signed) = digest ∧ ProposalQuorate threshold S c signed
  everAdmin : ∀ u ∈ c.everAdmin, u = founder ∨ ∃ signed ∈ S.grants,
    signed.payload.subject = u ∧ signed.payload.capability = .admin ∧
      GrantAdmitted founder threshold S c signed

/-- Support survives growth: what an earlier closure enabled, the later one
still does. -/
private theorem Supported.grow {founder : Bytes32} {threshold : Nat} {S : Certificates}
    {c c' : Closure} (h : Supported founder threshold S c) (hle : c ≤ c')
    (huser : ∀ d u, c'.user d = some u → c.user d = some u ∨
      d ≠ founder ∧ ∃ signed ∈ S.bindings, signed.payload.device = d ∧
        signed.payload.user = u ∧ BindingAdmissible c signed)
    (hexecuted : ∀ digest ∈ c'.executed, digest ∈ c.executed ∨ ∃ signed ∈ S.proposals,
      Certificate.digest (.proposal signed) = digest ∧ ProposalQuorate threshold S c signed)
    (hadmin : ∀ u ∈ c'.everAdmin, u ∈ c.everAdmin ∨ ∃ signed ∈ S.grants,
      signed.payload.subject = u ∧ signed.payload.capability = .admin ∧
        GrantAdmitted founder threshold S c signed) :
    Supported founder threshold S c' := by
  refine
    { founder_user := hle.user h.founder_user
      founder_admin := hle.everAdmin h.founder_admin
      user := fun d u hd => ?_
      executed := fun digest hdigest => ?_
      everAdmin := fun u hu => ?_ }
  · have hd' : d = founder ∧ u = founder ∨ d ≠ founder ∧ ∃ signed ∈ S.bindings,
        signed.payload.device = d ∧ signed.payload.user = u ∧ BindingAdmissible c signed := by
      rcases huser d u hd with hd | hd
      · exact h.user d u hd
      · exact Or.inr hd
    rcases hd' with hd | ⟨hne, signed, hmem, hdev, hus, hadm⟩
    · exact Or.inl hd
    · exact Or.inr ⟨hne, signed, hmem, hdev, hus, hadm.mono hle⟩
  · have hdigest' : ∃ signed ∈ S.proposals, Certificate.digest (.proposal signed) = digest ∧
        ProposalQuorate threshold S c signed := by
      rcases hexecuted digest hdigest with hd | hd
      · exact h.executed digest hd
      · exact hd
    obtain ⟨signed, hmem, heq, hq⟩ := hdigest'
    exact ⟨signed, hmem, heq, hq.mono (fun _ => id) hle⟩
  · have hu' : u = founder ∨ ∃ signed ∈ S.grants, signed.payload.subject = u ∧
        signed.payload.capability = .admin ∧ GrantAdmitted founder threshold S c signed := by
      rcases hadmin u hu with hu | hu
      · exact h.everAdmin u hu
      · exact Or.inr hu
    rcases hu' with hu | ⟨signed, hmem, hsub, hcap, hg⟩
    · exact Or.inl hu
    · exact Or.inr ⟨signed, hmem, hsub, hcap, hg.mono (fun _ => id) hle⟩

theorem closure_supported (founder : Bytes32) (threshold : Nat) (S : Certificates) :
    Supported founder threshold S (closure founder threshold S) := by
  refine closure_induction ?_ ?_ ?_ ?_
  · refine
      { founder_user := by simp
        founder_admin := by simp
        user := fun d u hd => ?_
        executed := fun digest hdigest => ?_
        everAdmin := fun u hu => ?_ }
    · rw [Closure.user_founding] at hd
      split_ifs at hd with heq
      · exact Or.inl ⟨heq, (Option.some.inj hd).symm⟩
    · exact absurd hdigest (Closure.not_mem_executed_founding founder digest)
    · exact Or.inl ((Closure.mem_everAdmin_founding founder u).mp hu)
  · intro c hc signed hmem hne hfree hadm
    refine hc.grow (Closure.le_bind _ hfree) (fun d u hd => ?_) (fun _ => Or.inl)
      (fun _ => Or.inl)
    rw [Closure.user_bind] at hd
    split_ifs at hd with heq
    · exact Or.inr ⟨heq ▸ hne, signed, hmem, heq.symm, Option.some.inj hd, hadm⟩
    · exact Or.inl hd
  · intro c hc signed hmem hq
    refine hc.grow (Closure.le_execute _ _) (fun _ _ => Or.inl) (fun digest hd => ?_)
      (fun _ => Or.inl)
    rcases (Closure.mem_executed_execute _ _ _).mp hd with rfl | hd
    · exact Or.inr ⟨signed, hmem, rfl, hq⟩
    · exact Or.inl hd
  · intro c hc signed hmem hcap hg
    refine hc.grow (Closure.le_appoint _ _) (fun _ _ => Or.inl) (fun _ => Or.inl)
      (fun u hu => ?_)
    rcases (Closure.mem_everAdmin_appoint _ _ _).mp hu with rfl | hu
    · exact Or.inr ⟨signed, hmem, rfl, hcap, hg⟩
    · exact Or.inl hu

/-- Nothing a closure enables is left undone. -/
structure Closed (founder : Bytes32) (threshold : Nat) (S : Certificates) (c : Closure) :
    Prop where
  binding : ∀ signed ∈ S.bindings, BindingAdmissible c signed →
    ∃ u, c.user signed.payload.device = some u
  proposal : ∀ signed ∈ S.proposals, ProposalQuorate threshold S c signed →
    Certificate.digest (.proposal signed) ∈ c.executed
  grant : ∀ signed ∈ S.grants, signed.payload.capability = .admin →
    GrantAdmitted founder threshold S c signed → signed.payload.subject ∈ c.everAdmin

/-- The entries of a closure, counted. -/
private def Closure.count (c : Closure) : Nat :=
  c.deviceUser.size + c.executed.size + c.everAdmin.size

/-- The keys a closure of `S` can hold. -/
private structure Bounded (founder : Bytes32) (S : Certificates) (c : Closure) : Prop where
  devices : ∀ entry ∈ c.deviceUser,
    entry.1 ∈ founder :: S.bindings.toList.map fun signed => signed.payload.device
  digests : ∀ digest ∈ c.executed,
    digest ∈ S.proposals.toList.map fun signed => Certificate.digest (.proposal signed)
  admins : ∀ u ∈ c.everAdmin,
    u ∈ founder :: S.grants.toList.map fun signed => signed.payload.subject

private theorem Bounded.count_le {founder : Bytes32} {S : Certificates} {c : Closure}
    (h : Bounded founder S c) : c.count ≤ roundBound S + 1 := by
  have hd := Keyed.size_le_length h.devices
  have hp := Keyed.size_le_length h.digests
  have hg := Keyed.size_le_length h.admins
  simp only [List.length_cons, List.length_map] at hd hp hg
  unfold Closure.count roundBound Keyed.size at *
  omega

private theorem Rule.count_lt {founder : Bytes32} {threshold : Nat} {S : Certificates}
    {c c' : Closure} {r : Rule} (hr : r ∈ rules S)
    (hstep : r.step founder threshold S c = some c') : c.count < c'.count := by
  rcases Rule.step_cases hr hstep with ⟨signed, -, hfree, -, rfl⟩ |
    ⟨signed, -, hnew, -, rfl⟩ | ⟨signed, -, -, hnew, -, rfl⟩
  · have hsize := BTreeMap.size_set_of_free signed.payload.user hfree
    simp only [Closure.count, Closure.bind]
    omega
  · have hsize := BTreeSet.size_insert_of_not_mem hnew
    simp only [Closure.count, Closure.execute]
    omega
  · have hsize := BTreeSet.size_insert_of_not_mem hnew
    simp only [Closure.count, Closure.appoint]
    omega

private theorem Bounded.step {founder : Bytes32} {threshold : Nat} {S : Certificates}
    {c c' : Closure} {r : Rule} (hc : Bounded founder S c) (hr : r ∈ rules S)
    (hstep : r.step founder threshold S c = some c') : Bounded founder S c' := by
  rcases Rule.step_cases hr hstep with ⟨signed, hmem, -, -, rfl⟩ |
    ⟨signed, hmem, -, -, rfl⟩ | ⟨signed, hmem, -, -, -, rfl⟩
  · refine { hc with devices := fun entry hentry => ?_ }
    rcases Keyed.mem_insert.mp hentry with rfl | ⟨hold, -⟩
    · exact List.mem_cons_of_mem _ (List.mem_map.mpr ⟨signed, hmem, rfl⟩)
    · exact hc.devices entry hold
  · refine { hc with digests := fun digest hdigest => ?_ }
    rcases (Closure.mem_executed_execute _ _ _).mp hdigest with rfl | hold
    · exact List.mem_map.mpr ⟨signed, hmem, rfl⟩
    · exact hc.digests digest hold
  · refine { hc with admins := fun u hu => ?_ }
    rcases (Closure.mem_everAdmin_appoint _ _ _).mp hu with rfl | hold
    · exact List.mem_cons_of_mem _ (List.mem_map.mpr ⟨signed, hmem, rfl⟩)
    · exact hc.admins u hold

private theorem founding_bounded (founder : Bytes32) (S : Certificates) :
    Bounded founder S (.founding founder) := by
  refine
    { devices := fun entry hentry => ?_
      digests := fun digest hdigest => ?_
      admins := fun u hu => ?_ }
  · simp [Closure.founding, BTreeMap.set] at hentry
    simp [hentry]
  · exact absurd hdigest (Closure.not_mem_executed_founding founder digest)
  · simp [(Closure.mem_everAdmin_founding founder u).mp hu]

/-- The loop of `recompute` never runs out of rounds: no rule fires at the
closure it ends with. -/
theorem closure_quiet (founder : Bytes32) (threshold : Nat) (S : Certificates) :
    ∀ r ∈ rules S, r.step founder threshold S (closure founder threshold S) = none := by
  have hcount : (Closure.founding founder).count = 2 := rfl
  refine saturate_closed (I := Bounded founder S) (μ := Closure.count)
    (b := roundBound S + 1) (founding_bounded founder S)
    (fun r hr c c' hc hstep => hc.step hr hstep) (fun r hr c c' hstep => Rule.count_lt hr hstep)
    (fun c hc => hc.count_le) ?_
  omega

/-- The loop of `recompute` ends, within as many rounds as there are
certificates to fire and one to notice that none did. -/
theorem closure_settles (founder : Bytes32) (threshold : Nat) (S : Certificates) :
    ∃ n ≤ roundBound S, Settles (Rule.step founder threshold S) (rules S)
      (.founding founder) n (closure founder threshold S) := by
  have hcount : (Closure.founding founder).count = 2 := rfl
  refine saturate_settles (I := Bounded founder S) (μ := Closure.count)
    (b := roundBound S + 1) (founding_bounded founder S)
    (fun r hr c c' hc hstep => hc.step hr hstep) (fun r hr c c' hstep => Rule.count_lt hr hstep)
    (fun c hc => hc.count_le) ?_
  omega

theorem closure_closed (founder : Bytes32) (threshold : Nat) (S : Certificates) :
    Closed founder threshold S (closure founder threshold S) := by
  have hquiet := closure_quiet founder threshold S
  refine
    { binding := fun signed hmem hadm => ?_
      proposal := fun signed hmem hq => ?_
      grant := fun signed hmem hcap hg => ?_ }
  · have hr : Rule.binding signed ∈ rules S := by
      simpa [rules, Keyed.mem_def] using hmem
    by_contra hnone
    have hfree : (closure founder threshold S).user signed.payload.device = none :=
      Option.eq_none_iff_forall_ne_some.mpr fun u hu => hnone ⟨u, hu⟩
    have hfires := bindingStep_eq_some.mpr ⟨hfree, hadm, rfl⟩
    exact Option.some_ne_none _ (hfires.symm.trans (hquiet _ hr))
  · have hr : Rule.proposal signed ∈ rules S := by
      simpa [rules, Keyed.mem_def] using hmem
    by_contra hnot
    have hfires := proposalStep_eq_some.mpr ⟨hnot, hq, rfl⟩
    exact Option.some_ne_none _ (hfires.symm.trans (hquiet _ hr))
  · have hr : Rule.grant signed ∈ rules S := by
      simpa [rules, Keyed.mem_def] using hmem
    by_contra hnot
    have hfires := grantStep_eq_some.mpr ⟨hcap, hnot, hg, rfl⟩
    exact Option.some_ne_none _ (hfires.symm.trans (hquiet _ hr))

end Loops

end IrohBeekem
