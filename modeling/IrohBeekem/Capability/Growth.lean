import IrohBeekem.Capability.Roles

/-!
# How the closure answers to more certificates

A store only ever gains certificates: `stage_cases` and `mem_stageAll` say what
one bundle adds.  The closure does not simply grow with them.  A device belongs
to whichever admissible binding comes first in digest order, so a binding that
arrives later can take a device away from the user it was bound to, together
with everything derived from what that device had signed.

`closure_mono` is the comparison that does hold: as long as the larger set holds
no *rival* for a device the smaller one certifies, the smaller closure is
contained in the larger.
-/

namespace IrohBeekem

open Library

variable [Keyhive]

/-! ## What a bundle adds -/

namespace Certificates

variable {S S' : Certificates}

@[simp] theorem mem_binding {signed : Signed DeviceBinding} :
    Certificate.binding signed ∈ S ↔ signed ∈ S.bindings := Iff.rfl

@[simp] theorem mem_grant {signed : Signed Grant} :
    Certificate.grant signed ∈ S ↔ signed ∈ S.grants := Iff.rfl

@[simp] theorem mem_proposal {signed : Signed AdminProposal} :
    Certificate.proposal signed ∈ S ↔ signed ∈ S.proposals := Iff.rfl

@[simp] theorem mem_approval {signed : Signed Approval} :
    Certificate.approval signed ∈ S ↔ signed ∈ S.approvals := Iff.rfl

@[simp] theorem mem_policy {signed : Signed Policy} :
    Certificate.policy signed ∈ S ↔ signed ∈ S.policies := Iff.rfl

omit [Keyhive] in
/-- Staging one value either finds its digest taken or adds exactly it. -/
theorem stageIn_cases {ν : Type} {key : ν → Bytes32} (m : Keyed key) (v : ν) :
    stageIn m v = (false, m) ∨
      ∃ m', stageIn m v = (true, m') ∧ ∀ a, a ∈ m' ↔ a = v ∨ a ∈ m := by
  unfold stageIn
  split_ifs with h
  · exact Or.inl rfl
  · refine Or.inr ⟨m.insert v, rfl, fun a => ?_⟩
    rw [Keyed.mem_insert]
    constructor
    · rintro (rfl | ⟨ha, -⟩)
      · exact Or.inl rfl
      · exact Or.inr ha
    · rintro (rfl | ha)
      · exact Or.inl rfl
      · refine Or.inr ⟨ha, fun hkey => h ?_⟩
        exact Keyed.contains_iff.mpr ⟨a, ha, hkey⟩

/-- Staging a certificate leaves the set alone or adds exactly that
certificate. -/
theorem stage_cases {cert : Certificate} {isNew : Bool} (h : S.stage cert = .ok (isNew, S')) :
    cert.verify = .ok () ∧ (isNew = false ∧ S' = S ∨
      isNew = true ∧ ∀ x, x ∈ S' ↔ x = cert ∨ x ∈ S) := by
  unfold stage at h
  cases hverify : cert.verify with
  | error err =>
      rw [hverify] at h
      exact absurd h (by simp)
  | ok u =>
      rw [hverify] at h
      refine ⟨rfl, ?_⟩
      cases cert with
      | grant signed =>
          rcases stageIn_cases S.grants signed with hs | ⟨m', hs, hm⟩ <;>
            simp only [hs, Except.ok.injEq, Prod.mk.injEq] at h <;>
            obtain ⟨rfl, rfl⟩ := h
          · exact Or.inl ⟨rfl, rfl⟩
          · exact Or.inr ⟨rfl, fun x => by cases x <;> simp [hm]⟩
      | binding signed =>
          rcases stageIn_cases S.bindings signed with hs | ⟨m', hs, hm⟩ <;>
            simp only [hs, Except.ok.injEq, Prod.mk.injEq] at h <;>
            obtain ⟨rfl, rfl⟩ := h
          · exact Or.inl ⟨rfl, rfl⟩
          · exact Or.inr ⟨rfl, fun x => by cases x <;> simp [hm]⟩
      | proposal signed =>
          rcases stageIn_cases S.proposals signed with hs | ⟨m', hs, hm⟩ <;>
            simp only [hs, Except.ok.injEq, Prod.mk.injEq] at h <;>
            obtain ⟨rfl, rfl⟩ := h
          · exact Or.inl ⟨rfl, rfl⟩
          · exact Or.inr ⟨rfl, fun x => by cases x <;> simp [hm]⟩
      | approval signed =>
          rcases stageIn_cases S.approvals signed with hs | ⟨m', hs, hm⟩ <;>
            simp only [hs, Except.ok.injEq, Prod.mk.injEq] at h <;>
            obtain ⟨rfl, rfl⟩ := h
          · exact Or.inl ⟨rfl, rfl⟩
          · exact Or.inr ⟨rfl, fun x => by cases x <;> simp [hm]⟩
      | policy signed =>
          rcases stageIn_cases S.policies signed with hs | ⟨m', hs, hm⟩ <;>
            simp only [hs, Except.ok.injEq, Prod.mk.injEq] at h <;>
            obtain ⟨rfl, rfl⟩ := h
          · exact Or.inl ⟨rfl, rfl⟩
          · exact Or.inr ⟨rfl, fun x => by cases x <;> simp [hm]⟩

/-- What a bundle leaves: everything held before, and nothing but that and what
verifies of the bundle. -/
theorem mem_stageAll (S : Certificates) (bundle : List Certificate) :
    (∀ x ∈ S, x ∈ (S.stageAll bundle).2) ∧
      ∀ x ∈ (S.stageAll bundle).2, x ∈ S ∨ x ∈ bundle ∧ x.verify = .ok () := by
  induction bundle generalizing S with
  | nil => exact ⟨fun _ => id, fun _ => Or.inl⟩
  | cons cert rest ih =>
      have hskip : (∀ x ∈ S, x ∈ (S.stageAll rest).2) ∧
          ∀ x ∈ (S.stageAll rest).2, x ∈ S ∨ x ∈ cert :: rest ∧ x.verify = .ok () :=
        ⟨(ih S).1, fun x hx => ((ih S).2 x hx).imp_right
          fun h => ⟨List.mem_cons_of_mem _ h.1, h.2⟩⟩
      unfold stageAll
      cases hstage : S.stage cert with
      | error err => exact hskip
      | ok staged =>
          obtain ⟨isNew, S'⟩ := staged
          obtain ⟨hverify, ⟨rfl, -⟩ | ⟨rfl, hmem⟩⟩ := stage_cases hstage
          · exact hskip
          · refine ⟨fun x hx => (ih S').1 x ((hmem x).mpr (Or.inr hx)), fun x hx => ?_⟩
            rcases (ih S').2 x hx with hx | hx
            · rcases (hmem x).mp hx with rfl | hx
              · exact Or.inr ⟨List.mem_cons_self, hverify⟩
              · exact Or.inl hx
            · exact Or.inr ⟨List.mem_cons_of_mem _ hx.1, hx.2⟩

/-- A kind and a digest are held at most once. -/
theorem eq_of_digest_eq {x y : Certificate} (hx : x ∈ S) (hy : y ∈ S) (hkind : x.kind = y.kind)
    (hdigest : x.digest = y.digest) : x = y := by
  cases x <;> cases y <;> first
    | exact congrArg _ (Keyed.eq_of_key_eq hx hy hdigest)
    | simp [Certificate.kind] at hkind

omit [Keyhive] in
/-- After staging, the digest of what was staged is taken. -/
private theorem stageIn_taken {ν : Type} {key : ν → Bytes32} (m : Keyed key) (v : ν) :
    ∃ w ∈ (stageIn m v).2, key w = key v := by
  unfold stageIn
  split_ifs with h
  · exact Keyed.contains_iff.mp h
  · exact ⟨v, Keyed.mem_insert.mpr (Or.inl rfl), rfl⟩

/-- Staging a certificate that verifies leaves its digest taken. -/
theorem stage_taken (S : Certificates) {cert : Certificate} (h : cert.verify = .ok ()) :
    ∃ isNew S', S.stage cert = .ok (isNew, S') ∧
      ∃ y ∈ S', y.kind = cert.kind ∧ y.digest = cert.digest := by
  unfold stage
  rw [h]
  cases cert with
  | grant signed =>
      obtain ⟨w, hw, hkey⟩ := stageIn_taken S.grants signed
      exact ⟨_, _, rfl, .grant w, hw, rfl, hkey⟩
  | binding signed =>
      obtain ⟨w, hw, hkey⟩ := stageIn_taken S.bindings signed
      exact ⟨_, _, rfl, .binding w, hw, rfl, hkey⟩
  | proposal signed =>
      obtain ⟨w, hw, hkey⟩ := stageIn_taken S.proposals signed
      exact ⟨_, _, rfl, .proposal w, hw, rfl, hkey⟩
  | approval signed =>
      obtain ⟨w, hw, hkey⟩ := stageIn_taken S.approvals signed
      exact ⟨_, _, rfl, .approval w, hw, rfl, hkey⟩
  | policy signed =>
      obtain ⟨w, hw, hkey⟩ := stageIn_taken S.policies signed
      exact ⟨_, _, rfl, .policy w, hw, rfl, hkey⟩

/-- A bundle leaves the digest of everything in it that verifies taken. -/
theorem stageAll_taken (S : Certificates) {bundle : List Certificate} {cert : Certificate}
    (hmem : cert ∈ bundle) (h : cert.verify = .ok ()) :
    ∃ y ∈ (S.stageAll bundle).2, y.kind = cert.kind ∧ y.digest = cert.digest := by
  induction bundle generalizing S with
  | nil => exact absurd hmem List.not_mem_nil
  | cons x rest ih =>
      rcases List.mem_cons.mp hmem with rfl | hmem
      · obtain ⟨isNew, S', hstage, y, hy, hkind, hdigest⟩ := S.stage_taken h
        unfold stageAll
        rw [hstage]
        obtain ⟨-, ⟨rfl, rfl⟩ | ⟨rfl, -⟩⟩ := stage_cases hstage
        · exact ⟨y, (mem_stageAll S' rest).1 y hy, hkind, hdigest⟩
        · exact ⟨y, (mem_stageAll S' rest).1 y hy, hkind, hdigest⟩
      · unfold stageAll
        cases hstage : S.stage x with
        | error err => exact ih S hmem
        | ok staged =>
            obtain ⟨_ | _, S'⟩ := staged
            · exact ih S hmem
            · exact ih S' hmem

theorem mem_toList {x : Certificate} : x ∈ S.toList ↔ x ∈ S := by
  unfold toList
  cases x <;> simp [Keyed.mem_def]

theorem ext_mem (h : ∀ x, x ∈ S ↔ x ∈ S') : S = S' := by
  obtain ⟨grants, bindings, proposals, approvals, policies⟩ := S
  obtain ⟨grants', bindings', proposals', approvals', policies'⟩ := S'
  obtain rfl : grants = grants' := Keyed.ext_mem fun a => h (.grant a)
  obtain rfl : bindings = bindings' := Keyed.ext_mem fun a => h (.binding a)
  obtain rfl : proposals = proposals' := Keyed.ext_mem fun a => h (.proposal a)
  obtain rfl : approvals = approvals' := Keyed.ext_mem fun a => h (.approval a)
  obtain rfl : policies = policies' := Keyed.ext_mem fun a => h (.policy a)
  rfl

/-- A set whose certificates all verify is rebuilt from its own list. -/
theorem stageAll_toList (h : ∀ x ∈ S, x.verify = .ok ()) : (empty.stageAll S.toList).2 = S := by
  have hsub : ∀ x ∈ (empty.stageAll S.toList).2, x ∈ S := by
    intro x hx
    rcases (mem_stageAll empty S.toList).2 x hx with hx | hx
    · cases x <;> exact absurd hx List.not_mem_nil
    · exact mem_toList.mp hx.1
  refine ext_mem fun x => ⟨hsub x, fun hx => ?_⟩
  obtain ⟨y, hy, hkind, hdigest⟩ := stageAll_taken empty (mem_toList.mpr hx) (h x hx)
  exact eq_of_digest_eq (hsub y hy) hx hkind hdigest ▸ hy

/-- A bundle that added nothing left the set alone. -/
theorem stageAll_eq_of_zero {S : Certificates} {bundle : List Certificate}
    (h : (S.stageAll bundle).1 = 0) : (S.stageAll bundle).2 = S := by
  induction bundle with
  | nil => rfl
  | cons cert rest ih =>
      unfold stageAll at h ⊢
      cases hstage : S.stage cert with
      | error err =>
          rw [hstage] at h
          exact ih h
      | ok staged =>
          rw [hstage] at h
          obtain ⟨_ | _, S'⟩ := staged
          · exact ih h
          · exact absurd h (Nat.succ_ne_zero _)

/-- Only the founder's policies are read, and only as a set. -/
theorem resolveThreshold_congr {founder : Bytes32}
    (h : ∀ signed : Signed Policy, signed.issuer = founder →
      (signed ∈ S.policies ↔ signed ∈ S'.policies)) :
    S.resolveThreshold founder = S'.resolveThreshold founder := by
  have hsame : S.policies.filter (fun signed => signed.issuer = founder) =
      S'.policies.filter fun signed => signed.issuer = founder := by
    refine Keyed.ext_mem fun signed => ?_
    rw [Keyed.mem_filter, Keyed.mem_filter, decide_eq_true_eq]
    constructor
    · exact fun hs => ⟨(h signed hs.2).mp hs.1, hs.2⟩
    · exact fun hs => ⟨(h signed hs.2).mpr hs.1, hs.2⟩
  have hlist := congrArg Keyed.toList hsame
  unfold resolveThreshold
  rw [show S.policies.toList.filter (fun signed => decide (signed.issuer = founder)) =
    S'.policies.toList.filter fun signed => decide (signed.issuer = founder) from hlist]

end Certificates

namespace CapabilityStore

@[simp] theorem extend_founder (s : CapabilityStore) (bundle : List Certificate) :
    (s.extend bundle).2.founder = s.founder := by
  unfold extend
  dsimp only
  split_ifs <;> rfl

/-- Extending a store stages the bundle, whether or not the closure had to be
recomputed. -/
theorem extend_certs (s : CapabilityStore) (bundle : List Certificate) :
    (s.extend bundle).2.certs = (s.certs.stageAll bundle).2 := by
  unfold extend
  dsimp only
  split_ifs with hadded
  · rfl
  · exact (Certificates.stageAll_eq_of_zero (by omega)).symm

theorem subset_extend (s : CapabilityStore) (bundle : List Certificate) :
    s.certs ⊆ (s.extend bundle).2.certs := by
  intro x hx
  rw [extend_certs]
  exact (Certificates.mem_stageAll s.certs bundle).1 x hx

theorem mem_extend {s : CapabilityStore} {bundle : List Certificate} {x : Certificate}
    (h : x ∈ (s.extend bundle).2.certs) : x ∈ s.certs ∨ x ∈ bundle := by
  rw [extend_certs] at h
  exact ((Certificates.mem_stageAll s.certs bundle).2 x h).imp_right And.left

/-- Only certificates that verify are ever added. -/
theorem verify_of_mem_extend {s : CapabilityStore} {bundle : List Certificate} {x : Certificate}
    (h : x ∈ (s.extend bundle).2.certs) : x ∈ s.certs ∨ x.verify = .ok () := by
  rw [extend_certs] at h
  exact ((Certificates.mem_stageAll s.certs bundle).2 x h).imp_right And.right

/-- A store is what its founder and its certificates make it. -/
theorem ext_certs {s s' : CapabilityStore} (hfounder : s.founder = s'.founder)
    (hcerts : s.certs = s'.certs) : s = s' := by
  obtain ⟨founder, certs, derived, settled⟩ := s
  obtain ⟨founder', certs', derived', settled'⟩ := s'
  cases hfounder
  cases hcerts
  cases settled.trans settled'.symm
  rfl

/-- Shipping every certificate ships the whole store. -/
theorem extend_certificates {s : CapabilityStore} (h : ∀ x ∈ s.certs, x.verify = .ok ()) :
    ((new s.founder).extend s.certificates).2 = s := by
  refine ext_certs (extend_founder _ _) ?_
  rw [extend_certs]
  exact Certificates.stageAll_toList h

/-- Accepting one certificate adds it and nothing else, and only if it
verifies. -/
theorem insert_cases {s s' : CapabilityStore} {cert : Certificate} {isNew : Bool}
    (h : s.insert cert = .ok (isNew, s')) :
    s'.founder = s.founder ∧ s.certs ⊆ s'.certs ∧ cert.verify = .ok () ∧
      ∀ x ∈ s'.certs, x ∈ s.certs ∨ x = cert := by
  unfold insert at h
  cases hstage : s.certs.stage cert with
  | error err =>
      rw [hstage] at h
      exact absurd h (by simp)
  | ok staged =>
      obtain ⟨changed, certs⟩ := staged
      rw [hstage] at h
      simp only [Except.ok.injEq, Prod.mk.injEq] at h
      obtain ⟨rfl, rfl⟩ := h
      obtain ⟨hverify, ⟨rfl, -⟩ | ⟨rfl, hmem⟩⟩ := Certificates.stage_cases hstage
      · exact ⟨rfl, fun _ => id, hverify, fun _ => Or.inl⟩
      · refine ⟨rfl, fun x hx => (hmem x).mpr (Or.inr hx), hverify, fun x hx => ?_⟩
        exact ((hmem x).mp hx).symm

/-- Accepting a certificate that verifies leaves its digest taken. -/
theorem insert_taken (s : CapabilityStore) {cert : Certificate} (h : cert.verify = .ok ()) :
    ∃ isNew s', s.insert cert = .ok (isNew, s') ∧
      ∃ y ∈ s'.certs, y.kind = cert.kind ∧ y.digest = cert.digest := by
  obtain ⟨isNew, certs, hstage, htaken⟩ := Certificates.stage_taken s.certs h
  refine ⟨isNew, if isNew then of s.founder certs else s, ?_, ?_⟩
  · unfold insert
    rw [hstage]
  · obtain ⟨-, ⟨rfl, rfl⟩ | ⟨rfl, -⟩⟩ := Certificates.stage_cases hstage
    · exact htaken
    · exact htaken

end CapabilityStore

/-! ## Rivals -/

section Rivals

variable {founder : Bytes32} {threshold : Nat} {S S' : Certificates} {c c' : Closure}

/-- A key the closure could certify at all: the founder's, or one that some
binding names. -/
def Nameable (founder : Bytes32) (S : Certificates) (key : Bytes32) : Prop :=
  key = founder ∨ ∃ signed ∈ S.bindings, signed.payload.device = key

/-- No binding of `S`, other than those of keys nothing certifies, names a
device certified in `c` for another user. -/
def RivalFree (founder : Bytes32) (S : Certificates) (c : Closure) : Prop :=
  ∀ signed ∈ S.bindings, Nameable founder S signed.issuer →
    signed.payload.device ≠ founder →
    c.user signed.payload.device = none ∨
      c.user signed.payload.device = some signed.payload.user

instance (founder : Bytes32) (S : Certificates) (key : Bytes32) :
    Decidable (Nameable founder S key) :=
  inferInstanceAs (Decidable (_ ∨ _))

instance (founder : Bytes32) (S : Certificates) (c : Closure) :
    Decidable (RivalFree founder S c) :=
  inferInstanceAs (Decidable (∀ signed ∈ S.bindings, _))

theorem Supported.nameable (h : Supported founder threshold S c) {d u : Bytes32}
    (hd : c.user d = some u) : Nameable founder S d := by
  rcases h.user d u hd with ⟨rfl, -⟩ | ⟨-, signed, hmem, hdev, -⟩
  · exact Or.inl rfl
  · exact Or.inr ⟨signed, hmem, hdev⟩

theorem BindingAdmissible.nameable (h : Supported founder threshold S c)
    {signed : Signed DeviceBinding} (hadm : BindingAdmissible c signed) :
    Nameable founder S signed.issuer := by
  obtain ⟨u, huser, -⟩ := hadm
  exact h.nameable huser

theorem RivalFree.binding_eq (hrival : RivalFree founder S c) {signed : Signed DeviceBinding}
    (hmem : signed ∈ S.bindings) (hissuer : Nameable founder S signed.issuer)
    (hne : signed.payload.device ≠ founder) {u : Bytes32}
    (hu : c.user signed.payload.device = some u) : signed.payload.user = u := by
  rcases hrival signed hmem hissuer hne with hnone | hsome
  · exact absurd (hnone.symm.trans hu) (Option.some_ne_none u).symm
  · exact Option.some.inj (hsome.symm.trans hu)

/-- Without rivals a supported closure certifies a device for its user or not
at all. -/
theorem RivalFree.user_eq (hrival : RivalFree founder S' c)
    (h : Supported founder threshold S c) (h' : Supported founder threshold S' c')
    {d u u' : Bytes32} (hd : c.user d = some u) (hd' : c'.user d = some u') : u' = u := by
  rcases h'.user d u' hd' with ⟨rfl, rfl⟩ | ⟨hne, signed, hmem, rfl, rfl, hadm⟩
  · exact Option.some.inj (h.founder_user.symm.trans hd)
  · exact hrival.binding_eq hmem (hadm.nameable h') hne hd

/-- Without rivals the closure of a smaller set is part of the closure of a
larger one. -/
theorem closure_mono (hS : S ⊆ S')
    (hrival : RivalFree founder S' (closure founder threshold S)) :
    closure founder threshold S ≤ closure founder threshold S' := by
  have hsup := closure_supported founder threshold S
  have hsup' := closure_supported founder threshold S'
  have hclosed := closure_closed founder threshold S
  have hclosed' := closure_closed founder threshold S'
  -- what the run over `S` has so far is part of both closures
  refine (closure_induction (S := S) (I := fun c => c ≤ closure founder threshold S ∧
    c ≤ closure founder threshold S') ?_ ?_ ?_ ?_).2
  · have hfounding : ∀ c, c.user founder = some founder → founder ∈ c.everAdmin →
        Closure.founding founder ≤ c := by
      intro c huser hadmin
      refine ⟨fun {d u} hd => ?_, fun {u} hu => ?_, fun {d} hd => ?_⟩
      · rw [Closure.user_founding] at hd
        split_ifs at hd with heq
        · rw [heq, huser, hd]
      · rw [(Closure.mem_everAdmin_founding founder u).mp hu]
        exact hadmin
      · exact absurd hd (Closure.not_mem_executed_founding founder d)
    exact ⟨hfounding _ hsup.founder_user hsup.founder_admin,
      hfounding _ hsup'.founder_user hsup'.founder_admin⟩
  · rintro c ⟨hle, hle'⟩ signed hmem hne hfree hadm
    obtain ⟨u, hu⟩ := hclosed.binding signed hmem (hadm.mono hle)
    obtain ⟨u', hu'⟩ := hclosed'.binding signed (hS (.binding signed) hmem) (hadm.mono hle')
    have hsame : u' = u := hrival.user_eq hsup hsup' hu hu'
    have huser : signed.payload.user = u :=
      hrival.binding_eq (hS (.binding signed) hmem) ((hadm.mono hle').nameable hsup') hne hu
    rw [huser]
    exact ⟨Closure.bind_le hle hu, Closure.bind_le hle' (hu'.trans (congrArg some hsame))⟩
  · rintro c ⟨hle, hle'⟩ signed hmem hq
    have hq' := hq.mono (fun x => hS (.approval x)) hle'
    exact ⟨Closure.execute_le hle (hclosed.proposal signed hmem (hq.mono (fun _ => id) hle)),
      Closure.execute_le hle' (hclosed'.proposal signed (hS (.proposal signed) hmem) hq')⟩
  · rintro c ⟨hle, hle'⟩ signed hmem hcap hg
    have hg' := hg.mono (fun x => hS (.proposal x)) hle'
    exact ⟨Closure.appoint_le hle (hclosed.grant signed hmem hcap (hg.mono (fun _ => id) hle)),
      Closure.appoint_le hle' (hclosed'.grant signed (hS (.grant signed) hmem) hcap hg')⟩

end Rivals

namespace CapabilityStore

theorem closure_eq (s : CapabilityStore) :
    s.derived.toClosure = closure s.founder s.threshold s.certs := by
  rw [threshold, s.settled]
  rfl

theorem threshold_eq (s : CapabilityStore) :
    s.threshold = s.certs.resolveThreshold s.founder := by
  rw [threshold, s.settled]
  rfl

/-- Two stores of one workspace hold the same policies of the founder. -/
def SamePolicies (s s' : CapabilityStore) : Prop :=
  ∀ signed : Signed Policy, signed.issuer = s.founder →
    (signed ∈ s.certs.policies ↔ signed ∈ s'.certs.policies)

theorem SamePolicies.threshold_eq {s s' : CapabilityStore} (hfounder : s'.founder = s.founder)
    (h : SamePolicies s s') : s'.threshold = s.threshold := by
  rw [s.threshold_eq, s'.threshold_eq, hfounder]
  exact (Certificates.resolveThreshold_congr h).symm

/-- A store that gained no rival knows at least what it did. -/
theorem le_of_rivalFree {s s' : CapabilityStore} (hfounder : s'.founder = s.founder)
    (hcerts : s.certs ⊆ s'.certs) (hpolicies : SamePolicies s s')
    (hrival : RivalFree s.founder s'.certs s.derived.toClosure) :
    s.derived.toClosure ≤ s'.derived.toClosure := by
  rw [s.closure_eq] at hrival ⊢
  rw [s'.closure_eq, hpolicies.threshold_eq hfounder, hfounder]
  exact closure_mono hcerts hrival

end CapabilityStore

end IrohBeekem

namespace IrohBeekem

section Rebound

local instance reboundKeyhive : Keyhive := transparentKeyhive

/-- The founder `1` makes user `20` an admin on device `2`, which goes on to
make user `30` one. -/
def delegatedStore : CapabilityStore :=
  ((CapabilityStore.new 1).extend
    [ (Payload.grant (.new 20 .admin 0 none 1)).signedBy 1,
      (Payload.binding (.new 2 20 9)).signedBy 1,
      (Payload.grant (.new 30 .admin 0 none 2)).signedBy 2 ]).2

end Rebound

end IrohBeekem
