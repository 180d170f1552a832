import IrohBeekem.Capability.Growth

/-!
# What a store makes of what it is offered

A store is offered certificates one by one and in bundles, in whatever order they
arrive, some of them more than once and some of them forged.  What comes of it
depends on the set of those that verify and on nothing else
(`offerAll_agrees`): the maps are keyed by digest, everything derived is
recomputed from them, and where nothing was new there was nothing to recompute.
-/

namespace IrohBeekem

open Library

variable [Keyhive]

/-- One call that offers certificates to a store. -/
inductive Offer where
  | insert (cert : Certificate)
  | extend (bundle : List Certificate)

/-- The certificates a call offers. -/
def Offer.certs : Offer → List Certificate
  | .insert cert => [cert]
  | .extend bundle => bundle

namespace CapabilityStore

/-- Make a call.  One that fails leaves the store as it was. -/
def offer (s : CapabilityStore) : Offer → CapabilityStore
  | .insert cert =>
      match s.insert cert with
      | .ok (_, s') => s'
      | .error _ => s
  | .extend bundle => (s.extend bundle).2

/-- Make some calls in order. -/
def offerAll (s : CapabilityStore) (offers : List Offer) : CapabilityStore :=
  offers.foldl offer s

/-- Equal on everything that is derived and on the certificates. -/
structure Agrees (s s' : CapabilityStore) : Prop where
  deviceUser : s.derived.deviceUser = s'.derived.deviceUser
  everAdmin : s.derived.everAdmin = s'.derived.everAdmin
  roles : s.derived.roles = s'.derived.roles
  threshold : s.derived.threshold = s'.derived.threshold
  executed : s.derived.executed = s'.derived.executed
  certificates : s.certificates = s'.certificates

end CapabilityStore

/-- The certificates of some calls that verify. -/
def Valid (offers : List Offer) : Set Certificate :=
  { cert | (∃ offer ∈ offers, cert ∈ offer.certs) ∧ cert.verify = .ok () }

/-- No two certificates of a set and of one kind share a digest. -/
def Distinct (certs : Set Certificate) : Prop :=
  ∀ x ∈ certs, ∀ y ∈ certs, x.kind = y.kind → x.digest = y.digest → x = y

namespace CapabilityStore

theorem Agrees.of_eq {s s' : CapabilityStore} (h : s = s') : s.Agrees s' := by
  subst h
  exact ⟨rfl, rfl, rfl, rfl, rfl, rfl⟩

@[simp] theorem offer_founder (s : CapabilityStore) (o : Offer) :
    (s.offer o).founder = s.founder := by
  cases o with
  | insert cert =>
      cases hinsert : s.insert cert with
      | error err => simp only [offer, hinsert]
      | ok inserted =>
          simp only [offer, hinsert]
          exact (insert_cases hinsert).1
  | extend bundle => exact extend_founder s bundle

/-- One call loses nothing, and gains nothing but what it offers and verifies. -/
theorem mem_offer (s : CapabilityStore) (o : Offer) :
    (∀ x ∈ s.certs, x ∈ (s.offer o).certs) ∧
      ∀ x ∈ (s.offer o).certs, x ∈ s.certs ∨ x ∈ o.certs ∧ x.verify = .ok () := by
  cases o with
  | insert cert =>
      cases hinsert : s.insert cert with
      | error err =>
          simp only [offer, hinsert]
          exact ⟨fun _ => id, fun _ => Or.inl⟩
      | ok inserted =>
          simp only [offer, hinsert]
          obtain ⟨-, hkept, hverify, hgained⟩ := insert_cases hinsert
          refine ⟨fun x hx => hkept x hx, fun x hx => ?_⟩
          refine (hgained x hx).imp_right fun heq => ?_
          subst heq
          exact ⟨List.mem_singleton_self x, hverify⟩
  | extend bundle =>
      have hstaged := Certificates.mem_stageAll s.certs bundle
      rw [← extend_certs] at hstaged
      exact hstaged

/-- One call leaves the digest of everything it offers that verifies taken. -/
theorem offer_taken (s : CapabilityStore) {o : Offer} {cert : Certificate} (hmem : cert ∈ o.certs)
    (h : cert.verify = .ok ()) :
    ∃ y ∈ (s.offer o).certs, y.kind = cert.kind ∧ y.digest = cert.digest := by
  cases o with
  | insert offered =>
      obtain rfl := List.mem_singleton.mp hmem
      obtain ⟨isNew, s', hinsert, htaken⟩ := s.insert_taken h
      simp only [offer, hinsert]
      exact htaken
  | extend bundle =>
      have htaken := Certificates.stageAll_taken s.certs hmem h
      rw [← extend_certs] at htaken
      exact htaken

@[simp] theorem offerAll_founder (s : CapabilityStore) (offers : List Offer) :
    (s.offerAll offers).founder = s.founder := by
  induction offers generalizing s with
  | nil => rfl
  | cons o rest ih => exact (ih (s.offer o)).trans (offer_founder s o)

/-- What some calls leave: everything held before, and nothing but that and what verifies of
what they offered. -/
theorem mem_offerAll (s : CapabilityStore) (offers : List Offer) :
    (∀ x ∈ s.certs, x ∈ (s.offerAll offers).certs) ∧
      ∀ x ∈ (s.offerAll offers).certs, x ∈ s.certs ∨ x ∈ Valid offers := by
  induction offers generalizing s with
  | nil => exact ⟨fun _ => id, fun _ => Or.inl⟩
  | cons o rest ih =>
      obtain ⟨hkept, hgained⟩ := mem_offer s o
      obtain ⟨hkept', hgained'⟩ := ih (s.offer o)
      refine ⟨fun x hx => hkept' x (hkept x hx), fun x hx => ?_⟩
      rcases hgained' x hx with hx | ⟨⟨o', ho', hoffered⟩, hverify⟩
      · refine (hgained x hx).imp_right fun hnew => ?_
        exact ⟨⟨o, List.mem_cons_self, hnew.1⟩, hnew.2⟩
      · exact Or.inr ⟨⟨o', List.mem_cons_of_mem _ ho', hoffered⟩, hverify⟩

/-- Some calls leave the digest of everything they offered that verifies taken. -/
theorem offerAll_taken (s : CapabilityStore) {offers : List Offer} {cert : Certificate}
    (h : cert ∈ Valid offers) :
    ∃ y ∈ (s.offerAll offers).certs, y.kind = cert.kind ∧ y.digest = cert.digest := by
  obtain ⟨⟨o, ho, hoffered⟩, hverify⟩ := h
  induction offers generalizing s with
  | nil => exact absurd ho List.not_mem_nil
  | cons first rest ih =>
      rcases List.mem_cons.mp ho with rfl | ho
      · obtain ⟨y, hy, htaken⟩ := offer_taken s hoffered hverify
        exact ⟨y, (mem_offerAll (s.offer o) rest).1 y hy, htaken⟩
      · exact ih (s.offer first) ho

/-- A new store holds, after some calls, what they offered that verifies. -/
theorem mem_offerAll_new (founder : Bytes32) {offers : List Offer}
    (hdistinct : Distinct (Valid offers)) (x : Certificate) :
    x ∈ ((new founder).offerAll offers).certs ↔ x ∈ Valid offers := by
  have honly : ∀ y ∈ ((new founder).offerAll offers).certs, y ∈ Valid offers := by
    intro y hy
    refine ((mem_offerAll (new founder) offers).2 y hy).resolve_left fun hnone => ?_
    cases y <;> exact absurd hnone List.not_mem_nil
  refine ⟨honly x, fun hx => ?_⟩
  -- the digest of `x` is taken, and only `x` itself can have taken it
  obtain ⟨y, hy, hkind, hdigest⟩ := offerAll_taken (new founder) hx
  exact hdistinct y (honly y hy) x hx hkind hdigest ▸ hy

/-- A store is rebuilt from its certificates in any order. -/
theorem extend_perm {s : CapabilityStore} (h : ∀ x ∈ s.certs, x.verify = .ok ())
    {bundle : List Certificate} (hperm : bundle.Perm s.certificates) :
    ((new s.founder).extend bundle).2 = s := by
  refine ext_certs (extend_founder _ _) ?_
  rw [extend_certs]
  have hbundle : ∀ x, x ∈ bundle ↔ x ∈ s.certs := fun x =>
    hperm.mem_iff.trans Certificates.mem_toList
  have honly : ∀ x ∈ ((new s.founder).certs.stageAll bundle).2, x ∈ s.certs := by
    intro x hx
    rcases (Certificates.mem_stageAll _ bundle).2 x hx with hnone | hx
    · cases x <;> exact absurd hnone List.not_mem_nil
    · exact (hbundle x).mp hx.1
  refine Certificates.ext_mem fun x => ⟨honly x, fun hx => ?_⟩
  obtain ⟨y, hy, hkind, hdigest⟩ :=
    Certificates.stageAll_taken (new s.founder).certs ((hbundle x).mpr hx) (h x hx)
  exact Certificates.eq_of_digest_eq (honly y hy) hx hkind hdigest ▸ hy

/-- Two stores with one root that were offered the same certificates, as far as they verify,
agree, and each is rebuilt from its certificates in any order. -/
theorem offerAll_agrees (founder : Bytes32) {offers offers' : List Offer}
    (hdistinct : Distinct (Valid offers)) (hsame : Valid offers = Valid offers') :
    ((new founder).offerAll offers).Agrees ((new founder).offerAll offers') ∧
      ∀ bundle : List Certificate, bundle.Perm ((new founder).offerAll offers).certificates →
        ((new ((new founder).offerAll offers).founder).extend bundle).2.Agrees
          ((new founder).offerAll offers) := by
  have hheld := mem_offerAll_new founder hdistinct
  have hheld' := mem_offerAll_new founder (hsame ▸ hdistinct)
  constructor
  · refine .of_eq (ext_certs (by simp) (Certificates.ext_mem fun x => ?_))
    rw [hheld x, hheld' x, hsame]
  · intro bundle hperm
    exact .of_eq (extend_perm (fun x hx => ((hheld x).mp hx).2) hperm)

end CapabilityStore

end IrohBeekem

/-! ## Two owners for one device -/

namespace IrohBeekem

open Library CapabilityStore

section Samples

local instance offeredKeyhive : Keyhive := transparentKeyhive

/-- Founder `1` says that device `2` is user `2`'s. -/
def ownBinding : Certificate := Payload.signedBy (.binding (DeviceBinding.new 2 2 1)) 1

/-- It also says that the device is user `3`'s. -/
def otherBinding : Certificate := Payload.signedBy (.binding (DeviceBinding.new 2 3 2)) 1

/-- User `2` is an admin, says its own device. -/
def ownGrant : Certificate := Payload.signedBy (.grant (Grant.new 2 .admin 0 none 3)) 2

/-- The founder says so too, in a statement that somebody else has signed. -/
def forgedGrant : Certificate := Payload.certificate 1 (2, 0) (.grant (Grant.new 2 .admin 0 none 4))

def arrivals : List Offer :=
  [.insert forgedGrant, .extend [ownGrant, otherBinding], .insert ownBinding]

def otherArrivals : List Offer := [.extend [ownBinding, ownBinding, forgedGrant, otherBinding, ownGrant]]

private theorem forgedGrant_invalid : ¬ forgedGrant.verify = .ok () := by
  have hrefused : forgedGrant.verify = .error .badSignature := rfl
  rw [hrefused]
  simp

private theorem valid_arrivals :
    Valid arrivals = {ownBinding, otherBinding, ownGrant} := by
  ext cert
  constructor
  · rintro ⟨⟨offer, hoffer, hmem⟩, hverify⟩
    simp only [arrivals, List.mem_cons, List.not_mem_nil, or_false] at hoffer
    rcases hoffer with rfl | rfl | rfl
    · obtain rfl := List.mem_singleton.mp hmem
      exact absurd hverify forgedGrant_invalid
    · simp only [Offer.certs, List.mem_cons, List.not_mem_nil, or_false] at hmem
      rcases hmem with rfl | rfl
      · simp
      · simp
    · obtain rfl := List.mem_singleton.mp hmem
      simp
  · rintro (rfl | rfl | rfl)
    · exact ⟨⟨.insert ownBinding, by simp [arrivals], by simp [Offer.certs]⟩, rfl⟩
    · exact ⟨⟨.extend [ownGrant, otherBinding], by simp [arrivals], by simp [Offer.certs]⟩, rfl⟩
    · exact ⟨⟨.extend [ownGrant, otherBinding], by simp [arrivals], by simp [Offer.certs]⟩, rfl⟩

private theorem valid_otherArrivals : Valid otherArrivals = {ownBinding, otherBinding, ownGrant} := by
  ext cert
  constructor
  · rintro ⟨⟨offer, hoffer, hmem⟩, hverify⟩
    obtain rfl := List.mem_singleton.mp hoffer
    simp only [Offer.certs, List.mem_cons, List.not_mem_nil, or_false] at hmem
    rcases hmem with rfl | rfl | rfl | rfl | rfl
    · simp
    · simp
    · exact absurd hverify forgedGrant_invalid
    · simp
    · simp
  · rintro (rfl | rfl | rfl)
    · exact ⟨⟨_, List.mem_singleton_self _, by simp [Offer.certs]⟩, rfl⟩
    · exact ⟨⟨_, List.mem_singleton_self _, by simp [Offer.certs]⟩, rfl⟩
    · exact ⟨⟨_, List.mem_singleton_self _, by simp [Offer.certs]⟩, rfl⟩

/-- However they arrive, the device has one owner. -/
theorem offerAll_agrees_arrivals :
    ((new 1).offerAll arrivals).Agrees ((new 1).offerAll otherArrivals) := by
  refine (offerAll_agrees 1 ?_ (valid_arrivals.trans valid_otherArrivals.symm)).1
  rw [valid_arrivals]
  rintro x (rfl | rfl | rfl) y (rfl | rfl | rfl)
  all_goals decide +kernel

end Samples

end IrohBeekem
