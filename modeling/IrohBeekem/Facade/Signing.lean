import IrohBeekem.Capability.Encoding
import IrohBeekem.Facade.Invite

/-!
# One signature, one statement

Six types of payload are signed by member keys: the five of the certificates and the
terms of an invite.  A pair of issuer and signature is an argument about bytes, and a
receiver decides what the bytes are read as, so a pair made for one statement speaks for
every statement that encodes alike.  `signatures_bind_one_statement` says there is none:
checked tags keep the six types apart from each other and from the operations of the
group, and within a type the bytes determine the value.
-/

set_option linter.unusedSectionVars false

namespace IrohBeekem

open Library

section Statements

variable [Keyhive] [Beekem] [DocTickets]

/-- The layouts of the parts of a ticket that are laid out by the crates they come from. -/
class TermsLayout where
  docTicket : Codec DocTicket
  operation : Codec ControlOp
  certificate : Codec Certificate
  endpoint : Codec Bytes32

variable [TermsLayout] [TermsSigner]

/-- A `Vec`: its length, then its elements. -/
def vecEncode {α : Type} (c : Codec α) (l : List α) : List UInt8 :=
  u64Codec.encode (Fin.ofNat _ l.length) ++ c.sequence l

/-- Vectors are as long as the length field says. -/
theorem vecEncode_cancel {α : Type} (c : Codec α) {l l' : List α} {rest rest' : List UInt8}
    (hl : l.length < 2 ^ 64) (hl' : l'.length < 2 ^ 64)
    (h : vecEncode c l ++ rest = vecEncode c l' ++ rest') : l = l' ∧ rest = rest' := by
  simp only [vecEncode, List.append_assoc] at h
  obtain ⟨hlength, hrest⟩ := u64Codec.cancel h
  have hvalue := congrArg Fin.val hlength
  simp only [Fin.ofNat, Nat.mod_eq_of_lt hl, Nat.mod_eq_of_lt hl'] at hvalue
  exact c.sequence_cancel hvalue hrest

namespace InviteTerms

/-- The bytes the signature of an invite covers. -/
def encode (terms : InviteTerms) : List UInt8 :=
  bytes16Codec.encode terms.domain ++ (bytes32Codec.encode terms.treeId ++
    (bytes32Codec.encode terms.invitee ++ (u64Codec.encode terms.notAfter ++
    (bytes16Codec.encode terms.nonce ++ (u32Codec.encode terms.epoch ++
    (TermsLayout.docTicket.encode terms.docTicket ++
    (bytes32Codec.encode terms.workspaceSecret ++
    (vecEncode TermsLayout.operation terms.log ++
    (vecEncode TermsLayout.certificate terms.certs ++
    TermsLayout.endpoint.encode terms.inviter)))))))))

/-- Vectors as long as a machine can hold. -/
structure Sized (terms : InviteTerms) : Prop where
  log : terms.log.length < 2 ^ 64
  certs : terms.certs.length < 2 ^ 64

theorem encode_injective {terms terms' : InviteTerms} (hsized : terms.Sized)
    (hsized' : terms'.Sized) (h : terms.encode = terms'.encode) : terms = terms' := by
  unfold encode at h
  obtain ⟨hdomain, h⟩ := bytes16Codec.cancel h
  obtain ⟨htree, h⟩ := bytes32Codec.cancel h
  obtain ⟨hinvitee, h⟩ := bytes32Codec.cancel h
  obtain ⟨hafter, h⟩ := u64Codec.cancel h
  obtain ⟨hnonce, h⟩ := bytes16Codec.cancel h
  obtain ⟨hepoch, h⟩ := u32Codec.cancel h
  obtain ⟨hticket, h⟩ := TermsLayout.docTicket.cancel h
  obtain ⟨hsecret, h⟩ := bytes32Codec.cancel h
  obtain ⟨hlog, h⟩ := vecEncode_cancel _ hsized.log hsized'.log h
  obtain ⟨hcerts, h⟩ := vecEncode_cancel _ hsized.certs hsized'.certs h
  have hinviter := TermsLayout.endpoint.injective h
  cases terms
  cases terms'
  rw [InviteTerms.mk.injEq]
  exact ⟨hdomain, htree, hinvitee, hafter, hnonce, hepoch, hticket, hsecret, hlog, hcerts,
    hinviter⟩

end InviteTerms

/-! ## Statements of all six types -/

/-- A payload that member keys sign. -/
inductive Statement where
  | payload (p : Payload)
  | terms (t : InviteTerms)

namespace Statement

/-- Which of the six types a statement is of. -/
def kind : Statement → Nat
  | .payload p => p.kind
  | .terms _ => 5

/-- The tag a statement carries. -/
def domain : Statement → Bytes16
  | .payload p => p.domain
  | .terms t => t.domain

/-- The tag a statement of its type is to carry. -/
def tag : Statement → Bytes16
  | .payload p => p.tag
  | .terms _ => inviteDomain

/-- The bytes a statement's signature covers. -/
def encode : Statement → List UInt8
  | .payload p => p.encode
  | .terms t => t.encode

/-- Vectors as long as a machine can hold. -/
def Sized : Statement → Prop
  | .payload _ => True
  | .terms t => t.Sized

/-- The tag and the signature are in order: all of `Certificate::verify`, and the first
two checks of `Invite::verify`. -/
def Verifies (issuer : Bytes32) (signature : Bytes64) : Statement → Prop
  | .payload p => (p.certificate issuer signature).verify = .ok ()
  | .terms t => t.domain = inviteDomain ∧ TermsSigner.tryVerify ⟨t, issuer, signature⟩ = true

/-- The tags of the six types, by kind. -/
def tags : List Bytes16 :=
  [grantDomain, bindingDomain, proposalDomain, approvalDomain, policyDomain, inviteDomain]

theorem tags_nodup : tags.Nodup := by decide

theorem tags_kind (s : Statement) : tags[s.kind]? = some s.tag := by
  cases s with
  | payload p => cases p <;> rfl
  | terms t => rfl

/-- The six tags differ. -/
theorem kind_of_tag {s s' : Statement} (h : s.tag = s'.tag) : s.kind = s'.kind := by
  obtain ⟨hlt, hs⟩ := List.getElem?_eq_some_iff.mp (tags_kind s)
  obtain ⟨hlt', hs'⟩ := List.getElem?_eq_some_iff.mp (tags_kind s')
  exact (tags_nodup.getElem_inj_iff).mp (hs.trans (h.trans hs'.symm))

theorem encode_domain (s : Statement) :
    ∃ fields, s.encode = bytes16Codec.encode s.domain ++ fields := by
  cases s with
  | payload p => exact p.encode_domain
  | terms t => exact ⟨_, rfl⟩

/-- Statements that encode alike carry the same tag. -/
theorem domain_of_encode {s s' : Statement} (h : s.encode = s'.encode) :
    s.domain = s'.domain := by
  obtain ⟨fields, hs⟩ := s.encode_domain
  obtain ⟨fields', hs'⟩ := s'.encode_domain
  exact (bytes16Codec.cancel (hs.symm.trans (h.trans hs'))).1

/-- The fourth byte of a tag is a letter. -/
theorem tags_fourth : ∀ tag ∈ tags, tag.val / 256 ^ 12 % 2 ^ 8 = 0x68 := by
  simp [tags, grantDomain, bindingDomain, proposalDomain, approvalDomain, policyDomain,
    inviteDomain]

/-- A checked tag is not the beginning of an enum's encoding. -/
theorem encode_ne_enum {s : Statement} (htag : s.domain = s.tag) {index : U32}
    (hsmall : index.val < 2 ^ 24) (fields : List UInt8) : s.encode ≠ enumEncode index fields := by
  intro h
  obtain ⟨rest, hs⟩ := s.encode_domain
  have hfourth := enumEncode_fourth hsmall fields
  rw [← h, hs, htag, List.getElem?_append_left (by simp [bytes16Codec]), bytes16_fourth]
    at hfourth
  have hzero : (UInt8.ofNat (s.tag.val / 256 ^ 12)).toNat = 0 :=
    congrArg UInt8.toNat (Option.some.inj hfourth)
  have hletter := tags_fourth s.tag (List.mem_of_getElem? s.tags_kind)
  rw [UInt8.toNat_ofNat', hletter] at hzero
  exact absurd hzero (by decide)

/-- Within a type the bytes determine the value. -/
theorem encode_injective {s s' : Statement} (hsized : s.Sized) (hsized' : s'.Sized)
    (hkind : s.kind = s'.kind) (h : s.encode = s'.encode) : s = s' := by
  cases s with
  | payload p =>
      cases s' with
      | payload q => exact congrArg _ (Payload.encode_injective hkind h)
      | terms t => cases p <;> cases hkind
  | terms t =>
      cases s' with
      | payload q => cases q <;> cases hkind
      | terms t' => exact congrArg _ (InviteTerms.encode_injective hsized hsized' h)

/-! ## Signatures -/

/-- What is checked under an issuer key is a function of the bytes of the payload. -/
structure CoversEncoding (check : Bytes32 → List UInt8 → Bytes64 → Bool) : Prop where
  certificate : ∀ issuer signature (p : Payload),
    Keyhive.tryVerify (p.certificate issuer signature) = check issuer p.encode signature
  terms : ∀ issuer signature (t : InviteTerms),
    TermsSigner.tryVerify ⟨t, issuer, signature⟩ = check issuer t.encode signature

/-- A pair of issuer and signature that was made for one message. -/
def SignsOne (check : Bytes32 → List UInt8 → Bytes64 → Bool) (issuer : Bytes32)
    (signature : Bytes64) : Prop :=
  ∀ message message', check issuer message signature = true →
    check issuer message' signature = true → message = message'

/-- The two checks of a certificate, by its payload. -/
theorem verify_certificate (p : Payload) (issuer : Bytes32) (signature : Bytes64) :
    (p.certificate issuer signature).verify =
      if p.domain = p.tag then
        if Keyhive.tryVerify (p.certificate issuer signature) then .ok ()
        else .error .badSignature
      else .error .wrongDomain := by
  cases p <;>
    simp only [Payload.certificate, Certificate.verify, Payload.domain, Payload.tag,
      decide_eq_true_eq] <;>
    congr

/-- A certificate that verifies carries its tag. -/
theorem domain_of_verify {p : Payload} {issuer : Bytes32} {signature : Bytes64}
    (h : (p.certificate issuer signature).verify = .ok ()) :
    p.domain = p.tag ∧ Keyhive.tryVerify (p.certificate issuer signature) = true := by
  rw [verify_certificate] at h
  split_ifs at h with htag hsignature
  exact ⟨htag, hsignature⟩

/-- A statement that verifies carries its tag, and its bytes pass the check. -/
theorem Verifies.covers {check : Bytes32 → List UInt8 → Bytes64 → Bool}
    (hcheck : CoversEncoding check) {issuer : Bytes32} {signature : Bytes64} {s : Statement}
    (h : s.Verifies issuer signature) :
    s.domain = s.tag ∧ check issuer s.encode signature = true := by
  cases s with
  | payload p =>
      obtain ⟨htag, hsignature⟩ := domain_of_verify h
      exact ⟨htag, (hcheck.certificate issuer signature p).symm.trans hsignature⟩
  | terms t => exact ⟨h.1, (hcheck.terms issuer signature t).symm.trans h.2⟩

/-- Checked statements that encode alike are of one type. -/
theorem kind_of_encode {s s' : Statement} (htag : s.domain = s.tag) (htag' : s'.domain = s'.tag)
    (h : s.encode = s'.encode) : s.kind = s'.kind := by
  have hdomain := domain_of_encode h
  rw [htag, htag'] at hdomain
  exact kind_of_tag hdomain

end Statement

open Statement in
/-- The encodings of checked statements of different types differ, none is that of an enum
value with a small index, and within a certificate type the encoding is injective.  So a
pair of issuer and signature that was made for one message verifies for one statement. -/
theorem signatures_bind_one_statement {check : Bytes32 → List UInt8 → Bytes64 → Bool}
    (hcheck : CoversEncoding check) :
    (∀ s s' : Statement, s.domain = s.tag → s'.domain = s'.tag → s.kind ≠ s'.kind →
      s.encode ≠ s'.encode) ∧
    (∀ s : Statement, s.domain = s.tag → ∀ index : U32, index.val < 2 ^ 24 → ∀ fields,
      s.encode ≠ enumEncode index fields) ∧
    (∀ p q : Payload, p.kind = q.kind → p.encode = q.encode → p = q) ∧
    ∀ issuer signature, SignsOne check issuer signature →
      ∀ s s' : Statement, s.Sized → s'.Sized → s.Verifies issuer signature →
        s'.Verifies issuer signature → s = s' := by
  refine ⟨?_, ?_, ?_, ?_⟩
  · intro s s' htag htag' hkind hencode
    exact hkind (kind_of_encode htag htag' hencode)
  · intro s htag index hsmall fields
    exact encode_ne_enum htag hsmall fields
  · intro p q hkind hencode
    exact Payload.encode_injective hkind hencode
  · intro issuer signature hone s s' hsized hsized' hverifies hverifies'
    obtain ⟨htag, hchecked⟩ := hverifies.covers hcheck
    obtain ⟨htag', hchecked'⟩ := hverifies'.covers hcheck
    have hencode := hone _ _ hchecked hchecked'
    exact encode_injective hsized hsized' (kind_of_encode htag htag' hencode) hencode

end Statements

/-! ## Two signed messages -/

section Samples

deriving instance Encodable for OpId
deriving instance Encodable for CgkaOperation
deriving instance Encodable for Signed
deriving instance Encodable for Role
deriving instance Encodable for Grant
deriving instance Encodable for DeviceBinding
deriving instance Encodable for AdminAction
deriving instance Encodable for AdminProposal
deriving instance Encodable for Approval
deriving instance Encodable for Policy
deriving instance Encodable for Certificate

def signedGrant : Payload := .grant (.new 101 .editor 1 none 7)

def signedBinding : Payload := .binding (.new 3 101 7)

/-- Every key has signed a grant and a binding, and nothing else. -/
def checkTwo (issuer : Bytes32) (message : List UInt8) (signature : Bytes64) : Bool :=
  (message = signedGrant.encode ∧ signature = (issuer, 1)) ∨
    (message = signedBinding.encode ∧ signature = (issuer, 2))

/-- The payload a certificate signs. -/
def Certificate.payload : Certificate → Payload
  | .grant signed => .grant signed.payload
  | .binding signed => .binding signed.payload
  | .proposal signed => .proposal signed.payload
  | .approval signed => .approval signed.payload
  | .policy signed => .policy signed.payload

local instance twoKeyhive : Keyhive where
  digest _ := 0
  tryVerify cert := checkTwo cert.issuer cert.payload.encode cert.signature
  trySign signer p :=
    if p = signedGrant then .ok (signer, 1)
    else if p = signedBinding then .ok (signer, 2)
    else .error "not signed here"
  isPoint _ := true

local instance signingBeekem : Beekem := listBeekem

local instance signingTickets : DocTickets := ⟨Bytes32⟩

local instance signingLayout : TermsLayout where
  docTicket := bytes32Codec
  operation := Codec.ofEncodable (α := Signed (CgkaOperation OpId))
  certificate := Codec.ofEncodable
  endpoint := bytes32Codec

local instance twoSigner : TermsSigner where
  trySign _ _ := none
  tryVerify invite := checkTwo invite.issuer invite.payload.encode invite.signature

theorem checkTwo_covers : Statement.CoversEncoding checkTwo where
  certificate issuer signature p := by cases p <;> rfl
  terms _ _ _ := rfl

theorem checkTwo_signsOne : Statement.SignsOne checkTwo 9 (9, 1) := by
  intro message message' h h'
  simp [checkTwo] at h h'
  rw [h, h']

/-- The signature on the grant is none on the binding. -/
theorem signedGrant_alone :
    (Statement.payload signedGrant).Verifies 9 (9, 1) ∧
      ¬ (Statement.payload signedBinding).Verifies 9 (9, 1) := by
  have hgrant : (Statement.payload signedGrant).Verifies 9 (9, 1) := rfl
  refine ⟨hgrant, fun hbinding => ?_⟩
  have hsame := (signatures_bind_one_statement checkTwo_covers).2.2.2 9 (9, 1)
    checkTwo_signsOne (.payload signedGrant) (.payload signedBinding) trivial trivial hgrant
    hbinding
  cases hsame

end Samples

end IrohBeekem
