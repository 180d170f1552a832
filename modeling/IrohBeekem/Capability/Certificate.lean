import IrohBeekem.Error

/-!
# Signed authorization statements

The payloads an authorization statement can carry, the certificate that signs
one, and the two checks a certificate passes before it is stored: its domain
tag names its kind, and its signature verifies against the embedded issuer.

Ed25519 and BLAKE3 live in a dependency.  They enter as the operations of the
class `Keyhive`: the digest of a signed statement, the verdict on its signature,
and what a signer produces.  Nothing about them is assumed here.
-/

namespace IrohBeekem

/-- What a member is authorised to do. -/
inductive Role where
  /-- May change roles and add or remove members. -/
  | admin
  /-- May read and write documents. -/
  | editor
  /-- May read documents only. -/
  | viewer
  deriving DecidableEq

/-- Whether a role may write document content. -/
def Role.canWrite : Role → Bool
  | .admin | .editor => true
  | .viewer => false

/-- Whether a role may change roles or membership. -/
def Role.canAdminister : Role → Bool
  | .admin => true
  | .editor | .viewer => false

/-! ## Domain tags: sixteen bytes of printable ASCII each -/

/-- `iroh-beekem/grnt` -/
def grantDomain : Bytes16 := 0x69726f682d6265656b656d2f67726e74

/-- `iroh-beekem/bind` -/
def bindingDomain : Bytes16 := 0x69726f682d6265656b656d2f62696e64

/-- `iroh-beekem/prop` -/
def proposalDomain : Bytes16 := 0x69726f682d6265656b656d2f70726f70

/-- `iroh-beekem/aprv` -/
def approvalDomain : Bytes16 := 0x69726f682d6265656b656d2f61707276

/-- `iroh-beekem/plcy` -/
def policyDomain : Bytes16 := 0x69726f682d6265656b656d2f706c6379

/-- The threshold of a workspace whose founder set none. -/
def defaultThreshold : Nat := 1

/-! ## Payloads -/

/-- An admin's statement that a user holds a role.  Roles attach to users, not
to devices. -/
structure Grant where
  domain : Bytes16
  subject : Bytes32
  capability : Role
  /-- Which generation of this subject's role this is. -/
  seq : U64
  /-- Carried, not enforced. -/
  notAfter : Option U64
  nonce : Bytes16
  deriving DecidableEq

/-- The workspace's administrative threshold, fixed by its founder. -/
structure Policy where
  domain : Bytes16
  threshold : U32
  nonce : Bytes16
  deriving DecidableEq

/-- An administrative action a quorum of admins can authorise. -/
inductive AdminAction where
  /-- Retract one device's leaf. -/
  | removeMember (member : Bytes32)
  /-- Assign a role to a user. -/
  | setRole (user : Bytes32) (role : Role)
  deriving DecidableEq

/-- A proposed administrative action, awaiting approvals. -/
structure AdminProposal where
  domain : Bytes16
  action : AdminAction
  seq : U64
  /-- Carried, not enforced. -/
  expires : Option U64
  nonce : Bytes16
  deriving DecidableEq

/-- One admin's approval of a proposal, naming it by digest. -/
structure Approval where
  domain : Bytes16
  proposal : Bytes32
  nonce : Bytes16
  deriving DecidableEq

/-- A statement that a leaf of the tree belongs to a user. -/
structure DeviceBinding where
  domain : Bytes16
  device : Bytes32
  user : Bytes32
  nonce : Bytes16
  deriving DecidableEq

def Grant.new (subject : Bytes32) (capability : Role) (seq : U64)
    (notAfter : Option U64) (nonce : Bytes16) : Grant :=
  ⟨grantDomain, subject, capability, seq, notAfter, nonce⟩

def DeviceBinding.new (device user : Bytes32) (nonce : Bytes16) : DeviceBinding :=
  ⟨bindingDomain, device, user, nonce⟩

def AdminProposal.new (action : AdminAction) (seq : U64) (expires : Option U64)
    (nonce : Bytes16) : AdminProposal :=
  ⟨proposalDomain, action, seq, expires, nonce⟩

def Approval.new (proposal : Bytes32) (nonce : Bytes16) : Approval :=
  ⟨approvalDomain, proposal, nonce⟩

def Policy.new (threshold : U32) (nonce : Bytes16) : Policy :=
  ⟨policyDomain, threshold, nonce⟩

/-! ## Certificates -/

/-- A payload with the key that issued it and that key's signature. -/
structure Signed (α : Type) where
  payload : α
  issuer : Bytes32
  signature : Bytes64
  deriving DecidableEq

/-- One signed authorization statement. -/
inductive Certificate where
  /-- A user's role. -/
  | grant (signed : Signed Grant)
  /-- A device's owner. -/
  | binding (signed : Signed DeviceBinding)
  /-- An administrative action awaiting approvals. -/
  | proposal (signed : Signed AdminProposal)
  /-- One admin's approval of a proposal. -/
  | approval (signed : Signed Approval)
  /-- The workspace's administrative threshold. -/
  | policy (signed : Signed Policy)
  deriving DecidableEq

/-- What a member's signing key can be asked to sign, and the certificate that
comes of it. -/
inductive Payload where
  | grant (payload : Grant)
  | binding (payload : DeviceBinding)
  | proposal (payload : AdminProposal)
  | approval (payload : Approval)
  | policy (payload : Policy)
  deriving DecidableEq

/-- The cryptography the certificate layer calls. -/
class Keyhive where
  /-- The digest that identifies a certificate. -/
  digest : Certificate → Bytes32
  /-- Whether the signature verifies against the embedded issuer key. -/
  tryVerify : Certificate → Bool
  /-- What the holder of a verifying key's secret signs a payload to. -/
  trySign : Bytes32 → Payload → Except String Bytes64
  /-- Whether thirty-two bytes are a point on the curve. -/
  isPoint : Bytes32 → Bool

/-- Restore a member identity from its compressed form. -/
def memberFromBytes [Keyhive] (bytes : Bytes32) : Except CoreError Bytes32 :=
  if Keyhive.isPoint bytes then .ok bytes else .error (.malformedKey bytes)

/-- A payload under an issuer and a signature, as the certificate of its
kind. -/
def Payload.certificate (issuer : Bytes32) (signature : Bytes64) : Payload → Certificate
  | .grant p => .grant ⟨p, issuer, signature⟩
  | .binding p => .binding ⟨p, issuer, signature⟩
  | .proposal p => .proposal ⟨p, issuer, signature⟩
  | .approval p => .approval ⟨p, issuer, signature⟩
  | .policy p => .policy ⟨p, issuer, signature⟩

/-- The five `sign` methods of the source: each signs its payload and wraps the
result in its own kind of certificate. -/
def Payload.sign [Keyhive] (signer : Bytes32) (p : Payload) : Except CoreError Certificate :=
  match Keyhive.trySign signer p with
  | .ok signature => .ok (p.certificate signer signature)
  | .error message => .error (.signing message)

namespace Certificate

/-- The device that issued this certificate. -/
def issuer : Certificate → Bytes32
  | .grant signed => signed.issuer
  | .binding signed => signed.issuer
  | .proposal signed => signed.issuer
  | .approval signed => signed.issuer
  | .policy signed => signed.issuer

/-- Which of the five kinds a certificate is of. -/
def kind : Certificate → Nat
  | .grant _ => 0
  | .binding _ => 1
  | .proposal _ => 2
  | .approval _ => 3
  | .policy _ => 4

/-- This certificate's digest, which identifies it in the store. -/
def digest [Keyhive] (cert : Certificate) : Bytes32 := Keyhive.digest cert

/-- Check the domain tag, then the signature against the embedded issuer. -/
def verify [Keyhive] (cert : Certificate) : Except CoreError Unit :=
  let domainOk : Bool :=
    match cert with
    | .grant signed => signed.payload.domain = grantDomain
    | .binding signed => signed.payload.domain = bindingDomain
    | .proposal signed => signed.payload.domain = proposalDomain
    | .approval signed => signed.payload.domain = approvalDomain
    | .policy signed => signed.payload.domain = policyDomain
  if domainOk then
    if Keyhive.tryVerify cert then .ok () else .error .badSignature
  else .error .wrongDomain

end Certificate

/-! ## A transparent cryptography

For evaluating the model on concrete inputs: a digest is the kind of the
statement and its nonce, a signature repeats the signing key. -/

/-- The nonce a certificate carries. -/
def Certificate.nonce : Certificate → Bytes16
  | .grant signed => signed.payload.nonce
  | .binding signed => signed.payload.nonce
  | .proposal signed => signed.payload.nonce
  | .approval signed => signed.payload.nonce
  | .policy signed => signed.payload.nonce

/-- The signature a certificate carries. -/
def Certificate.signature : Certificate → Bytes64
  | .grant signed => signed.signature
  | .binding signed => signed.signature
  | .proposal signed => signed.signature
  | .approval signed => signed.signature
  | .policy signed => signed.signature

/-- Keys sign by their own bytes, and statements of one kind are told apart by
their nonces. -/
@[reducible] def transparentKeyhive : Keyhive where
  digest cert := Fin.ofNat _ (cert.kind * 2 ^ 128 + cert.nonce.val)
  tryVerify cert := cert.signature = (cert.issuer, 0)
  trySign signer _ := .ok (signer, 0)
  isPoint _ := true

/-- What a key signs a payload to under the transparent cryptography. -/
def Payload.signedBy (p : Payload) (issuer : Bytes32) : Certificate :=
  p.certificate issuer (issuer, 0)

end IrohBeekem
