import IrohBeekem.Capability.Certificate
import IrohBeekem.Library.Codec

/-!
# What a signature covers

A signature is over the `bincode` layout of its payload, with no type name in it: the
fields in order, integers and the index of an enum's variant of fixed width and least
significant byte first, an array as its bytes, an optional field behind a byte that says
whether it is there.  The first field of every payload is its domain tag.

Two facts follow.  A payload is determined by its bytes.  And its bytes begin with its tag,
whose fourth byte is a letter, where the fourth byte of an enum's encoding is zero as long
as the index of the variant is below `2 ^ 24`.
-/

namespace IrohBeekem

open Library

/-! ## The layout of the field types -/

/-- `[u8; 32]` -/
def bytes32Codec : Codec Bytes32 := .array 32 _ Codec.fits_256

/-- `[u8; 16]` -/
def bytes16Codec : Codec Bytes16 := .array 16 _ Codec.fits_128

def u64Codec : Codec U64 := .word 8 _ Codec.fits_64

def u32Codec : Codec U32 := .word 4 _ Codec.fits_32

/-- The encoding of an enum value: the index of its variant, then its fields. -/
def enumEncode (index : U32) (fields : List UInt8) : List UInt8 := u32Codec.encode index ++ fields

/-- Small variants leave the most significant byte of their index zero. -/
theorem enumEncode_fourth {index : U32} (hsmall : index.val < 2 ^ 24) (fields : List UInt8) :
    (enumEncode index fields)[3]? = some 0 := by
  have hbyte : (u32Codec.encode index)[3]? = some (UInt8.ofNat (index.val / 256 ^ 3)) :=
    littleEndian_getElem? index.val (by omega)
  have hzero : index.val / 256 ^ 3 = 0 := Nat.div_eq_of_lt (by omega)
  rw [enumEncode, List.getElem?_append_left (by simp [u32Codec]), hbyte, hzero]
  rfl

/-- The fourth byte of a tag, which is its digit at the thirteenth place. -/
theorem bytes16_fourth (tag : Bytes16) :
    (bytes16Codec.encode tag)[3]? = some (UInt8.ofNat (tag.val / 256 ^ 12)) := by
  have hlength := littleEndian_length 16 tag.val
  calc (littleEndian 16 tag.val).reverse[3]?
      = (littleEndian 16 tag.val)[16 - 1 - 3]? := by
        rw [List.getElem?_reverse (by omega), hlength]
    _ = some (UInt8.ofNat (tag.val / 256 ^ 12)) := littleEndian_getElem? tag.val (by omega)

/-- The index of a variant in its declaration. -/
def Role.index : Role → U32
  | .admin => 0
  | .editor => 1
  | .viewer => 2

def Role.ofIndex (index : U32) : Option Role :=
  if index = 0 then some .admin
  else if index = 1 then some .editor
  else if index = 2 then some .viewer
  else none

theorem Role.ofIndex_index (role : Role) : ofIndex role.index = some role := by
  cases role <;> rfl

def roleCodec : Codec Role := u32Codec.through Role.index Role.ofIndex Role.ofIndex_index

namespace AdminAction

/-- The fields of the variant with an index. -/
abbrev Fields : Fin 2 → Type
  | 0 => Bytes32
  | 1 => Bytes32 × Role

def view : AdminAction → (i : Fin 2) × Fields i
  | .removeMember member => ⟨0, member⟩
  | .setRole user role => ⟨1, (user, role)⟩

def build : (i : Fin 2) × Fields i → AdminAction
  | ⟨0, member⟩ => .removeMember member
  | ⟨1, (user, role)⟩ => .setRole user role

theorem build_view (action : AdminAction) : build action.view = action := by
  cases action <;> rfl

def fieldsCodec : (i : Fin 2) → Codec (Fields i)
  | 0 => bytes32Codec
  | 1 => bytes32Codec.pair roleCodec

end AdminAction

def actionCodec : Codec AdminAction :=
  (Codec.tagged (.word 4 2 (by norm_num)) AdminAction.fieldsCodec).through AdminAction.view
    (fun v => some (AdminAction.build v)) fun action => congrArg some action.build_view

/-! ## The layout of the payloads -/

def grantCodec : Codec Grant :=
  (bytes16Codec.pair <| bytes32Codec.pair <| roleCodec.pair <| u64Codec.pair <|
    u64Codec.option.pair bytes16Codec).through
    (fun p => (p.domain, p.subject, p.capability, p.seq, p.notAfter, p.nonce))
    (fun v => some ⟨v.1, v.2.1, v.2.2.1, v.2.2.2.1, v.2.2.2.2.1, v.2.2.2.2.2⟩)
    fun _ => rfl

def bindingCodec : Codec DeviceBinding :=
  (bytes16Codec.pair <| bytes32Codec.pair <| bytes32Codec.pair bytes16Codec).through
    (fun p => (p.domain, p.device, p.user, p.nonce))
    (fun v => some ⟨v.1, v.2.1, v.2.2.1, v.2.2.2⟩)
    fun _ => rfl

def proposalCodec : Codec AdminProposal :=
  (bytes16Codec.pair <| actionCodec.pair <| u64Codec.pair <|
    u64Codec.option.pair bytes16Codec).through
    (fun p => (p.domain, p.action, p.seq, p.expires, p.nonce))
    (fun v => some ⟨v.1, v.2.1, v.2.2.1, v.2.2.2.1, v.2.2.2.2⟩)
    fun _ => rfl

def approvalCodec : Codec Approval :=
  (bytes16Codec.pair <| bytes32Codec.pair bytes16Codec).through
    (fun p => (p.domain, p.proposal, p.nonce))
    (fun v => some ⟨v.1, v.2.1, v.2.2⟩)
    fun _ => rfl

def policyCodec : Codec Policy :=
  (bytes16Codec.pair <| u32Codec.pair bytes16Codec).through
    (fun p => (p.domain, p.threshold, p.nonce))
    (fun v => some ⟨v.1, v.2.1, v.2.2⟩)
    fun _ => rfl

namespace Payload

/-- The bytes a payload's signature covers. -/
def encode : Payload → List UInt8
  | .grant p => grantCodec.encode p
  | .binding p => bindingCodec.encode p
  | .proposal p => proposalCodec.encode p
  | .approval p => approvalCodec.encode p
  | .policy p => policyCodec.encode p

/-- The tag a payload carries. -/
def domain : Payload → Bytes16
  | .grant p => p.domain
  | .binding p => p.domain
  | .proposal p => p.domain
  | .approval p => p.domain
  | .policy p => p.domain

/-- The tag a payload of its type is to carry. -/
def tag : Payload → Bytes16
  | .grant _ => grantDomain
  | .binding _ => bindingDomain
  | .proposal _ => proposalDomain
  | .approval _ => approvalDomain
  | .policy _ => policyDomain

/-- Which of the five types a payload is of. -/
def kind : Payload → Nat
  | .grant _ => 0
  | .binding _ => 1
  | .proposal _ => 2
  | .approval _ => 3
  | .policy _ => 4

/-- A payload's encoding begins with the tag it carries. -/
theorem encode_domain (p : Payload) :
    ∃ fields, p.encode = bytes16Codec.encode p.domain ++ fields := by
  cases p with
  | grant p => exact ⟨_, rfl⟩
  | binding p => exact ⟨_, rfl⟩
  | proposal p => exact ⟨_, rfl⟩
  | approval p => exact ⟨_, rfl⟩
  | policy p => exact ⟨_, rfl⟩

/-- Two payloads of one type are told apart by their bytes, whatever tags they carry. -/
theorem encode_injective {p q : Payload} (htype : p.kind = q.kind) (h : p.encode = q.encode) :
    p = q := by
  cases p with
  | grant p =>
      cases q with
      | grant q => exact congrArg _ (grantCodec.injective h)
      | _ => cases htype
  | binding p =>
      cases q with
      | binding q => exact congrArg _ (bindingCodec.injective h)
      | _ => cases htype
  | proposal p =>
      cases q with
      | proposal q => exact congrArg _ (proposalCodec.injective h)
      | _ => cases htype
  | approval p =>
      cases q with
      | approval q => exact congrArg _ (approvalCodec.injective h)
      | _ => cases htype
  | policy p =>
      cases q with
      | policy q => exact congrArg _ (policyCodec.injective h)
      | _ => cases htype

end Payload

end IrohBeekem
