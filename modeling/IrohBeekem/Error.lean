import Mathlib

/-!
# Identifiers and errors

Everything that crosses a boundary of the program is a fixed-width byte array:
a member id, a user id, a digest or a share key is thirty-two bytes, a nonce, a
domain tag or a document id sixteen.  An array is read as the big-endian number
it spells, so the lexicographic order of byte arrays is the order of numbers.

`CoreError` is the error type of the I/O-free core, one constructor per variant
of the source.  `CgkaError` is the error type of the key-agreement library; only
the variants the core names are told apart.
-/

namespace IrohBeekem

/-- Thirty-two bytes: a verifying key, a user id, a share key or a digest. -/
abbrev Bytes32 := Fin (2 ^ 256)

/-- Sixteen bytes: a nonce, a domain tag or a document id. -/
abbrev Bytes16 := Fin (2 ^ 128)

/-- Twenty-four bytes: what the storage keys of one asset's segments share. -/
abbrev Bytes24 := Fin (2 ^ 192)

/-- Sixty-four bytes: the two halves of an Ed25519 signature. -/
abbrev Bytes64 := Bytes32 × Bytes32

abbrev U64 := Fin (2 ^ 64)

abbrev U32 := Fin (2 ^ 32)

instance neZero_bytes32 : NeZero (2 ^ 256) := Nat.instNeZeroHPow

instance neZero_bytes16 : NeZero (2 ^ 128) := Nat.instNeZeroHPow

instance neZero_bytes24 : NeZero (2 ^ 192) := Nat.instNeZeroHPow

instance neZero_u64 : NeZero (2 ^ 64) := Nat.instNeZeroHPow

instance neZero_u32 : NeZero (2 ^ 32) := Nat.instNeZeroHPow

/-- The largest value of an unsigned type of `n` values. -/
def maxOf (n : Nat) [NeZero n] : Fin n := ⟨n - 1, Nat.sub_lt (Nat.pos_of_neZero n) Nat.one_pos⟩

/-- `saturating_add(1)`. -/
def satSucc {n : Nat} [NeZero n] (a : Fin n) : Fin n :=
  if h : a.val + 1 < n then ⟨a.val + 1, h⟩ else maxOf n

theorem le_satSucc {n : Nat} [NeZero n] (a : Fin n) : a ≤ satSucc a := by
  unfold satSucc
  split_ifs with h
  · exact Fin.le_def.mpr (Nat.le_succ a.val)
  · have hlast := a.isLt
    exact Fin.le_def.mpr (by simp only [maxOf]; omega)

theorem satSucc_mono {n : Nat} [NeZero n] {a b : Fin n} (h : a ≤ b) : satSucc a ≤ satSucc b := by
  have hlt := b.isLt
  rw [Fin.le_def] at h ⊢
  unfold satSucc
  split_ifs with ha hb hb
  · exact Nat.succ_le_succ h
  · simp only [maxOf]
    omega
  · simp only [maxOf]
    omega
  · exact le_rfl

theorem le_maxOf {n : Nat} [NeZero n] (a : Fin n) : a ≤ maxOf n := by
  have hlt := a.isLt
  exact Fin.le_def.mpr (by simp only [maxOf]; omega)

/-- Below the largest value, the sum is not the number itself. -/
theorem lt_satSucc {n : Nat} [NeZero n] {a : Fin n} (h : a < maxOf n) : a < satSucc a := by
  rw [Fin.lt_def] at h ⊢
  simp only [maxOf] at h
  unfold satSucc
  rw [dif_pos (by omega)]
  exact Nat.lt_succ_self _

/-- Failures of the key-agreement library, as far as the core tells them
apart. -/
inductive CgkaError where
  | outOfOrderOperation
  | removeLastMember
  | identifierNotFound
  | other (code : Nat)
  deriving DecidableEq

/-- Everything that can go wrong inside the core. -/
inductive CoreError where
  | cgka (err : CgkaError)
  | badSignature
  | wrongDomain
  | unauthorized (issuer : Bytes32)
  | uncertified (issuer : Bytes32)
  | signing (message : String)
  | aead
  | malformedSegment (message : String)
  | signerYielded
  | missingInitAdd
  | notInvited
  | incompleteLog (unresolved : Nat)
  | serialization
  | malformedKey (key : Bytes32)
  | snapshotVersion (found expected : Nat)
  | manifest (message : String)
  | unknownDocument
  | unknownVersion (version : String)
  | unknownDevice
  | notThisUsersDevice
  | notAnAdmin
  | notAWriter
  | quorumRequired (required held : Nat)
  | lastAdmin
  deriving DecidableEq

end IrohBeekem
