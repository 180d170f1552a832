import Mathlib
import IrohBeekem.Docs.Hex
import IrohBeekem.Library.Segments
import IrohBeekem.Library.Wp

/-!
# Asset payloads

An asset is sealed a segment at a time under a content key of its own, and written out a
segment at a time from what its index entries name.  Each segment authenticates the asset
it belongs to, its position, the number of segments and their width; the record of an
asset in the manifest, which any member may rewrite, holds these two again with the size
and the digest of the plaintext.

What a rewritten record is answered with is settled by the two loops: a record that keeps
the number and the width of the segments trims the sealed bytes to the size it claims, and
a record of no segments opens none.
-/

set_option linter.unusedSectionVars false

namespace IrohBeekem

open Library

/-! ## What the cipher and the hash do -/

/-- The cipher that protects a segment, and the hash that keys are derived with. -/
class SegmentCipher where
  /-- The ciphertext and its tag, unless the cipher refuses. -/
  encryptInPlaceDetached : (key : Bytes32) → (nonce aad buffer : Bytes) → Option (Bytes × Bytes)
  /-- The plaintext, if the tag authenticates it. -/
  decryptInPlaceDetached : (key : Bytes32) → (nonce aad buffer tag : Bytes) → Option Bytes
  /-- The hash of some material in the domain a context names. -/
  deriveKey : (context : String) → (material : Bytes) → Bytes32

export SegmentCipher (encryptInPlaceDetached decryptInPlaceDetached deriveKey)

/-- The tag is sixteen bytes long, and decryption undoes encryption. -/
class LawfulSegmentCipher [SegmentCipher] : Prop where
  tag_length : ∀ {key nonce aad buffer body tag},
    encryptInPlaceDetached key nonce aad buffer = some (body, tag) → tag.length = 16
  decrypt_encrypt : ∀ {key nonce aad buffer body tag},
    encryptInPlaceDetached key nonce aad buffer = some (body, tag) →
      decryptInPlaceDetached key nonce aad body tag = some buffer

/-- What is sealed under a key opens under it with no other nonce and associated data than
it was sealed with. -/
def Unforgeable [SegmentCipher] (key : Bytes32) (sealings : Set (Bytes × Bytes × Bytes)) : Prop :=
  ∀ nonce aad buffer, (nonce, aad, buffer) ∈ sealings →
    ∀ body tag, encryptInPlaceDetached key nonce aad buffer = some (body, tag) →
      ∀ nonce' aad' opened, decryptInPlaceDetached key nonce' aad' body tag = some opened →
        nonce' = nonce ∧ aad' = aad

/-! ## Segments -/

/-- What writing an asset or reading it back can fail with. -/
inductive AssetError where
  | core (err : CoreError)
  | assetIo (message : String)
  | storage (message : String)
  | missingSegment (index : Nat)
  | corruptAsset
  deriving DecidableEq

/-- `ASSET_SEGMENT_BYTES`: four mebibytes. -/
@[irreducible] def assetSegmentBytes : U32 := 4194304

def assetNonceContext : String := "iroh-beekem/asset-nonce/v1"

def assetContentContext : String := "iroh-beekem/asset-content/v1"

namespace AssetMeta

/-- How many segments an asset of some size takes.  There is one for an empty asset, and
one for a width that holds nothing. -/
def segmentsFor (size : U64) (segmentBytes : U32) : U64 :=
  let per := segmentBytes.val
  if per = 0 then 1
  else
    let full := size.val / per
    if size.val % per = 0 then Fin.ofNat _ (max full 1) else Fin.ofNat _ (full + 1)

/-- How many bytes of a segment are not filling, by what the record says. -/
def payloadLen (assetMeta : AssetMeta) (index : Nat) : Nat :=
  let per := assetMeta.segmentBytes.val
  let start := min (index * per) (2 ^ 64 - 1)
  min (assetMeta.size.val - start) per

end AssetMeta

/-- The digest of the bytes absorbed so far. -/
structure ContentDigest where
  absorbed : Bytes

namespace ContentDigest

def new : ContentDigest := ⟨[]⟩

def update (digest : ContentDigest) (bytes : Bytes) : ContentDigest :=
  ⟨digest.absorbed ++ bytes⟩

variable [SegmentCipher]

def finish (digest : ContentDigest) : Bytes32 := deriveKey assetContentContext digest.absorbed

/-- The digest of a whole buffer. -/
def newOver (bytes : Bytes) : Bytes32 := (new.update bytes).finish

end ContentDigest

section Segments

variable [SegmentCipher]

/-- The nonce of one segment, derived from its position. -/
def segmentNonce (uuid : DocumentUuid) (index : Nat) : Bytes :=
  (Bytes32.toBytes (deriveKey assetNonceContext (uuid.toBytes ++ beBytes 8 index))).take 24

/-- What a segment authenticates besides its bytes. -/
def segmentAad (uuid : DocumentUuid) (index : Nat) (segments : U64) (segmentBytes : U32) : Bytes :=
  uuid.toBytes ++ (beBytes 8 index ++ (beBytes 8 segments.val ++ beBytes 4 segmentBytes.val))

def sealSegment (key : Bytes32) (uuid : DocumentUuid) (index : Nat) (segments : U64)
    (segmentBytes : U32) (plaintext : Bytes) : Except CoreError Bytes :=
  let width := segmentBytes.val
  if width < plaintext.length then
    .error (.malformedSegment ("a segment carries at most " ++ toString width ++
      " bytes, got " ++ toString plaintext.length))
  else
    match encryptInPlaceDetached key (segmentNonce uuid index)
        (segmentAad uuid index segments segmentBytes) (padTo 0 width plaintext) with
    | none => .error .aead
    | some (body, tag) => .ok (body ++ tag)

def openSegment (key : Bytes32) (uuid : DocumentUuid) (index : Nat) (segments : U64)
    (segmentBytes : U32) (payload : Nat) (sealed : Bytes) : Except CoreError Bytes :=
  if sealed.length < 16 then
    .error (.malformedSegment "shorter than its authentication tag")
  else
    let split := sealed.length - 16
    match decryptInPlaceDetached key (segmentNonce uuid index)
        (segmentAad uuid index segments segmentBytes) (sealed.take split) (sealed.drop split) with
    | none => .error .aead
    | some opened => .ok (opened.take payload)

end Segments

/-! ## The two loops -/

section Loops

variable [SegmentCipher]

/-- Fill a buffer from a file, or fail where the file ends before it is full. -/
def readExact (want : Nat) (file : Bytes) : Except AssetError (Bytes × Bytes) :=
  if want ≤ file.length then .ok (file.take want, file.drop want)
  else .error (.assetIo "failed to fill whole buffer")

/-- The segments from one position on: what is left of the size and of the file, what the
digest has absorbed and what is stored. -/
def writeSegmentsFrom (storeSegment : Nat → Bytes → Except AssetError Unit) (uuid : DocumentUuid)
    (key : Bytes32) (segments : U64) (segmentBytes : U32) :
    (left index remaining : Nat) → (file : Bytes) → ContentDigest → List Bytes →
      Except AssetError (ContentDigest × List Bytes)
  | 0, _, _, _, digest, stored => .ok (digest, stored)
  | left + 1, index, remaining, file, digest, stored => do
      let want := min remaining segmentBytes.val
      let (buffer, file) ← readExact want file
      let sealed ← (sealSegment key uuid index segments segmentBytes buffer).mapError .core
      storeSegment index sealed
      writeSegmentsFrom storeSegment uuid key segments segmentBytes left (index + 1)
        (remaining - want) file (digest.update buffer) (stored ++ [sealed])

/-- Seal and store every segment of a file; the digest of the plaintext and what is stored
at each position. -/
def writeSegments (storeSegment : Nat → Bytes → Except AssetError Unit) (uuid : DocumentUuid)
    (key : Bytes32) (size segments : U64) (segmentBytes : U32) (file : Bytes) :
    Except AssetError (Bytes32 × List Bytes) := do
  let (digest, stored) ← writeSegmentsFrom storeSegment uuid key segments segmentBytes
    segments.val 0 size.val file ContentDigest.new []
  return (digest.finish, stored)

/-- The sealing of `attach_version`: the record it declares, and what it has stored.  The
size is what the file system reports, and the file what is read afterwards. -/
def attachSegments (storeSegment : Nat → Bytes → Except AssetError Unit) (content : DocumentUuid)
    (key : Bytes32) (size : U64) (file : Bytes) : Except AssetError (AssetMeta × List Bytes) := do
  let segmentBytes := assetSegmentBytes
  let segments := AssetMeta.segmentsFor size segmentBytes
  let (contentHash, stored) ← writeSegments storeSegment content key size segments segmentBytes file
  return ({ size, segments, segmentBytes, contentHash }, stored)

/-- The segments of a version from one position on, opened and written out. -/
def exportSegmentsFrom (key : Bytes32) (content : DocumentUuid) (assetMeta : AssetMeta)
    (fetch : Nat → Option Bytes) :
    (left index : Nat) → ContentDigest → (out : Bytes) → Except AssetError (ContentDigest × Bytes)
  | 0, _, digest, out => .ok (digest, out)
  | left + 1, index, digest, out =>
      match fetch index with
      | none => .error (.missingSegment index)
      | some sealed => do
          let plaintext ← (openSegment key content index assetMeta.segments assetMeta.segmentBytes
            (assetMeta.payloadLen index) sealed).mapError fun _ => .corruptAsset
          exportSegmentsFrom key content assetMeta fetch left (index + 1) (digest.update plaintext)
            (out ++ plaintext)

/-- Write one version out, its content key and its record in hand; what the target holds
when the export succeeds. -/
def exportAssetVersion (key : Bytes32) (content : DocumentUuid) (assetMeta : AssetMeta)
    (fetch : Nat → Option Bytes) : Except AssetError Bytes := do
  let (digest, out) ← exportSegmentsFrom key content assetMeta fetch assetMeta.segments.val 0
    ContentDigest.new []
  if digest.finish = assetMeta.contentHash then return out else throw .corruptAsset

end Loops

/-! ## What a segment authenticates -/

section Segments

variable [SegmentCipher]

/-- The associated data of a segment names the number and the width of the segments. -/
theorem segmentAad_injective {uuid : DocumentUuid} {index index' : Nat} {segments segments' : U64}
    {segmentBytes segmentBytes' : U32}
    (h : segmentAad uuid index segments segmentBytes =
      segmentAad uuid index' segments' segmentBytes') :
    segments = segments' ∧ segmentBytes = segmentBytes' := by
  have hposition := (List.append_inj h rfl).2
  have hshape := (List.append_inj hposition (by simp only [beBytes_length])).2
  obtain ⟨hsegments, hbytes⟩ := List.append_inj hshape (by simp only [beBytes_length])
  have hsegments := beBytes_injective segments.isLt segments'.isLt hsegments
  have hbytes := beBytes_injective segmentBytes.isLt segmentBytes'.isLt hbytes
  exact ⟨Fin.ext hsegments, Fin.ext hbytes⟩

/-- Some bytes are the sealing of a whole segment at a position. -/
def SealedAt (key : Bytes32) (uuid : DocumentUuid) (index : Nat) (segments : U64)
    (segmentBytes : U32) (piece sealed : Bytes) : Prop :=
  ∃ body tag, encryptInPlaceDetached key (segmentNonce uuid index)
    (segmentAad uuid index segments segmentBytes) piece = some (body, tag) ∧ sealed = body ++ tag

theorem sealSegment_ok {key : Bytes32} {uuid : DocumentUuid} {index : Nat} {segments : U64}
    {segmentBytes : U32} {plaintext sealed : Bytes}
    (h : sealSegment key uuid index segments segmentBytes plaintext = .ok sealed) :
    SealedAt key uuid index segments segmentBytes (padTo 0 segmentBytes.val plaintext) sealed := by
  simp only [sealSegment] at h
  split at h
  · cases h
  · split at h
    · cases h
    · next body tag hsealed =>
        cases h
        exact ⟨body, tag, hsealed, rfl⟩

/-- Sealed bytes split into the body and the tag they were put together from. -/
theorem openSegment_append {key : Bytes32} {uuid : DocumentUuid} {index : Nat} {segments : U64}
    {segmentBytes : U32} {payload : Nat} {body tag : Bytes} (htag : tag.length = 16) :
    openSegment key uuid index segments segmentBytes payload (body ++ tag) =
      match decryptInPlaceDetached key (segmentNonce uuid index)
        (segmentAad uuid index segments segmentBytes) body tag with
      | none => .error .aead
      | some opened => .ok (opened.take payload) := by
  have hsplit : (body ++ tag).length - 16 = body.length := by
    rw [List.length_append, htag, Nat.add_sub_cancel]
  have hlong : ¬ (body ++ tag).length < 16 := by
    rw [List.length_append, htag]
    omega
  simp only [openSegment, if_neg hlong, hsplit, List.take_left, List.drop_left]

variable [LawfulSegmentCipher]

/-- A segment opened where it was sealed gives what it was sealed over, trimmed. -/
theorem openSegment_sealed {key : Bytes32} {uuid : DocumentUuid} {index : Nat} {segments : U64}
    {segmentBytes : U32} {piece sealed : Bytes}
    (h : SealedAt key uuid index segments segmentBytes piece sealed) (payload : Nat) :
    openSegment key uuid index segments segmentBytes payload sealed = .ok (piece.take payload) := by
  obtain ⟨body, tag, hsealed, rfl⟩ := h
  rw [openSegment_append (LawfulSegmentCipher.tag_length hsealed),
    LawfulSegmentCipher.decrypt_encrypt hsealed]

/-- A segment opens only as one of as many, and of the width, as it was sealed as. -/
theorem openSegment_authentic {key : Bytes32} {uuid : DocumentUuid} {index payload : Nat}
    {segments segments' : U64} {segmentBytes segmentBytes' : U32} {piece sealed plaintext : Bytes}
    {sealings : Set (Bytes × Bytes × Bytes)} (hsecret : Unforgeable key sealings)
    (hcall : (segmentNonce uuid index, segmentAad uuid index segments segmentBytes, piece) ∈ sealings)
    (hsealed : SealedAt key uuid index segments segmentBytes piece sealed)
    (h : openSegment key uuid index segments' segmentBytes' payload sealed = .ok plaintext) :
    segments' = segments ∧ segmentBytes' = segmentBytes := by
  obtain ⟨body, tag, hsealed, rfl⟩ := hsealed
  rw [openSegment_append (LawfulSegmentCipher.tag_length hsealed)] at h
  split at h
  · cases h
  · next opened hopened =>
      have haad := hsecret _ _ _ hcall body tag hsealed _ _ opened hopened
      exact segmentAad_injective haad.2

end Segments

/-! ## The shape of an asset -/

namespace AssetMeta

theorem segmentsFor_val {size : U64} {segmentBytes : U32} (hper : 0 < segmentBytes.val) :
    (segmentsFor size segmentBytes).val =
      if size.val % segmentBytes.val = 0 then max (size.val / segmentBytes.val) 1
      else size.val / segmentBytes.val + 1 := by
  have hsize := size.isLt
  have hfull : size.val / segmentBytes.val ≤ size.val := Nat.div_le_self ..
  simp only [segmentsFor, if_neg (Nat.pos_iff_ne_zero.mp hper)]
  split
  · exact Nat.mod_eq_of_lt (by omega)
  · next hpart =>
      -- A width of one byte divides every size, so a part of a segment makes the width two.
      have hwidth : segmentBytes.val ≠ 1 := fun h => hpart (by rw [h, Nat.mod_one])
      have hhalf : size.val / segmentBytes.val ≤ size.val / 2 :=
        Nat.div_le_div_left (by omega) (by omega)
      exact Nat.mod_eq_of_lt (by omega)

theorem segmentsFor_pos {size : U64} {segmentBytes : U32} (hper : 0 < segmentBytes.val) :
    0 < (segmentsFor size segmentBytes).val := by
  rw [segmentsFor_val hper]
  split
  · exact Nat.lt_of_lt_of_le Nat.one_pos (Nat.le_max_right ..)
  · exact Nat.succ_pos _

/-- The segments of an asset hold it. -/
theorem size_le_segmentsFor {size : U64} {segmentBytes : U32} (hper : 0 < segmentBytes.val) :
    size.val ≤ (segmentsFor size segmentBytes).val * segmentBytes.val := by
  have hdivision := Nat.div_add_mod size.val segmentBytes.val
  have hpart := Nat.mod_lt size.val hper
  rw [segmentsFor_val hper]
  split
  · next hwhole =>
      have hfull : size.val / segmentBytes.val * segmentBytes.val ≤
          max (size.val / segmentBytes.val) 1 * segmentBytes.val :=
        Nat.mul_le_mul_right _ (Nat.le_max_left ..)
      rw [Nat.mul_comm] at hdivision
      omega
  · rw [Nat.succ_mul, Nat.mul_comm]
    omega

/-- The saturation of the start of a segment is never seen: a size is below it. -/
theorem payloadLen_eq (assetMeta : AssetMeta) (index : Nat) :
    assetMeta.payloadLen index =
      min (assetMeta.size.val - index * assetMeta.segmentBytes.val) assetMeta.segmentBytes.val := by
  have hsize := assetMeta.size.isLt
  simp only [payloadLen]
  omega

end AssetMeta

/-! ## What is stored -/

section Loops

variable [SegmentCipher]

/-- The stored segments from one position on are the sealings of some pieces. -/
def StoredFrom (key : Bytes32) (uuid : DocumentUuid) (segments : U64) (segmentBytes : U32) :
    Nat → List Bytes → List Bytes → Prop
  | _, [], [] => True
  | index, piece :: pieces, sealed :: stored =>
      SealedAt key uuid index segments segmentBytes piece sealed ∧
        StoredFrom key uuid segments segmentBytes (index + 1) pieces stored
  | _, _, _ => False

theorem readExact_ok {want : Nat} {file buffer rest : Bytes}
    (h : readExact want file = .ok (buffer, rest)) :
    file = buffer ++ rest ∧ buffer.length = want := by
  simp only [readExact] at h
  split at h
  · next hlong =>
      cases h
      exact ⟨(List.take_append_drop want file).symm, by simpa using hlong⟩
  · cases h

/-- One segment is cut off: either it is a whole one, or nothing follows it. -/
theorem segmented_append {α : Type} {fill : α} {width n : Nat} {buffer rest : List α}
    (h : buffer.length = width ∨ (buffer.length ≤ width ∧ rest = [])) :
    segmented fill width (n + 1) (buffer ++ rest) =
      padTo fill width buffer :: segmented fill width n rest := by
  obtain rfl | ⟨hshort, rfl⟩ := h
  · rw [segmented, List.take_left, List.drop_left]
  · rw [segmented, List.append_nil, List.take_of_length_le hshort, List.drop_of_length_le hshort]

/-- What the loop that writes has done when it succeeds: it has read as much of the file as
its segments hold of what remains, absorbed that and stored its segments. -/
theorem writeSegmentsFrom_ok {storeSegment : Nat → Bytes → Except AssetError Unit}
    {uuid : DocumentUuid} {key : Bytes32} {segments : U64} {segmentBytes : U32} {left index
    remaining : Nat} {file : Bytes} {digest digest' : ContentDigest} {stored stored' : List Bytes}
    (h : writeSegmentsFrom storeSegment uuid key segments segmentBytes left index remaining file
      digest stored = .ok (digest', stored')) :
    ∃ plaintext rest added, file = plaintext ++ rest ∧
      plaintext.length = min remaining (left * segmentBytes.val) ∧
      digest' = digest.update plaintext ∧ stored' = stored ++ added ∧
      StoredFrom key uuid segments segmentBytes index
        (segmented 0 segmentBytes.val left plaintext) added := by
  induction left generalizing index remaining file digest stored with
  | zero =>
      cases h
      exact ⟨[], file, [], rfl, by simp, by simp [ContentDigest.update], by simp, trivial⟩
  | succ left ih =>
      rw [writeSegmentsFrom] at h
      obtain ⟨⟨buffer, file'⟩, hread, hseals⟩ := bind_eq_ok.mp h
      obtain ⟨sealed, hseal, hstores⟩ := bind_eq_ok.mp hseals
      obtain ⟨_, -, hloop⟩ := bind_eq_ok.mp hstores
      obtain ⟨hfile, hbuffer⟩ := readExact_ok hread
      have hsealed := sealSegment_ok (mapError_eq_ok.mp hseal)
      obtain ⟨plaintext, rest, added, rfl, hlength, rfl, rfl, hadded⟩ := ih hloop
      have hcut : buffer.length = segmentBytes.val ∨
          (buffer.length ≤ segmentBytes.val ∧ plaintext = []) := by
        obtain hfull | hlast := Nat.le_total segmentBytes.val remaining
        · exact Or.inl (by omega)
        · exact Or.inr ⟨by omega, List.length_eq_zero_iff.mp (by omega)⟩
      refine ⟨buffer ++ plaintext, rest, sealed :: added, by simpa using hfile, ?_, ?_, by simp, ?_⟩
      · rw [List.length_append, Nat.succ_mul]
        omega
      · simp [ContentDigest.update]
      · rw [segmented_append hcut]
        exact ⟨hsealed, hadded⟩

/-- What the loop that writes out gives when each stored segment is opened where it was
sealed: the pieces, each trimmed to its share of the recorded size. -/
theorem exportSegmentsFrom_stored [LawfulSegmentCipher] {key : Bytes32} {content : DocumentUuid}
    {assetMeta : AssetMeta} {fetch : Nat → Option Bytes} {index : Nat}
    {pieces stored : List Bytes} {digest : ContentDigest} {out : Bytes}
    (hstored : StoredFrom key content assetMeta.segments assetMeta.segmentBytes index pieces stored)
    (hfetch : ∀ i, fetch (index + i) = stored[i]?) :
    exportSegmentsFrom key content assetMeta fetch pieces.length index digest out =
      let bytes := (trimmed assetMeta.segmentBytes.val
        (assetMeta.size.val - index * assetMeta.segmentBytes.val) pieces).flatten
      .ok (digest.update bytes, out ++ bytes) := by
  induction pieces generalizing index stored digest out with
  | nil => simp [exportSegmentsFrom, trimmed, ContentDigest.update]
  | cons piece pieces ih =>
      cases stored with
      | nil => cases hstored
      | cons sealed stored =>
          obtain ⟨hsealed, hstored⟩ := hstored
          have hfetched : fetch index = some sealed := hfetch 0
          have hrest : ∀ i, fetch (index + 1 + i) = stored[i]? := by
            intro i
            rw [Nat.add_assoc, Nat.add_comm 1 i]
            exact hfetch (i + 1)
          have hshare : assetMeta.size.val - (index + 1) * assetMeta.segmentBytes.val =
              assetMeta.size.val - index * assetMeta.segmentBytes.val -
                assetMeta.segmentBytes.val := by
            rw [Nat.succ_mul, Nat.sub_sub]
          rw [List.length_cons, exportSegmentsFrom, hfetched]
          simp only [openSegment_sealed hsealed, Except.mapError, AssetMeta.payloadLen_eq]
          show exportSegmentsFrom _ _ _ _ _ _ _ _ = _
          rw [ih hstored hrest, hshare]
          simp [trimmed, ContentDigest.update]

/-- The loop that writes succeeds when the file is as long as its size says, the cipher
refuses nothing and the store takes everything. -/
theorem writeSegmentsFrom_succeeds {storeSegment : Nat → Bytes → Except AssetError Unit}
    {uuid : DocumentUuid} {key : Bytes32} {segments : U64} {segmentBytes : U32} {left index
    remaining : Nat} {file : Bytes} {digest : ContentDigest} {stored : List Bytes}
    (hstore : ∀ index sealed, storeSegment index sealed = .ok ())
    (hcipher : ∀ nonce aad buffer, (encryptInPlaceDetached key nonce aad buffer).isSome)
    (hfile : remaining ≤ file.length) :
    ∃ written, writeSegmentsFrom storeSegment uuid key segments segmentBytes left index remaining
      file digest stored = .ok written := by
  induction left generalizing index remaining file digest stored with
  | zero => exact ⟨_, rfl⟩
  | succ left ih =>
      have hread : readExact (min remaining segmentBytes.val) file =
          .ok (file.take (min remaining segmentBytes.val),
            file.drop (min remaining segmentBytes.val)) := if_pos (by omega)
      have hfits : ¬ segmentBytes.val < (file.take (min remaining segmentBytes.val)).length := by
        rw [List.length_take]
        omega
      obtain ⟨sealed, hseal⟩ : ∃ sealed, sealSegment key uuid index segments segmentBytes
          (file.take (min remaining segmentBytes.val)) = .ok sealed := by
        obtain ⟨⟨body, tag⟩, hsealed⟩ := Option.isSome_iff_exists.mp (hcipher (segmentNonce uuid index)
          (segmentAad uuid index segments segmentBytes)
          (padTo 0 segmentBytes.val (file.take (min remaining segmentBytes.val))))
        exact ⟨body ++ tag, by simp only [sealSegment, if_neg hfits, hsealed]⟩
      have hrest : remaining - min remaining segmentBytes.val ≤
          (file.drop (min remaining segmentBytes.val)).length := by
        rw [List.length_drop]
        omega
      obtain ⟨written, hwritten⟩ := ih hrest
      refine ⟨written, ?_⟩
      rw [writeSegmentsFrom, bind_eq_ok]
      refine ⟨_, hread, bind_eq_ok.mpr ⟨sealed, mapError_eq_ok.mpr hseal, ?_⟩⟩
      exact bind_eq_ok.mpr ⟨(), hstore index sealed, hwritten⟩

/-- What an attachment has sealed under its content key: each of its segments, once. -/
def sealingsOf (uuid : DocumentUuid) (assetMeta : AssetMeta) (plaintext : Bytes) :
    Set (Bytes × Bytes × Bytes) :=
  { call | ∃ index piece,
      (segmented 0 assetMeta.segmentBytes.val assetMeta.segments.val plaintext)[index]? =
        some piece ∧
      call = (segmentNonce uuid index,
        segmentAad uuid index assetMeta.segments assetMeta.segmentBytes, piece) }

/-- What an attachment that succeeds has done: the plaintext is what the file began with,
as long as its size says, the record describes it, and its segments are stored. -/
theorem attachSegments_ok {storeSegment : Nat → Bytes → Except AssetError Unit}
    {content : DocumentUuid} {key : Bytes32} {size : U64} {file : Bytes} {recorded : AssetMeta}
    {stored : List Bytes}
    (h : attachSegments storeSegment content key size file = .ok (recorded, stored)) :
    (file.take size.val).length = size.val ∧
      recorded = { size
                   segments := AssetMeta.segmentsFor size assetSegmentBytes
                   segmentBytes := assetSegmentBytes
                   contentHash := ContentDigest.newOver (file.take size.val) } ∧
      StoredFrom key content recorded.segments recorded.segmentBytes 0
        (segmented 0 recorded.segmentBytes.val recorded.segments.val (file.take size.val))
        stored := by
  obtain ⟨⟨contentHash, stored'⟩, hwrite, hrecord⟩ := bind_eq_ok.mp h
  obtain ⟨⟨digest, added⟩, hloop, hdigest⟩ := bind_eq_ok.mp hwrite
  cases hrecord
  cases hdigest
  obtain ⟨plaintext, rest, _, rfl, hlength, rfl, rfl, hstored⟩ := writeSegmentsFrom_ok hloop
  have hwidth : 0 < assetSegmentBytes.val := by unfold assetSegmentBytes; decide
  rw [Nat.min_eq_left (AssetMeta.size_le_segmentsFor hwidth)] at hlength
  have hplain : (plaintext ++ rest).take size.val = plaintext := by rw [← hlength, List.take_left]
  rw [hplain]
  exact ⟨hlength, rfl, hstored⟩

/-- An attachment succeeds under the same conditions. -/
theorem attachSegments_succeeds {storeSegment : Nat → Bytes → Except AssetError Unit}
    {content : DocumentUuid} {key : Bytes32} {size : U64} {file : Bytes}
    (hstore : ∀ index sealed, storeSegment index sealed = .ok ())
    (hcipher : ∀ nonce aad buffer, (encryptInPlaceDetached key nonce aad buffer).isSome)
    (hfile : size.val ≤ file.length) :
    ∃ recorded stored, attachSegments storeSegment content key size file = .ok (recorded, stored) := by
  obtain ⟨⟨digest, stored⟩, hloop⟩ := writeSegmentsFrom_succeeds hstore hcipher hfile
  exact ⟨_, stored, bind_eq_ok.mpr ⟨_, bind_eq_ok.mpr ⟨_, hloop, rfl⟩, rfl⟩⟩

/-! ## Records that are rewritten -/

/-- A record that an export follows although it is not the plaintext's: one of no segments
with the digest of nothing, or one that keeps the shape of the segments and gives, with
another size, the digest of what that size selects of the filled plaintext. -/
def Misleads (recorded : AssetMeta) (plaintext : Bytes) (assetMeta : AssetMeta) : Prop :=
  let held := recorded.segments.val * recorded.segmentBytes.val
  (assetMeta.segments = 0 ∧ plaintext ≠ [] ∧ assetMeta.contentHash = ContentDigest.newOver []) ∨
    (assetMeta.segments = recorded.segments ∧ assetMeta.segmentBytes = recorded.segmentBytes ∧
      min assetMeta.size.val held ≠ plaintext.length ∧
      assetMeta.contentHash =
        ContentDigest.newOver ((padTo 0 held plaintext).take assetMeta.size.val))

theorem exportAssetVersion_eq {key : Bytes32} {content : DocumentUuid} {assetMeta : AssetMeta}
    {fetch : Nat → Option Bytes} {bytes : Bytes}
    (h : exportSegmentsFrom key content assetMeta fetch assetMeta.segments.val 0
      ContentDigest.new [] = .ok (ContentDigest.new.update bytes, bytes)) :
    exportAssetVersion key content assetMeta fetch =
      if ContentDigest.newOver bytes = assetMeta.contentHash then .ok bytes
      else .error .corruptAsset := by
  rw [exportAssetVersion, h]
  rfl

/-- A record of no segments writes nothing, and checks the digest of nothing. -/
theorem exportAssetVersion_none {key : Bytes32} {content : DocumentUuid} {assetMeta : AssetMeta}
    {fetch : Nat → Option Bytes} (h : assetMeta.segments = 0) :
    exportAssetVersion key content assetMeta fetch =
      if ContentDigest.newOver [] = assetMeta.contentHash then .ok []
      else .error .corruptAsset :=
  exportAssetVersion_eq (by rw [h]; rfl)

/-- A record that keeps the shape of the segments writes what its size selects. -/
theorem exportAssetVersion_kept [LawfulSegmentCipher] {key : Bytes32} {content : DocumentUuid}
    {recorded assetMeta : AssetMeta} {plaintext : Bytes} {stored : List Bytes}
    (hheld : plaintext.length ≤ recorded.segments.val * recorded.segmentBytes.val)
    (hstored : StoredFrom key content recorded.segments recorded.segmentBytes 0
      (segmented 0 recorded.segmentBytes.val recorded.segments.val plaintext) stored)
    (hsegments : assetMeta.segments = recorded.segments)
    (hbytes : assetMeta.segmentBytes = recorded.segmentBytes) :
    let bytes := (padTo 0 (recorded.segments.val * recorded.segmentBytes.val) plaintext).take
      assetMeta.size.val
    exportAssetVersion key content assetMeta (stored[·]?) =
      if ContentDigest.newOver bytes = assetMeta.contentHash then .ok bytes
      else .error .corruptAsset := by
  refine exportAssetVersion_eq ?_
  rw [← hsegments, ← hbytes] at hheld hstored ⊢
  have hfetch : ∀ i, stored[0 + i]? = stored[i]? := fun i => by rw [Nat.zero_add]
  have hloop : exportSegmentsFrom key content assetMeta (stored[·]?) _ 0 ContentDigest.new [] = _ :=
    exportSegmentsFrom_stored hstored hfetch
  rw [segmented_length, Nat.zero_mul, Nat.sub_zero,
    flatten_trimmed _ fun _ => length_of_mem_segmented, flatten_segmented 0 hheld] at hloop
  exact hloop

/-- A record of segments, but of another number or another width than were sealed, fails at
the first segment. -/
theorem exportAssetVersion_reshaped [LawfulSegmentCipher] {key : Bytes32} {content : DocumentUuid}
    {recorded assetMeta : AssetMeta} {plaintext out : Bytes} {stored : List Bytes}
    (hsecret : Unforgeable key (sealingsOf content recorded plaintext))
    (hstored : StoredFrom key content recorded.segments recorded.segmentBytes 0
      (segmented 0 recorded.segmentBytes.val recorded.segments.val plaintext) stored)
    (hany : recorded.segments ≠ 0) (hsome : assetMeta.segments ≠ 0)
    (hshape : ¬ (assetMeta.segments = recorded.segments ∧
      assetMeta.segmentBytes = recorded.segmentBytes)) :
    exportAssetVersion key content assetMeta (stored[·]?) ≠ .ok out := by
  intro h
  obtain ⟨held, hheld⟩ : ∃ held, recorded.segments.val = held + 1 :=
    Nat.exists_eq_succ_of_ne_zero fun hzero => hany (Fin.ext hzero)
  obtain ⟨left, hleft⟩ : ∃ left, assetMeta.segments.val = left + 1 :=
    Nat.exists_eq_succ_of_ne_zero fun hzero => hsome (Fin.ext hzero)
  have hfirst : (_, _, padTo 0 recorded.segmentBytes.val
      (plaintext.take recorded.segmentBytes.val)) ∈ sealingsOf content recorded plaintext :=
    ⟨0, _, by rw [hheld]; rfl, rfl⟩
  rw [hheld, segmented] at hstored
  obtain ⟨_, hloop, -⟩ := bind_eq_ok.mp h
  rw [hleft] at hloop
  cases stored with
  | nil => cases hstored
  | cons sealed stored =>
      obtain ⟨_, hopen, -⟩ := bind_eq_ok.mp hloop
      exact hshape (openSegment_authentic hsecret hfirst hstored.1 (mapError_eq_ok.mp hopen))

/-- What a length selects of a filled plaintext is the plaintext when it selects as much. -/
theorem padTo_take_eq_iff {held n : Nat} {plaintext : Bytes} (h : plaintext.length ≤ held) :
    (padTo 0 held plaintext).take n = plaintext ↔ min n held = plaintext.length := by
  constructor
  · intro heq
    have hlength := congrArg List.length heq
    rwa [List.length_take, padTo_length h] at hlength
  · intro hlength
    have hleading : (padTo 0 held plaintext).take n =
        (padTo 0 held plaintext).take plaintext.length := by
      rw [List.take_eq_take_iff, padTo_length h]
      omega
    rw [hleading, padTo_take]

/-- An export of the segments an attachment has stored, under any record put in place of
the one it declared, writes the plaintext that was sealed or fails, exactly unless the
record is one of those that mislead. -/
theorem rewritten_record_exports_plaintext [LawfulSegmentCipher]
    {storeSegment : Nat → Bytes → Except AssetError Unit} {content : DocumentUuid} {key : Bytes32}
    {size : U64} {file : Bytes} {recorded : AssetMeta} {stored : List Bytes}
    (hattached : attachSegments storeSegment content key size file = .ok (recorded, stored))
    (hsecret : Unforgeable key (sealingsOf content recorded (file.take size.val)))
    (assetMeta : AssetMeta) :
    (∀ out, exportAssetVersion key content assetMeta (stored[·]?) = .ok out →
        out = file.take size.val) ↔
      ¬ Misleads recorded (file.take size.val) assetMeta := by
  obtain ⟨hlength, hrecorded, hstored⟩ := attachSegments_ok hattached
  have hwidth : 0 < assetSegmentBytes.val := by unfold assetSegmentBytes; decide
  have hsome : recorded.segments ≠ 0 := by
    rw [hrecorded]
    exact fun hzero => (AssetMeta.segmentsFor_pos hwidth).ne' (congrArg Fin.val hzero)
  have hheld : (file.take size.val).length ≤ recorded.segments.val * recorded.segmentBytes.val := by
    rw [hlength, hrecorded]
    exact AssetMeta.size_le_segmentsFor hwidth
  generalize file.take size.val = plaintext at *
  by_cases hnone : assetMeta.segments = 0
  · -- Nothing is opened.
    rw [exportAssetVersion_none hnone]
    simp only [Misleads, hnone, Ne.symm hsome, true_and, false_and, or_false]
    split
    · next hdigest => simp [hdigest, eq_comm]
    · next hdigest => simp [Ne.symm hdigest]
  · by_cases hshape : assetMeta.segments = recorded.segments ∧
        assetMeta.segmentBytes = recorded.segmentBytes
    · obtain ⟨hsegments, hbytes⟩ := hshape
      rw [exportAssetVersion_kept hheld hstored hsegments hbytes]
      simp only [Misleads, hsegments, hbytes, hsome, true_and, false_and, false_or]
      split
      · next hdigest => simp [hdigest, padTo_take_eq_iff hheld]
      · next hdigest => simp [Ne.symm hdigest]
    · refine iff_of_true
        (fun _ h => absurd h (exportAssetVersion_reshaped hsecret hstored hsome hnone hshape)) ?_
      rintro (⟨hzero, -⟩ | ⟨hsegments, hbytes, -⟩)
      · exact hnone hzero
      · exact hshape ⟨hsegments, hbytes⟩

end Loops

end IrohBeekem

namespace IrohBeekem

open Library

section Samples

/-- A hash that spells its material. -/
def spelledKey (material : Bytes) : Bytes32 := Fin.ofNat _ (ofLittleEndian (material ++ [1]))

/-- What the first segment of asset zero is sealed over, when the asset is a single byte. -/
def byteSealing : Bytes × Bytes × Bytes :=
  ((Bytes32.toBytes (spelledKey (Bytes16.toBytes 0 ++ beBytes 8 0))).take 24,
    segmentAad 0 0 1 assetSegmentBytes, padTo 0 assetSegmentBytes.val [7])

/-- The tag of that sealing, and of every other. -/
def byteTag (call : Bytes × Bytes × Bytes) : Bytes :=
  if call = byteSealing then List.replicate 16 0 else List.replicate 16 1

/-- A cipher that leaves its plaintext as it is, and tells one sealing from all others. -/
local instance byteCipher : SegmentCipher where
  encryptInPlaceDetached _ nonce aad buffer := some (buffer, byteTag (nonce, aad, buffer))
  decryptInPlaceDetached _ nonce aad body tag :=
    if tag = byteTag (nonce, aad, body) then some body else none
  deriveKey _ material := spelledKey material

local instance byteCipher_lawful : LawfulSegmentCipher where
  tag_length h := by
    cases h
    unfold byteTag
    split <;> rfl
  decrypt_encrypt h := by
    cases h
    exact if_pos rfl

/-- The record of a single byte. -/
def byteMeta : AssetMeta where
  size := 1
  segments := 1
  segmentBytes := assetSegmentBytes
  contentHash := ContentDigest.newOver [7]

theorem attachSegments_byte : ∃ stored,
    attachSegments (fun _ _ => .ok ()) 0 0 1 [7] = .ok (byteMeta, stored) := by
  have hone : AssetMeta.segmentsFor 1 assetSegmentBytes = 1 := by
    unfold assetSegmentBytes
    decide
  have hcipher : ∀ nonce aad buffer, (encryptInPlaceDetached 0 nonce aad buffer).isSome :=
    fun _ _ _ => rfl
  have hstore : ∀ (index : Nat) (sealed : Bytes),
      (fun _ _ => .ok () : Nat → Bytes → Except AssetError Unit) index sealed = .ok () :=
    fun _ _ => rfl
  have hfile : (1 : U64).val ≤ ([7] : Bytes).length := Nat.le.refl
  obtain ⟨recorded, stored, hattached⟩ := attachSegments_succeeds hstore hcipher hfile
  obtain ⟨-, hrecorded, -⟩ := attachSegments_ok hattached
  rw [hone] at hrecorded
  rw [hrecorded] at hattached
  exact ⟨stored, hattached⟩

theorem padTo_byte_take {held : Nat} (h : 2 ≤ held) :
    (padTo 0 held ([7] : Bytes)).take 2 = [7, 0] := by
  obtain ⟨rest, rfl⟩ := Nat.exists_eq_add_of_le h
  rw [padTo, show 2 + rest - ([7] : Bytes).length = rest + 1 by rw [List.length_singleton]; omega,
    List.replicate_succ]
  rfl

/-- The cipher opens the segment nowhere else. -/
theorem unforgeable_byte : Unforgeable 0 (sealingsOf 0 byteMeta [7]) := by
  rintro nonce aad buffer ⟨index, piece, hpiece, hcall⟩ body tag hsealed nonce' aad' opened hopened
  have hwhole : ([7] : Bytes).take assetSegmentBytes.val = [7] := by
    refine List.take_of_length_le ?_
    unfold assetSegmentBytes
    decide
  have hpieces : segmented 0 byteMeta.segmentBytes.val byteMeta.segments.val ([7] : Bytes) =
      [padTo 0 assetSegmentBytes.val [7]] := by
    show [padTo 0 assetSegmentBytes.val (List.take assetSegmentBytes.val [7])] = _
    rw [hwhole]
  rw [hpieces] at hpiece
  obtain ⟨hindex, rfl⟩ := List.getElem?_eq_some_iff.mp hpiece
  obtain rfl : index = 0 := Nat.lt_one_iff.mp hindex
  have hsealing : (nonce, aad, buffer) = byteSealing := hcall
  have htag : byteTag (nonce, aad, buffer) = List.replicate 16 0 := if_pos hsealing
  obtain ⟨rfl, rfl⟩ := Prod.mk.inj (Option.some.inj hsealed)
  have hsame : (nonce', aad', buffer) = byteSealing := by
    by_contra hother
    have hother : byteTag (nonce', aad', buffer) = List.replicate 16 1 := if_neg hother
    have hrefused : ¬ byteTag (nonce, aad, buffer) = byteTag (nonce', aad', buffer) := by
      rw [htag, hother]
      decide
    exact absurd hopened (by simp [decryptInPlaceDetached, hrefused])
  rw [← hsealing] at hsame
  exact ⟨congrArg (·.1) hsame, congrArg (·.2.1) hsame⟩

/-- The export of what an attachment has stored, under its own record, is the file. -/
theorem rewritten_record_exports_plaintext_own : ∃ stored : List Bytes,
    ∀ out, exportAssetVersion 0 0 byteMeta (stored[·]?) = .ok out → out = [7] := by
  obtain ⟨stored, hattached⟩ := attachSegments_byte
  refine ⟨stored, (rewritten_record_exports_plaintext hattached unforgeable_byte byteMeta).mpr ?_⟩
  rintro (⟨hzero, -⟩ | ⟨-, -, hsize, -⟩)
  · cases hzero
  · refine hsize ?_
    show min 1 (1 * assetSegmentBytes.val) = 1
    unfold assetSegmentBytes
    decide

/-- A record that claims a second byte, with the digest of the byte and a zero: the export
succeeds with two bytes. -/
theorem rewritten_size_extends : ∃ stored : List Bytes,
    attachSegments (fun _ _ => .ok ()) 0 0 1 [7] = .ok (byteMeta, stored) ∧
      Unforgeable 0 (sealingsOf 0 byteMeta [7]) ∧
      ContentDigest.newOver [7] ≠ ContentDigest.newOver [7, 0] ∧
      exportAssetVersion 0 0
        { byteMeta with size := 2, contentHash := ContentDigest.newOver [7, 0] } (stored[·]?) =
          .ok [7, 0] := by
  obtain ⟨stored, hattached⟩ := attachSegments_byte
  refine ⟨stored, hattached, unforgeable_byte, by decide +kernel, ?_⟩
  obtain ⟨-, -, hstored⟩ := attachSegments_ok hattached
  have hheld : ([7] : Bytes).length ≤ byteMeta.segments.val * byteMeta.segmentBytes.val := by
    show 1 ≤ 1 * assetSegmentBytes.val
    unfold assetSegmentBytes
    decide
  have htwo : 2 ≤ byteMeta.segments.val * byteMeta.segmentBytes.val := by
    show 2 ≤ 1 * assetSegmentBytes.val
    unfold assetSegmentBytes
    decide
  have hexport : exportAssetVersion 0 0
      { byteMeta with size := 2, contentHash := ContentDigest.newOver [7, 0] } (stored[·]?) = _ :=
    exportAssetVersion_kept hheld hstored rfl rfl
  have hselected : (padTo 0 (byteMeta.segments.val * byteMeta.segmentBytes.val) [7]).take
      (2 : U64).val = ([7, 0] : Bytes) := padTo_byte_take htwo
  rw [hselected] at hexport
  rw [hexport]
  exact if_pos rfl

end Samples

end IrohBeekem
