import IrohBeekem.Facade.Assets

/-!
# The split of an asset, written and read

The loop that writes cuts a file by a running remainder; the record an export follows
cuts it by position, with a multiplication that saturates.  `rounds` lists what the first
computes in each round, and `writeSegmentsFrom_eq` says that the loop runs on nothing
else.  The two splits agree at every position (`rounds_getElem?`), so what was sealed is
opened at its own lengths: `segments_round_trip`.
-/

set_option linter.unusedSectionVars false

namespace IrohBeekem

open Library

/-! ## Two formulas for one split -/

/-- `remaining` and `want` in each round of the loop that writes. -/
def rounds (segmentBytes : U32) : (left remaining : Nat) → List (Nat × Nat)
  | 0, _ => []
  | left + 1, remaining =>
      (remaining, min remaining segmentBytes.val) ::
        rounds segmentBytes left (remaining - min remaining segmentBytes.val)

/-- The rounds compute by the running remainder what the record computes by position. -/
theorem rounds_getElem? {segmentBytes : U32} {left remaining i : Nat} (hi : i < left) :
    (rounds segmentBytes left remaining)[i]? =
      some (remaining - i * segmentBytes.val,
        min (remaining - i * segmentBytes.val) segmentBytes.val) := by
  induction left generalizing remaining i with
  | zero => exact absurd hi (Nat.not_lt_zero i)
  | succ left ih =>
      cases i with
      | zero => simp [rounds]
      | succ i =>
          have hrest : remaining - min remaining segmentBytes.val - i * segmentBytes.val =
              remaining - (i + 1) * segmentBytes.val := by
            rw [Nat.succ_mul]
            omega
          rw [rounds, List.getElem?_cons_succ, ih (Nat.lt_of_succ_lt_succ hi), hrest]

/-- Shares of one width sum to what they are shares of, as far as they reach. -/
theorem sum_shares (total width n : Nat) :
    ∑ i ∈ Finset.range n, min (total - i * width) width = min total (n * width) := by
  induction n with
  | zero => simp
  | succ n ih =>
      rw [Finset.sum_range_succ, ih, Nat.succ_mul]
      omega

namespace AssetMeta

theorem payloadLen_le (assetMeta : AssetMeta) (index : Nat) :
    assetMeta.payloadLen index ≤ assetMeta.segmentBytes.val := by
  rw [payloadLen_eq]
  exact Nat.min_le_right ..

/-- The payloads of as many segments as the size takes sum to the size. -/
theorem sum_payloadLen {assetMeta : AssetMeta} (hwidth : 0 < assetMeta.segmentBytes.val)
    (hsegments : assetMeta.segments = segmentsFor assetMeta.size assetMeta.segmentBytes) :
    ∑ i ∈ Finset.range assetMeta.segments.val, assetMeta.payloadLen i = assetMeta.size.val := by
  have hreach : assetMeta.size.val ≤ (segmentsFor assetMeta.size assetMeta.segmentBytes).val *
      assetMeta.segmentBytes.val := size_le_segmentsFor hwidth
  rw [← hsegments] at hreach
  calc ∑ i ∈ Finset.range assetMeta.segments.val, assetMeta.payloadLen i
      = ∑ i ∈ Finset.range assetMeta.segments.val,
          min (assetMeta.size.val - i * assetMeta.segmentBytes.val) assetMeta.segmentBytes.val :=
        Finset.sum_congr rfl fun i _ => payloadLen_eq assetMeta i
    _ = min assetMeta.size.val (assetMeta.segments.val * assetMeta.segmentBytes.val) :=
        sum_shares ..
    _ = assetMeta.size.val := Nat.min_eq_left hreach

end AssetMeta

section Loops

variable [SegmentCipher]

/-- One round of the loop that writes, given its `want`. -/
def writeRound (storeSegment : Nat → Bytes → Except AssetError Unit) (uuid : DocumentUuid)
    (key : Bytes32) (segments : U64) (segmentBytes : U32) (index want : Nat)
    (file : Bytes) (digest : ContentDigest) (stored : List Bytes) :
    Except AssetError (Bytes × ContentDigest × List Bytes) := do
  let (buffer, file) ← readExact want file
  let sealed ← (sealSegment key uuid index segments segmentBytes buffer).mapError .core
  storeSegment index sealed
  return (file, digest.update buffer, stored ++ [sealed])

/-- The loop runs on the `want`s of its rounds. -/
def writeRounds (storeSegment : Nat → Bytes → Except AssetError Unit) (uuid : DocumentUuid)
    (key : Bytes32) (segments : U64) (segmentBytes : U32) :
    (rounds : List (Nat × Nat)) → (index : Nat) → (file : Bytes) → ContentDigest → List Bytes →
      Except AssetError (ContentDigest × List Bytes)
  | [], _, _, digest, stored => .ok (digest, stored)
  | (_, want) :: rest, index, file, digest, stored => do
      let (file, digest, stored) ←
        writeRound storeSegment uuid key segments segmentBytes index want file digest stored
      writeRounds storeSegment uuid key segments segmentBytes rest (index + 1) file digest stored

theorem writeSegmentsFrom_eq (storeSegment : Nat → Bytes → Except AssetError Unit)
    (uuid : DocumentUuid) (key : Bytes32) (segments : U64) (segmentBytes : U32)
    (left index remaining : Nat) (file : Bytes) (digest : ContentDigest) (stored : List Bytes) :
    writeSegmentsFrom storeSegment uuid key segments segmentBytes left index remaining file digest
        stored =
      writeRounds storeSegment uuid key segments segmentBytes (rounds segmentBytes left remaining)
        index file digest stored := by
  induction left generalizing index remaining file digest stored with
  | zero => rfl
  | succ left ih =>
      rw [writeSegmentsFrom, rounds, writeRounds, writeRound]
      simp only [bind_assoc, pure_bind, ih]

/-- A cipher which encrypts in place, so that the ciphertext is as long as the buffer. -/
class InPlaceCipher : Prop extends LawfulSegmentCipher where
  body_length : ∀ {key nonce aad buffer body tag},
    encryptInPlaceDetached key nonce aad buffer = some (body, tag) → body.length = buffer.length

variable [InPlaceCipher]

/-- What is stored is as long as what it seals, and a tag. -/
theorem StoredFrom.length_of_mem {key : Bytes32} {uuid : DocumentUuid} {segments : U64}
    {segmentBytes : U32} {index width : Nat} {pieces stored : List Bytes}
    (h : StoredFrom key uuid segments segmentBytes index pieces stored)
    (hpieces : ∀ piece ∈ pieces, piece.length = width) :
    stored.length = pieces.length ∧ ∀ sealed ∈ stored, sealed.length = width + 16 := by
  induction pieces generalizing index stored with
  | nil =>
      cases stored with
      | nil => exact ⟨rfl, fun sealed hsealed => absurd hsealed List.not_mem_nil⟩
      | cons sealed stored => cases h
  | cons piece pieces ih =>
      cases stored with
      | nil => cases h
      | cons sealed stored =>
          obtain ⟨⟨body, tag, hsealed, hbytes⟩, hrest⟩ := h
          obtain ⟨hcount, hlengths⟩ := ih hrest fun p hp => hpieces p (List.mem_cons_of_mem _ hp)
          refine ⟨by rw [List.length_cons, List.length_cons, hcount], fun s hs => ?_⟩
          rcases List.mem_cons.mp hs with rfl | hs
          · rw [hbytes, List.length_append, InPlaceCipher.body_length hsealed,
              LawfulSegmentCipher.tag_length hsealed, hpieces piece List.mem_cons_self]
          · exact hlengths s hs

/-- What writing the segments of a whole file leaves behind, when it succeeds. -/
theorem writeSegments_ok {storeSegment : Nat → Bytes → Except AssetError Unit}
    {content : DocumentUuid} {key : Bytes32} {size : U64} {segmentBytes : U32} {file : Bytes}
    {contentHash : Bytes32} {stored : List Bytes} (hwidth : 0 < segmentBytes.val)
    (hfile : file.length = size.val)
    (h : writeSegments storeSegment content key size (AssetMeta.segmentsFor size segmentBytes)
      segmentBytes file = .ok (contentHash, stored)) :
    contentHash = ContentDigest.newOver file ∧
      StoredFrom key content (AssetMeta.segmentsFor size segmentBytes) segmentBytes 0
        (segmented 0 segmentBytes.val (AssetMeta.segmentsFor size segmentBytes).val file)
        stored := by
  obtain ⟨⟨digest, added⟩, hloop, hdigest⟩ := bind_eq_ok.mp h
  cases hdigest
  obtain ⟨plaintext, rest, _, rfl, hlength, rfl, rfl, hstored⟩ := writeSegmentsFrom_ok hloop
  rw [Nat.min_eq_left (AssetMeta.size_le_segmentsFor hwidth), ← hfile, List.length_append] at hlength
  have hrest : rest = [] := List.length_eq_zero_iff.mp (by omega)
  rw [hrest, List.append_nil]
  exact ⟨rfl, hstored⟩

/-- Segmentation loses nothing.  There is a segment at least; the payloads of the segments
sum to the size, none above the width; the loop that writes wants at each position the
payload the record gives, never more than remains; and whenever it succeeds, every sealed
segment has one length, and the export of them under the record is the file.  It succeeds
unless the cipher refuses a segment or the store does. -/
theorem segments_round_trip (content : DocumentUuid) (key : Bytes32) (size : U64)
    (segmentBytes : U32) (hwidth : 0 < segmentBytes.val) (file : Bytes)
    (hfile : file.length = size.val) :
    let segments := AssetMeta.segmentsFor size segmentBytes
    let recorded : AssetMeta :=
      { size, segments, segmentBytes, contentHash := ContentDigest.newOver file }
    0 < segments.val ∧
    ∑ i ∈ Finset.range segments.val, recorded.payloadLen i = size.val ∧
    (∀ i < segments.val, recorded.payloadLen i ≤ segmentBytes.val ∧
      ∃ remaining, (rounds segmentBytes segments.val size.val)[i]? =
        some (remaining, recorded.payloadLen i) ∧ recorded.payloadLen i ≤ remaining) ∧
    (∀ storeSegment contentHash stored,
      writeSegments storeSegment content key size segments segmentBytes file =
        .ok (contentHash, stored) →
      contentHash = recorded.contentHash ∧ stored.length = segments.val ∧
        (∀ sealed ∈ stored, sealed.length = segmentBytes.val + 16) ∧
        exportAssetVersion key content recorded (stored[·]?) = .ok file) ∧
    ((∀ nonce aad buffer, (encryptInPlaceDetached key nonce aad buffer).isSome) →
      ∀ storeSegment, (∀ index sealed, storeSegment index sealed = .ok ()) →
        ∃ written, writeSegments storeSegment content key size segments segmentBytes file =
          .ok written) := by
  intro segments recorded
  have hheld : file.length ≤ segments.val * segmentBytes.val :=
    hfile ▸ AssetMeta.size_le_segmentsFor hwidth
  refine ⟨AssetMeta.segmentsFor_pos hwidth, AssetMeta.sum_payloadLen hwidth rfl, ?_, ?_, ?_⟩
  · intro i hi
    refine ⟨recorded.payloadLen_le i, size.val - i * segmentBytes.val, ?_, ?_⟩
    · rw [rounds_getElem? hi, AssetMeta.payloadLen_eq]
    · rw [AssetMeta.payloadLen_eq]
      exact Nat.min_le_left ..
  · intro storeSegment contentHash stored hwritten
    obtain ⟨hhash, hstored⟩ := writeSegments_ok hwidth hfile hwritten
    obtain ⟨hcount, hlengths⟩ := hstored.length_of_mem fun _ => length_of_mem_segmented
    refine ⟨hhash, by rw [hcount, segmented_length], hlengths, ?_⟩
    have hsealed : StoredFrom key content recorded.segments recorded.segmentBytes 0
        (segmented 0 recorded.segmentBytes.val recorded.segments.val file) stored := hstored
    have hexport : exportAssetVersion key content recorded (stored[·]?) = _ :=
      exportAssetVersion_kept hheld hsealed rfl rfl
    rw [hexport]
    show (if ContentDigest.newOver ((padTo 0 _ file).take size.val) = ContentDigest.newOver file
      then _ else _) = _
    rw [← hfile, padTo_take, if_pos rfl]
  · intro hcipher storeSegment hstore
    have hruns : ∃ written, writeSegmentsFrom storeSegment content key segments segmentBytes
        segments.val 0 size.val file ContentDigest.new [] = .ok written :=
      writeSegmentsFrom_succeeds hstore hcipher hfile.ge
    obtain ⟨⟨digest, stored⟩, hloop⟩ := hruns
    exact ⟨_, bind_eq_ok.mpr ⟨_, hloop, rfl⟩⟩

end Loops

section Samples

/-- A cipher that leaves its plaintext as it is under a blank tag. -/
local instance blankCipher : SegmentCipher where
  encryptInPlaceDetached _ _ _ buffer := some (buffer, List.replicate 16 0)
  decryptInPlaceDetached _ _ _ body _ := some body
  deriveKey _ material := Fin.ofNat _ (ofLittleEndian (material ++ [1]))

local instance blankCipher_inPlace : InPlaceCipher where
  tag_length h := by cases h; rfl
  decrypt_encrypt h := by cases h; rfl
  body_length h := by cases h; rfl

/-- Three bytes in segments of two. -/
theorem segments_round_trip_three :
    (AssetMeta.segmentsFor 3 2).val = 2 ∧ ∃ written,
      writeSegments (fun _ _ => .ok ()) 0 0 3 (AssetMeta.segmentsFor 3 2) 2 [7, 8, 9] =
        .ok written := by
  obtain ⟨-, -, -, -, hsucceeds⟩ := segments_round_trip 0 0 3 2 (by decide) [7, 8, 9] rfl
  exact ⟨by decide, hsucceeds (fun _ _ _ => rfl) _ fun _ _ => rfl⟩

end Samples

end IrohBeekem
