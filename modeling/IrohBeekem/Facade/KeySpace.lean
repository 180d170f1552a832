import IrohBeekem.Docs.Hex
import IrohBeekem.State.Attachments

/-!
# The key space of the index

Every key of the index is thirty-two bytes, and all of them are blinded: the key of the
manifest, of a document and of an asset's content key is a digest under the workspace's
secret, and the key of a segment is twenty-four bytes of a digest with the position of the
segment behind them.  Twenty-four bytes of a digest are taken to tell the inputs apart that
a workspace hashes (`Separates`).

Then keys of different things are different, the range of an asset covers its segments and
nothing else, and between two segments of an asset lie segments of that asset only
(`keySpace_layout`).
-/

set_option linter.unusedSectionVars false

namespace IrohBeekem

open Library

variable [Beekem]

/-! ## Slots -/

/-- What a digest blinds. -/
inductive Blinded where
  | manifest
  | document (doc : DocumentUuid)
  | assetKey (asset : DocumentUuid)
  | assetPart (asset : DocumentUuid)
  deriving DecidableEq

/-- What an entry of the index is for. -/
inductive Slot where
  | manifest
  | document (doc : DocumentUuid)
  | assetKey (asset : DocumentUuid)
  | assetPart (asset : DocumentUuid) (part : U64)
  deriving DecidableEq

/-- What is hashed. -/
def Blinded.input : Blinded → Bytes
  | .manifest => label "iroh-beekem/manifest/v1"
  | .document doc => label "iroh-beekem/storage-key/v1" ++ doc.toBytes
  | .assetKey asset => label "iroh-beekem/asset-key/v1" ++ asset.toBytes
  | .assetPart asset => label "iroh-beekem/asset-part/v1" ++ asset.toBytes

/-- The first twenty-four bytes of the digest. -/
def Blinded.stem (secret : Bytes32) (x : Blinded) : Nat :=
  (Beekem.keyedHash secret x.input).val / 2 ^ 64

namespace Slot

def blinded : Slot → Blinded
  | .manifest => .manifest
  | .document doc => .document doc
  | .assetKey asset => .assetKey asset
  | .assetPart asset _ => .assetPart asset

/-- The key of the entry. -/
def key (secret : Bytes32) : Slot → Bytes32
  | .manifest => WorkspaceSecret.manifestKey secret
  | .document doc => WorkspaceSecret.storageKey secret doc
  | .assetKey asset => WorkspaceSecret.assetKeyKey secret asset
  | .assetPart asset part => WorkspaceSecret.assetPartKey secret asset part

end Slot

/-- Twenty-four bytes of the digests tell the inputs apart. -/
def Separates (secret : Bytes32) : Prop :=
  ∀ x y : Blinded, x.stem secret = y.stem secret → x.input = y.input

/-! ## Inputs -/

theorem toBytes_injective {x y : DocumentUuid} (h : x.toBytes = y.toBytes) : x = y := by
  have hvalue : bytes16? x.toBytes = bytes16? y.toBytes := congrArg bytes16? h
  rw [bytes16?_toBytes, bytes16?_toBytes] at hvalue
  exact Option.some.inj hvalue

theorem length_keyBytes (key : Bytes32) : key.toBytes.length = 32 := beBytes_length 32 key.val

theorem length_toBytes (x : DocumentUuid) : x.toBytes.length = 16 := beBytes_length 16 x.val

/-- The inputs of the four kinds have different lengths. -/
theorem Blinded.length_input (x : Blinded) : x.input.length = match x with
    | .manifest => 23
    | .document _ => 42
    | .assetKey _ => 40
    | .assetPart _ => 41 := by
  have hmanifest : (label "iroh-beekem/manifest/v1").length = 23 := by decide +kernel
  have hstorage : (label "iroh-beekem/storage-key/v1").length = 26 := by decide +kernel
  have hkey : (label "iroh-beekem/asset-key/v1").length = 24 := by decide +kernel
  have hpart : (label "iroh-beekem/asset-part/v1").length = 25 := by decide +kernel
  cases x with
  | manifest => exact hmanifest
  | document doc =>
      show (label _ ++ _).length = 42
      rw [List.length_append, hstorage, length_toBytes]
  | assetKey asset =>
      show (label _ ++ _).length = 40
      rw [List.length_append, hkey, length_toBytes]
  | assetPart asset =>
      show (label _ ++ _).length = 41
      rw [List.length_append, hpart, length_toBytes]

theorem Blinded.input_injective {x y : Blinded} (h : x.input = y.input) : x = y := by
  have hlength := congrArg List.length h
  rw [length_input, length_input] at hlength
  cases x <;> cases y <;> simp only [Nat.reduceEqDiff] at hlength
  · rfl
  all_goals
    have huuid := List.append_cancel_left h
    rw [toBytes_injective huuid]

theorem Blinded.stem_lt (secret : Bytes32) (x : Blinded) : x.stem secret < 2 ^ 192 :=
  Nat.div_lt_of_lt_mul (by
    have hlt := (Beekem.keyedHash secret x.input).isLt
    rwa [← pow_add])

theorem Separates.eq {secret : Bytes32} (h : Separates secret) {x y : Blinded}
    (hstem : x.stem secret = y.stem secret) : x = y := Blinded.input_injective (h x y hstem)

/-! ## Keys and ranges -/

/-- The range of the index that an asset's segments take. -/
def rangeBytes (range : Bytes24) : Bytes := beBytes 24 range.val

variable [Keyhive] [Loro] [Postcard]

theorem assetPrefix_val (secret : Bytes32) (asset : DocumentUuid) :
    (WorkspaceSecret.assetPrefix secret asset).val = (Blinded.assetPart asset).stem secret :=
  Nat.mod_eq_of_lt (Blinded.stem_lt secret (.assetPart asset))

theorem assetPartKey_val (secret : Bytes32) (asset : DocumentUuid) (part : U64) :
    (WorkspaceSecret.assetPartKey secret asset part).val =
      (Blinded.assetPart asset).stem secret * 2 ^ 64 + part.val := by
  have hstem := Blinded.stem_lt secret (.assetPart asset)
  have hpart := part.isLt
  show ((WorkspaceSecret.assetPrefix secret asset).val * 2 ^ 64 + part.val) % 2 ^ 256 = _
  rw [assetPrefix_val]
  apply Nat.mod_eq_of_lt
  omega

/-- A key begins with the digest it was made from. -/
theorem Slot.key_div (secret : Bytes32) (slot : Slot) :
    (slot.key secret).val / 2 ^ 64 = slot.blinded.stem secret := by
  cases slot with
  | manifest => rfl
  | document doc => rfl
  | assetKey asset => rfl
  | assetPart asset part =>
      have hpart := part.isLt
      show (WorkspaceSecret.assetPartKey secret asset part).val / 2 ^ 64 = _
      rw [assetPartKey_val]
      show _ = (Blinded.assetPart asset).stem secret
      omega

/-- The leading bytes of a number are those of its leading part. -/
theorem beBytes_append (lead rest value : Nat) :
    beBytes (lead + rest) value = beBytes lead (value / 256 ^ rest) ++ beBytes rest value := by
  have hdigit : ∀ i, value / 256 ^ (rest + i) = value / 256 ^ rest / 256 ^ i := fun i => by
    rw [pow_add, Nat.div_div_eq_div_mul]
  unfold beBytes
  rw [Nat.add_comm lead rest, List.range_add, List.reverse_append, List.map_append,
    ← List.map_reverse, List.map_map]
  simp only [Function.comp_def, hdigit]

/-- A range covers the keys that begin with it. -/
theorem rangeBytes_prefix_iff (range : Bytes24) (key : Bytes32) :
    rangeBytes range <+: key.toBytes ↔ key.val / 2 ^ 64 = range.val := by
  have hsplit : key.toBytes = beBytes 24 (key.val / 256 ^ 8) ++ beBytes 8 key.val :=
    beBytes_append 24 8 key.val
  have hwidth : (256 : Nat) ^ 8 = 2 ^ 64 := by norm_num
  rw [hwidth] at hsplit
  have hlength : (rangeBytes range).length = (beBytes 24 (key.val / 2 ^ 64)).length := by
    rw [rangeBytes, beBytes_length, beBytes_length]
  rw [hsplit]
  constructor
  · rintro ⟨rest, hrest⟩
    have hsame := List.append_inj_left hrest hlength
    have hkey : key.val / 2 ^ 64 < 256 ^ 24 := by
      have hlt := key.isLt
      omega
    exact (beBytes_injective (range.isLt.trans_eq (by norm_num)) hkey hsame).symm
  · intro heq
    rw [rangeBytes, heq]
    exact List.prefix_append _ _

/-! ## The layout -/

/-- Different things have different keys; the range of an asset covers its segments and
nothing else that has a key; the segments of an asset stand one after another. -/
structure LaidOut (secret : Bytes32) : Prop where
  apart : Function.Injective (Slot.key secret)
  covered : ∀ (asset : DocumentUuid) (slot : Slot),
    rangeBytes (WorkspaceSecret.assetPrefix secret asset) <+: (slot.key secret).toBytes ↔
      ∃ part, slot = .assetPart asset part
  contiguous : ∀ (asset : DocumentUuid) (first last : U64) (key : Bytes32),
    (Slot.assetPart asset first).key secret ≤ key →
    key ≤ (Slot.assetPart asset last).key secret →
      ∃ part, first ≤ part ∧ part ≤ last ∧ key = (Slot.assetPart asset part).key secret

namespace Separates

variable {secret : Bytes32}

/-- The digest a key begins with says what it is for, but for the position of a segment. -/
theorem blinded_eq (h : Separates secret) {x y : Slot}
    (hkey : (x.key secret).val / 2 ^ 64 = (y.key secret).val / 2 ^ 64) : x.blinded = y.blinded := by
  rw [Slot.key_div, Slot.key_div] at hkey
  exact h.eq hkey

theorem key_injective (h : Separates secret) : Function.Injective (Slot.key secret) := by
  intro x y hkey
  have hblinded := h.blinded_eq (congrArg (fun key : Bytes32 => key.val / 2 ^ 64) hkey)
  cases x <;> cases y <;> simp only [Slot.blinded, reduceCtorEq] at hblinded
  case manifest.manifest => rfl
  case document.document => rw [Blinded.document.inj hblinded]
  case assetKey.assetKey => rw [Blinded.assetKey.inj hblinded]
  case assetPart.assetPart asset part asset' part' =>
    obtain rfl := Blinded.assetPart.inj hblinded
    have hval := congrArg Fin.val hkey
    change (WorkspaceSecret.assetPartKey secret asset part).val =
      (WorkspaceSecret.assetPartKey secret asset part').val at hval
    rw [assetPartKey_val, assetPartKey_val] at hval
    rw [Fin.ext (Nat.add_left_cancel hval)]

theorem covered_iff (h : Separates secret) (asset : DocumentUuid) (slot : Slot) :
    rangeBytes (WorkspaceSecret.assetPrefix secret asset) <+: (slot.key secret).toBytes ↔
      ∃ part, slot = .assetPart asset part := by
  rw [rangeBytes_prefix_iff, Slot.key_div, assetPrefix_val]
  constructor
  · intro hstem
    have hblinded := h.eq hstem
    cases slot with
    | manifest => exact absurd hblinded (by simp [Slot.blinded])
    | document doc => exact absurd hblinded (by simp [Slot.blinded])
    | assetKey other => exact absurd hblinded (by simp [Slot.blinded])
    | assetPart other part =>
        obtain rfl := Blinded.assetPart.inj hblinded
        exact ⟨part, rfl⟩
  · rintro ⟨part, rfl⟩
    rfl

theorem bytes_eq_iff (h : Separates secret) {x y : Slot} :
    (x.key secret).toBytes = (y.key secret).toBytes ↔ x = y := by
  constructor
  · intro hbytes
    exact h.key_injective
      (Fin.ext (beBytes_injective (x.key secret).isLt (y.key secret).isLt hbytes))
  · rintro rfl
    rfl

end Separates

/-- Between two segments of an asset lie segments of that asset only. -/
theorem assetPart_contiguous (secret : Bytes32) (asset : DocumentUuid) (first last : U64)
    (key : Bytes32) (hfirst : (Slot.assetPart asset first).key secret ≤ key)
    (hlast : key ≤ (Slot.assetPart asset last).key secret) :
    ∃ part, first ≤ part ∧ part ≤ last ∧ key = (Slot.assetPart asset part).key secret := by
  have hlow : (WorkspaceSecret.assetPartKey secret asset first).val ≤ key.val := hfirst
  have hhigh : key.val ≤ (WorkspaceSecret.assetPartKey secret asset last).val := hlast
  rw [assetPartKey_val] at hlow hhigh
  have hbound := last.isLt
  have hpart : key.val - (Blinded.assetPart asset).stem secret * 2 ^ 64 < 2 ^ 64 := by omega
  refine ⟨⟨_, hpart⟩, ?_, ?_, ?_⟩
  · show first.val ≤ key.val - (Blinded.assetPart asset).stem secret * 2 ^ 64
    omega
  · show key.val - (Blinded.assetPart asset).stem secret * 2 ^ 64 ≤ last.val
    omega
  · apply Fin.ext
    show key.val = (WorkspaceSecret.assetPartKey secret asset ⟨_, hpart⟩).val
    rw [assetPartKey_val]
    show key.val = _ + (key.val - _)
    omega

/-- How the index is laid out. -/
theorem keySpace_layout {secret : Bytes32} (h : Separates secret) : LaidOut secret where
  apart := h.key_injective
  covered := h.covered_iff
  contiguous := assetPart_contiguous secret

end IrohBeekem

namespace IrohBeekem

open Library

section Samples

/-- A hash that spells the length and the last sixteen bytes of what is hashed. -/
def spellingHash (bytes : Bytes) : Bytes32 :=
  Fin.ofNat _ ((bytes.length * 2 ^ 128 + ofBeBytes (bytes.drop (bytes.length - 16))) * 2 ^ 64)

@[reducible] def spellingBeekem : Beekem :=
  { listBeekem with keyedHash := fun _ bytes => spellingHash bytes }

local instance laidOutKeyhive : Keyhive := transparentKeyhive

local instance laidOutBeekem : Beekem := spellingBeekem

local instance laidOutLoro : Loro := listLoro

local instance laidOutPostcard : Postcard := blankPostcard

theorem ofBeBytes_lt (bytes : Bytes) : ofBeBytes bytes < 256 ^ bytes.length := by
  induction bytes using List.reverseRecOn with
  | nil => exact Nat.one_pos
  | append_singleton bytes b ih =>
      have hbyte := b.toNat_lt
      have hlast : ofBeBytes (bytes ++ [b]) = ofBeBytes bytes * 256 + b.toNat := by
        simp only [ofBeBytes, List.foldl_append, List.foldl_cons, List.foldl_nil]
      rw [hlast, List.length_append, List.length_singleton, pow_succ]
      omega

/-- The last sixteen bytes of what is hashed, as a number. -/
def Blinded.tail (x : Blinded) : Nat := ofBeBytes (x.input.drop (x.input.length - 16))

theorem Blinded.tail_lt (x : Blinded) : x.tail < 2 ^ 128 := by
  have hlt := ofBeBytes_lt (x.input.drop (x.input.length - 16))
  have hlength : (x.input.drop (x.input.length - 16)).length = 16 := by
    rw [List.length_drop, length_input]
    cases x <;> rfl
  rw [hlength] at hlt
  exact hlt.trans_eq (by norm_num)

theorem Blinded.stem_spelled (secret : Bytes32) (x : Blinded) :
    x.stem secret = x.input.length * 2 ^ 128 + x.tail := by
  have htail := x.tail_lt
  have hlength : x.input.length ≤ 42 := by
    rw [length_input]
    cases x <;> simp
  show (x.input.length * 2 ^ 128 + x.tail) * 2 ^ 64 % 2 ^ 256 / 2 ^ 64 = _
  rw [Nat.mod_eq_of_lt (by omega), Nat.mul_div_cancel _ (by norm_num)]

theorem separates_spelling (secret : Bytes32) : Separates secret := by
  have htail : ∀ (text : Bytes) (doc : DocumentUuid),
      ofBeBytes ((text ++ doc.toBytes).drop ((text ++ doc.toBytes).length - 16)) = doc.val := by
    intro text doc
    rw [List.length_append, length_toBytes, Nat.add_sub_cancel, List.drop_left]
    exact ofBeBytes_beBytes (doc.isLt.trans_eq (by norm_num))
  intro x y hstem
  have hx := x.tail_lt
  have hy := y.tail_lt
  rw [Blinded.stem_spelled, Blinded.stem_spelled] at hstem
  have hsame : x.tail = y.tail := by omega
  have hlength : x.input.length = y.input.length := by omega
  rw [Blinded.length_input, Blinded.length_input] at hlength
  cases x <;> cases y <;> simp only [Nat.reduceEqDiff] at hlength
  · rfl
  all_goals
    unfold Blinded.tail Blinded.input at hsame
    rw [htail, htail] at hsame
    rw [Fin.ext hsame]

theorem keySpace_layout_spelling : LaidOut (7 : Bytes32) := keySpace_layout (separates_spelling 7)

end Samples

end IrohBeekem
