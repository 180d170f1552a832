import Mathlib

/-!
# Self-delimiting encodings

A codec writes a value as bytes and reads it back from the front of any byte string
that begins with them, leaving the rest.  Reading back from the front is what composes:
the encodings of a record's fields, written one after another, are a codec of the record.
`Codec.cancel` is what the readers of signatures need of it: two encodings with something
behind them agree only if the values and what is behind them do.
-/

namespace IrohBeekem.Library

/-! ## Digits -/

/-- The `w` low digits of `n` to the base 256, the least significant first. -/
def littleEndian : Nat → Nat → List UInt8
  | 0, _ => []
  | w + 1, n => UInt8.ofNat n :: littleEndian w (n / 256)

/-- The number digits spell, the least significant first. -/
def ofLittleEndian : List UInt8 → Nat
  | [] => 0
  | b :: bs => b.toNat + 256 * ofLittleEndian bs

@[simp]
theorem littleEndian_length (w n : Nat) : (littleEndian w n).length = w := by
  induction w generalizing n with
  | zero => rfl
  | succ w ih => simp [littleEndian, ih]

/-- The digit at a place. -/
theorem littleEndian_getElem? {w i : Nat} (n : Nat) (hi : i < w) :
    (littleEndian w n)[i]? = some (UInt8.ofNat (n / 256 ^ i)) := by
  induction w generalizing n i with
  | zero => exact absurd hi (Nat.not_lt_zero i)
  | succ w ih =>
      cases i with
      | zero => simp [littleEndian]
      | succ i =>
          have hplace := ih (n / 256) (Nat.lt_of_succ_lt_succ hi)
          rw [Nat.div_div_eq_div_mul, ← pow_succ'] at hplace
          simpa [littleEndian] using hplace

theorem ofLittleEndian_littleEndian (w n : Nat) (hn : n < 256 ^ w) :
    ofLittleEndian (littleEndian w n) = n := by
  induction w generalizing n with
  | zero =>
      have hzero : n = 0 := by simpa using hn
      simp [littleEndian, ofLittleEndian, hzero]
  | succ w ih =>
      have hquotient : n / 256 < 256 ^ w := by
        rw [Nat.div_lt_iff_lt_mul (by omega)]
        rwa [← pow_succ]
      have hdigit : (UInt8.ofNat n).toNat = n % 256 := by simp
      simp only [littleEndian, ofLittleEndian, ih _ hquotient, hdigit]
      omega

/-! ## Codecs -/

/-- An encoding that is read back from the front of what follows it. -/
structure Codec (α : Type*) where
  encode : α → List UInt8
  decode : List UInt8 → Option (α × List UInt8)
  decode_encode : ∀ a rest, decode (encode a ++ rest) = some (a, rest)

namespace Codec

variable {α β ι : Type*}

/-- Encodings with something behind them agree only where both do. -/
theorem cancel (c : Codec α) {a b : α} {rest rest' : List UInt8}
    (h : c.encode a ++ rest = c.encode b ++ rest') : a = b ∧ rest = rest' := by
  have hread := c.decode_encode a rest
  rw [h, c.decode_encode] at hread
  simpa [eq_comm] using hread

theorem injective (c : Codec α) : Function.Injective c.encode := by
  intro a b h
  exact (c.cancel (congrArg (· ++ []) h)).1

/-- The `w` bytes of a number below `n`, the least significant first. -/
def word (w n : Nat) (hfits : n ≤ 256 ^ w) : Codec (Fin n) where
  encode a := littleEndian w a.val
  decode bytes :=
    if h : ofLittleEndian (bytes.take w) < n then
      some (⟨ofLittleEndian (bytes.take w), h⟩, bytes.drop w)
    else none
  decode_encode a rest := by
    have htake : (littleEndian w a.val ++ rest).take w = littleEndian w a.val :=
      List.take_left' (littleEndian_length w a.val)
    have hdrop : (littleEndian w a.val ++ rest).drop w = rest :=
      List.drop_left' (littleEndian_length w a.val)
    have hvalue := ofLittleEndian_littleEndian w a.val (a.isLt.trans_le hfits)
    simp [htake, hdrop, hvalue]

/-- The `w` bytes of an array, which spells a number below `n` from its most significant
digit on. -/
def array (w n : Nat) (hfits : n ≤ 256 ^ w) : Codec (Fin n) where
  encode a := (littleEndian w a.val).reverse
  decode bytes :=
    if h : ofLittleEndian (bytes.take w).reverse < n then
      some (⟨ofLittleEndian (bytes.take w).reverse, h⟩, bytes.drop w)
    else none
  decode_encode a rest := by
    have hlength : (littleEndian w a.val).reverse.length = w := by simp
    have htake : ((littleEndian w a.val).reverse ++ rest).take w = (littleEndian w a.val).reverse :=
      List.take_left' hlength
    have hdrop : ((littleEndian w a.val).reverse ++ rest).drop w = rest := List.drop_left' hlength
    have hvalue := ofLittleEndian_littleEndian w a.val (a.isLt.trans_le hfits)
    simp [htake, hdrop, hvalue]

@[simp]
theorem word_length (w n : Nat) (hfits : n ≤ 256 ^ w) (a : Fin n) :
    ((word w n hfits).encode a).length = w := littleEndian_length w a.val

@[simp]
theorem array_length (w n : Nat) (hfits : n ≤ 256 ^ w) (a : Fin n) :
    ((array w n hfits).encode a).length = w := by simp [array]

/-- Nothing at all, for a value with no fields. -/
def unit : Codec Unit where
  encode _ := []
  decode bytes := some ((), bytes)
  decode_encode _ _ := rfl

/-- One field after another. -/
def pair (c : Codec α) (d : Codec β) : Codec (α × β) where
  encode p := c.encode p.1 ++ d.encode p.2
  decode bytes := (c.decode bytes).bind fun (a, rest) =>
    (d.decode rest).map fun (b, rest) => ((a, b), rest)
  decode_encode p rest := by
    simp [List.append_assoc, c.decode_encode, d.decode_encode]

/-- A tag, and then the fields of the variant it names. -/
def tagged {fields : ι → Type*} (tag : Codec ι) (body : (i : ι) → Codec (fields i)) :
    Codec ((i : ι) × fields i) where
  encode v := tag.encode v.1 ++ (body v.1).encode v.2
  decode bytes := (tag.decode bytes).bind fun (i, rest) =>
    ((body i).decode rest).map fun (v, rest) => (⟨i, v⟩, rest)
  decode_encode v rest := by
    simp [List.append_assoc, tag.decode_encode, (body v.1).decode_encode]

/-- A codec of a type whose values are told apart by what `view` shows of them. -/
def through (c : Codec α) (view : β → α) (build : α → Option β)
    (hbuild : ∀ b, build (view b) = some b) : Codec β where
  encode b := c.encode (view b)
  decode bytes := (c.decode bytes).bind fun (a, rest) => (build a).map fun b => (b, rest)
  decode_encode b rest := by simp [c.decode_encode, hbuild]

/-- A byte that says whether a value follows, and the value. -/
def option (c : Codec α) : Codec (Option α) where
  encode
    | none => [0]
    | some a => 1 :: c.encode a
  decode
    | [] => none
    | flag :: bytes =>
      if flag = 0 then some (none, bytes)
      else if flag = 1 then (c.decode bytes).map fun (a, rest) => (some a, rest)
      else none
  decode_encode a rest := by
    cases a with
    | none => rfl
    | some a => simp [c.decode_encode]

/-- A number as that many ones and a zero. -/
def unary : Codec Nat where
  encode n := List.replicate n 1 ++ [0]
  decode bytes :=
    match bytes.dropWhile (· = 1) with
    | [] => none
    | _ :: rest => some ((bytes.takeWhile (· = 1)).length, rest)
  decode_encode n rest := by
    have hones : ∀ b ∈ List.replicate n (1 : UInt8), decide (b = 1) = true :=
      fun b hb => decide_eq_true (List.eq_of_mem_replicate hb)
    rw [List.append_assoc, List.dropWhile_append_of_pos hones,
      List.takeWhile_append_of_pos hones]
    simp

/-- Any type whose values have numbers has a codec, if not a short one. -/
def ofEncodable [Encodable α] : Codec α :=
  unary.through Encodable.encode Encodable.decode Encodable.encodek

/-! ## Sequences -/

/-- The values of a list one after another, without their number. -/
def sequence (c : Codec α) (l : List α) : List UInt8 := l.flatMap c.encode

/-- Read that many values. -/
def decodeAll (c : Codec α) : Nat → List UInt8 → Option (List α × List UInt8)
  | 0, bytes => some ([], bytes)
  | n + 1, bytes => (c.decode bytes).bind fun (a, bytes) =>
    (decodeAll c n bytes).map fun (l, rest) => (a :: l, rest)

theorem decodeAll_sequence (c : Codec α) (l : List α) (rest : List UInt8) :
    c.decodeAll l.length (c.sequence l ++ rest) = some (l, rest) := by
  induction l with
  | nil => rfl
  | cons a l ih =>
      unfold sequence at ih ⊢
      simp [decodeAll, List.append_assoc, c.decode_encode, ih]

/-- Lists of one length are told apart by what they are written as. -/
theorem sequence_cancel (c : Codec α) {l l' : List α} {rest rest' : List UInt8}
    (hlength : l.length = l'.length)
    (h : c.sequence l ++ rest = c.sequence l' ++ rest') : l = l' ∧ rest = rest' := by
  have hread := c.decodeAll_sequence l rest
  rw [h, hlength, c.decodeAll_sequence] at hread
  simpa [eq_comm] using hread

/-- A list, behind the number of its elements. -/
def list (c : Codec α) : Codec (List α) where
  encode l := unary.encode l.length ++ c.sequence l
  decode bytes := (unary.decode bytes).bind fun (n, bytes) => c.decodeAll n bytes
  decode_encode l rest := by
    rw [List.append_assoc, unary.decode_encode]
    exact c.decodeAll_sequence l rest

/-! ## Text -/

/-- Four, eight, sixteen and thirty-two bytes hold what is as many bits wide. -/
theorem fits_32 : 2 ^ 32 ≤ 256 ^ 4 := by norm_num

theorem fits_64 : 2 ^ 64 ≤ 256 ^ 8 := by norm_num

theorem fits_128 : 2 ^ 128 ≤ 256 ^ 16 := by norm_num

theorem fits_256 : 2 ^ 256 ≤ 256 ^ 32 := by norm_num

local instance wordNonzero : NeZero (2 ^ 32) := ⟨by norm_num⟩

/-- A character, as the four bytes of its code point. -/
def char : Codec Char :=
  (word 4 (2 ^ 32) fits_32).through (fun c => Fin.ofNat _ c.toNat)
    (fun n => some (Char.ofNat n.val)) fun c => by
      have hvalue : (Fin.ofNat (2 ^ 32) c.toNat).val = c.toNat := Nat.mod_eq_of_lt c.val.toNat_lt
      rw [hvalue, Char.ofNat_toNat]

def string : Codec String :=
  (list char).through String.toList (fun l => some (String.ofList l)) fun _ => by simp

end Codec

end IrohBeekem.Library
