import Mathlib
import IrohBeekem.Docs.Loro
import IrohBeekem.Library.Codec

/-!
# Bytes read back

The keys and the records of the manifest are written as big-endian bytes and as
hexadecimal text.  Both read back: a number from as many bytes as it needs, and bytes from
their text.
-/

namespace IrohBeekem

open Library

/-! ## Big-endian bytes -/

theorem beBytes_eq_reverse (width value : Nat) :
    beBytes width value = (littleEndian width value).reverse := by
  have hdigits : (List.range width).map (fun i => UInt8.ofNat (value / 256 ^ i)) =
      littleEndian width value := by
    refine List.ext_getElem? fun i => ?_
    by_cases hi : i < width
    · rw [littleEndian_getElem? value hi, List.getElem?_map, List.getElem?_range hi]
      rfl
    · have hi : width ≤ i := Nat.le_of_not_lt hi
      rw [List.getElem?_eq_none (by simpa using hi),
        List.getElem?_eq_none (by simpa using hi)]
  rw [beBytes, List.map_reverse, hdigits]

theorem beBytes_length (width value : Nat) : (beBytes width value).length = width := by
  simp [beBytes]

theorem ofBeBytes_reverse (bytes : Bytes) : ofBeBytes bytes.reverse = ofLittleEndian bytes := by
  rw [ofBeBytes, List.foldl_reverse]
  induction bytes with
  | nil => rfl
  | cons b bytes ih =>
      rw [List.foldr_cons, ih, ofLittleEndian]
      omega

theorem ofBeBytes_beBytes {width value : Nat} (h : value < 256 ^ width) :
    ofBeBytes (beBytes width value) = value := by
  rw [beBytes_eq_reverse, ofBeBytes_reverse, ofLittleEndian_littleEndian width value h]

theorem beBytes_injective {width a b : Nat} (ha : a < 256 ^ width) (hb : b < 256 ^ width)
    (h : beBytes width a = beBytes width b) : a = b := by
  rw [← ofBeBytes_beBytes ha, h, ofBeBytes_beBytes hb]

theorem bytes16?_toBytes (x : Bytes16) : bytes16? x.toBytes = some x := by
  have hvalue : ofBeBytes x.toBytes = x.val := ofBeBytes_beBytes x.isLt
  have hlength : x.toBytes.length = 16 := beBytes_length 16 x.val
  rw [bytes16?, if_pos hlength, hvalue]
  exact congrArg some (Fin.ofNat_val_eq_self x)

/-! ## Hexadecimal text -/

/-- The text of a list of characters is their encodings, one after another. -/
theorem toUTF8_ofList (chars : List Char) :
    (String.ofList chars).toUTF8.data.toList = chars.flatMap String.utf8EncodeChar := by
  show (List.utf8Encode chars).data.toList = _
  simp [List.utf8Encode]

/-- The code of a hexadecimal digit. -/
def hexCode (n : Nat) : UInt8 := UInt8.ofNat (if n < 10 then 48 + n else 87 + n)

theorem utf8EncodeChar_hexDigit {n : Nat} (h : n < 16) :
    String.utf8EncodeChar (hexDigit n) = [hexCode n] := by
  revert n
  decide

theorem unhexDigit_hexCode {n : Nat} (h : n < 16) :
    hexCode n ≠ 43 ∧ unhexDigit (hexCode n) = some n := by
  revert n
  decide

/-- The two digits of a byte read back. -/
theorem fromStrRadix_hexCode (b : UInt8) :
    fromStrRadix (hexCode (b.toNat / 16)) (hexCode (b.toNat % 16)) = some b := by
  have hbyte := b.toNat_lt
  obtain ⟨hsign, hhigh⟩ := unhexDigit_hexCode (n := b.toNat / 16) (by omega)
  obtain ⟨-, hlow⟩ := unhexDigit_hexCode (n := b.toNat % 16) (by omega)
  have hvalue : b.toNat / 16 * 16 + b.toNat % 16 = b.toNat := by omega
  rw [fromStrRadix, if_neg hsign, hhigh, hlow]
  simp only [hvalue, UInt8.ofNat_toNat]

theorem unhex_hex (bytes : Bytes) : unhex (hex bytes) = some bytes := by
  rw [unhex, hex, toUTF8_ofList]
  induction bytes with
  | nil => rfl
  | cons b bytes ih =>
      have hbyte := b.toNat_lt
      rw [List.flatMap_cons, List.flatMap_append, List.flatMap_cons, List.flatMap_cons,
        List.flatMap_nil, utf8EncodeChar_hexDigit (by omega), utf8EncodeChar_hexDigit (by omega)]
      simp only [List.append_nil, List.cons_append, List.nil_append, unhexPairs,
        fromStrRadix_hexCode, ih]

theorem unhex16_hex (x : Bytes16) : unhex16 (hex x.toBytes) = some x := by
  rw [unhex16, unhex_hex]
  exact bytes16?_toBytes x

end IrohBeekem
