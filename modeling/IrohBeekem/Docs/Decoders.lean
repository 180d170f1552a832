import Mathlib
import IrohBeekem.Docs.Versions

/-!
# Hexadecimal decoders on hostile text

Three decoders read hexadecimal text, two by slicing it at byte offsets and one by asking
for the slice.  A slice that ends inside a character is a call that does not return, and
the integer parser that a slice is handed to takes a leading plus sign.

`Decoder.exact_iff` says for each decoder on which texts it returns and is exact;
the second half of the module says of each reader of the manifest which texts it decodes,
and that it returns where they can be sliced.
-/

set_option linter.unusedSectionVars false

namespace IrohBeekem

open Library

/-! ## Slicing -/

/-- A call that does not return. -/
inductive SlicePanic where
  | insideCharacter
  deriving DecidableEq

abbrev Checked (α : Type) := Except SlicePanic α

/-- `is_char_boundary`: the text does not go on inside a character here. -/
def onBoundary : Bytes → Bool
  | [] => true
  | b :: _ => ¬ (128 ≤ b ∧ b < 192)

/-- The bytes of a text. -/
def textBytes (raw : String) : Bytes := raw.toUTF8.data.toList

/-- Slice off two bytes at a time and parse each, up to the first that does not parse. -/
def slicePairs : Bytes → Checked (Option Bytes)
  | a :: b :: rest =>
      if onBoundary (a :: b :: rest) ∧ onBoundary rest then
        match fromStrRadix a b with
        | none => .ok none
        | some x => do
            let xs ← slicePairs rest
            return xs.map (x :: ·)
      else .error .insideCharacter
  | _ => .ok (some [])

/-- The same with slices that are asked for. -/
def getPairs : Bytes → Option Bytes
  | a :: b :: rest =>
      if onBoundary (a :: b :: rest) ∧ onBoundary rest then do
        let x ← fromStrRadix a b
        let xs ← getPairs rest
        return x :: xs
      else none
  | _ => some []

/-- `<[u8; 8]>::try_from`, and the number the bytes spell. -/
def u64? (bytes : Bytes) : Option U64 :=
  if bytes.length = 8 then some (Fin.ofNat _ (ofBeBytes bytes)) else none

/-! ## The decoders -/

namespace Sliced

/-- `unhex` of the manifest. -/
def unhex (raw : String) : Checked (Option Bytes) :=
  if (textBytes raw).length % 2 ≠ 0 then .ok none else slicePairs (textBytes raw)

def unhex16 (raw : String) : Checked (Option Bytes16) := do
  let bytes ← unhex raw
  return bytes.bind bytes16?

def unhex32 (raw : String) : Checked (Option Bytes32) := do
  let bytes ← unhex raw
  return bytes.bind bytes32?

/-- `unhex_bytes` of the state machine. -/
def unhexBytes (raw : String) : Checked (Option Bytes) :=
  if (textBytes raw).length % 2 = 0 then slicePairs (textBytes raw) else .ok none

/-- `unhex_u64`. -/
def unhexU64 (raw : String) : Checked (Option U64) := do
  let bytes ← unhexBytes raw
  return bytes.bind u64?

def unhexMember (raw : String) : Checked (Option Bytes32) := do
  let bytes ← unhexBytes raw
  return bytes.bind bytes32?

/-- `unhex` of the store. -/
def storeUnhex (text : String) : Option Bytes32 :=
  if (textBytes text).length ≠ 64 then none
  else (getPairs (textBytes text)).map fun out => Fin.ofNat _ (ofBeBytes out)

end Sliced

/-- The decoders. -/
inductive Decoder where
  | unhex
  | unhex16
  | unhex32
  | unhexBytes
  | unhexU64
  | unhexMember
  | storeUnhex
  deriving DecidableEq

namespace Decoder

/-- What a decoder decodes. -/
def Value : Decoder → Type
  | .unhex | .unhexBytes => Bytes
  | .unhex16 => Bytes16
  | .unhex32 | .unhexMember | .storeUnhex => Bytes32
  | .unhexU64 => U64

/-- The bytes that are written of a value. -/
def bytesOf : (d : Decoder) → d.Value → Bytes
  | .unhex, x => x
  | .unhexBytes, x => x
  | .unhex16, x => Bytes16.toBytes x
  | .unhex32, x => Bytes32.toBytes x
  | .unhexMember, x => Bytes32.toBytes x
  | .storeUnhex, x => Bytes32.toBytes x
  | .unhexU64, x => beBytes 8 (Fin.val (n := 2 ^ 64) x)

def run : (d : Decoder) → String → Checked (Option d.Value)
  | .unhex, raw => Sliced.unhex raw
  | .unhex16, raw => Sliced.unhex16 raw
  | .unhex32, raw => Sliced.unhex32 raw
  | .unhexBytes, raw => Sliced.unhexBytes raw
  | .unhexU64, raw => Sliced.unhexU64 raw
  | .unhexMember, raw => Sliced.unhexMember raw
  | .storeUnhex, raw => .ok (Sliced.storeUnhex raw)

/-- How many bytes of text a decoder requires, if it requires a number. -/
def required : Decoder → Option Nat
  | .unhex | .unhexBytes => none
  | .unhex16 => some 32
  | .unhex32 | .unhexMember | .storeUnhex => some 64
  | .unhexU64 => some 16

/-- Whether a decoder slices, rather than asks for slices. -/
def slices : Decoder → Bool
  | .storeUnhex => false
  | _ => true

end Decoder

/-! ## What a checked call gives -/

/-- A call returns exactly under a condition, and then this. -/
structure Guards {α : Type} (p : Prop) (a : α) (x : Checked α) : Prop where
  returns : p → x = .ok a
  panics : ¬ p → x = .error .insideCharacter

namespace Guards

variable {α β : Type} {p q : Prop} {a : α} {b : β} {x : Checked α}

theorem ok (a : α) : Guards True a (.ok a) := ⟨fun _ => rfl, fun h => absurd trivial h⟩

theorem iff (h : Guards p a x) (hpq : p ↔ q) : Guards q a x :=
  ⟨fun hq => h.returns (hpq.mpr hq), fun hq => h.panics fun hp => hq (hpq.mp hp)⟩

theorem congr (h : Guards p a x) {a' : α} (ha : a = a') : Guards p a' x := ha ▸ h

theorem bind (hx : Guards p a x) {f : α → Checked β} (hf : Guards q b (f a)) :
    Guards (p ∧ q) b (x >>= f) where
  returns h := by
    rw [hx.returns h.1]
    exact hf.returns h.2
  panics h := by
    by_cases hp : p
    · rw [hx.returns hp]
      exact hf.panics fun hq => h ⟨hp, hq⟩
    · rw [hx.panics hp]
      rfl

theorem map (hx : Guards p a x) (g : α → β) :
    Guards p (g a) (x >>= fun a => Pure.pure (g a)) :=
  (hx.bind (Guards.ok (g a))).iff (and_iff_left trivial)

/-- A call that returns, returns that. -/
theorem eq_ok_iff (h : Guards p a x) (r : α) : x = .ok r ↔ p ∧ r = a := by
  by_cases hp : p
  · rw [h.returns hp]
    simp [hp, eq_comm]
  · rw [h.panics hp]
    simp [hp]

theorem exists_ok_iff (h : Guards p a x) : (∃ r, x = .ok r) ↔ p := by
  simp [h.eq_ok_iff]

end Guards

/-! ## When slicing returns, and what parses -/

/-- No slice up to the first that does not parse ends inside a character. -/
def Whole : Bytes → Prop
  | a :: b :: rest =>
      (onBoundary (a :: b :: rest) = true ∧ onBoundary rest = true) ∧
        ((fromStrRadix a b).isSome = true → Whole rest)
  | _ => True

/-- Every pair parses. -/
def Parses : Bytes → Prop
  | a :: b :: rest => (fromStrRadix a b).isSome = true ∧ Parses rest
  | _ => True

theorem unhexDigit_plus : unhexDigit 43 = none := by decide

/-- A pair that parses is two digits, or a plus sign and a digit. -/
theorem fromStrRadix_isSome {a b : UInt8} :
    (fromStrRadix a b).isSome ↔
      (a = 43 ∨ (unhexDigit a).isSome) ∧ (unhexDigit b).isSome := by
  unfold fromStrRadix
  split
  · next h => simp [h]
  · next h =>
      cases ha : unhexDigit a with
      | none => simp [h]
      | some x =>
          cases hb : unhexDigit b with
          | none => simp
          | some y => simp

theorem unhexDigit_lt {b : UInt8} (h : (unhexDigit b).isSome) : b < 128 := by
  unfold unhexDigit at h
  split at h
  · next hdigit => exact UInt8.lt_of_le_of_lt hdigit.2 (by decide)
  · split at h
    · next hdigit => exact UInt8.lt_of_le_of_lt hdigit.2 (by decide)
    · split at h
      · next hdigit => exact UInt8.lt_of_le_of_lt hdigit.2 (by decide)
      · cases h

theorem onBoundary_cons {b : UInt8} (h : b < 128) (rest : Bytes) :
    onBoundary (b :: rest) = true := by
  simpa [onBoundary] using Or.inl h

/-- Induction over a text two bytes at a time. -/
theorem pairs_induction {P : (bytes : Bytes) → bytes.length % 2 = 0 → Prop} (hnil : P [] rfl)
    (hpair : ∀ a b rest (heven : rest.length % 2 = 0), P rest heven →
      P (a :: b :: rest) (by simpa [Nat.add_assoc] using heven)) :
    ∀ (bytes : Bytes) (heven : bytes.length % 2 = 0), P bytes heven
  | [], _ => hnil
  | [_], h => absurd h (by simp)
  | a :: b :: rest, h => by
      have hrest : rest.length % 2 = 0 := by simpa [Nat.add_assoc] using h
      exact hpair a b rest hrest (pairs_induction hnil hpair rest hrest)

theorem fromStrRadix_lt {a b : UInt8} (h : (fromStrRadix a b).isSome) : a < 128 ∧ b < 128 := by
  obtain ⟨ha, hb⟩ := fromStrRadix_isSome.mp h
  refine ⟨?_, unhexDigit_lt hb⟩
  obtain rfl | ha := ha
  · decide
  · exact unhexDigit_lt ha

/-- Where every pair parses, every slice is whole. -/
theorem Parses.whole {bytes : Bytes} (h : Parses bytes) (heven : bytes.length % 2 = 0) :
    Whole bytes := by
  induction bytes, heven using pairs_induction with
  | hnil => trivial
  | hpair a b rest _ ih =>
      obtain ⟨hpair, hrest⟩ := h
      refine ⟨⟨onBoundary_cons (fromStrRadix_lt hpair).1 _, ?_⟩, fun _ => ih hrest⟩
      match rest, hrest with
      | [], _ => rfl
      | [c], _ => simp at *
      | c :: d :: rest, hrest => exact onBoundary_cons (fromStrRadix_lt hrest.1).1 _

/-- Where every pair parses there is an outcome, and only there; it is half as long. -/
theorem Parses.exists_out {bytes : Bytes} (h : Parses bytes) (heven : bytes.length % 2 = 0) :
    ∃ out, unhexPairs bytes = some out := by
  induction bytes, heven using pairs_induction with
  | hnil => exact ⟨[], rfl⟩
  | hpair a b rest _ ih =>
      obtain ⟨x, hx⟩ := Option.isSome_iff_exists.mp h.1
      obtain ⟨out, hout⟩ := ih h.2
      exact ⟨x :: out, by simp only [unhexPairs, hx, hout]⟩

theorem parses_of_out {bytes out : Bytes} (h : unhexPairs bytes = some out) :
    Parses bytes ∧ bytes.length = 2 * out.length := by
  induction bytes using unhexPairs.induct generalizing out with
  | case1 =>
      cases h
      exact ⟨trivial, rfl⟩
  | case2 _ => cases h
  | case3 a b rest x xs hxs hx ih =>
      simp only [unhexPairs, hx, hxs, Option.some.injEq] at h
      subst h
      obtain ⟨hrest, hlength⟩ := ih hxs
      exact ⟨⟨by simp [hx], hrest⟩, by simp [hlength, Nat.mul_add]⟩
  | case4 a b rest hnone _ =>
      rw [unhexPairs] at h
      split at h
      · next x xs hx hxs => exact absurd hxs (hnone x xs hx)
      · cases h

/-- The digits of a text that parses are digits, except for plus signs. -/
theorem Parses.digits_iff {bytes : Bytes} (h : Parses bytes) (heven : bytes.length % 2 = 0) :
    (∀ b ∈ bytes, (unhexDigit b).isSome) ↔ 43 ∉ bytes := by
  constructor
  · intro hall hplus
    exact absurd (hall 43 hplus) (by decide)
  · intro hplus
    induction bytes, heven using pairs_induction with
    | hnil => exact fun b hb => absurd hb List.not_mem_nil
    | hpair a b rest _ ih =>
        obtain ⟨hpair, hrest⟩ := h
        obtain ⟨ha, hb⟩ := fromStrRadix_isSome.mp hpair
        simp only [List.mem_cons, not_or] at hplus
        intro c hc
        obtain rfl | rfl | hc := by simpa using hc
        · exact ha.resolve_left (Ne.symm hplus.1)
        · exact hb
        · exact ih hrest hplus.2.2 c hc

/-- Slicing returns where it is whole, and then what the pairs parse to. -/
theorem slicePairs_guards {bytes : Bytes} (heven : bytes.length % 2 = 0) :
    Guards (Whole bytes) (unhexPairs bytes) (slicePairs bytes) := by
  induction bytes, heven using pairs_induction with
  | hnil => exact .ok _
  | hpair a b rest _ ih =>
      rw [slicePairs, unhexPairs]
      by_cases hslice : onBoundary (a :: b :: rest) = true ∧ onBoundary rest = true
      · rw [if_pos hslice]
        cases hx : fromStrRadix a b with
        | none => exact (Guards.ok none).iff (by simp [Whole, hslice, hx])
        | some x =>
            have hmap := ih.map (Option.map (x :: ·))
            refine (hmap.iff (q := Whole (a :: b :: rest)) (by simp [Whole, hslice, hx])).congr ?_
            cases unhexPairs rest <;> rfl
      · rw [if_neg hslice]
        exact ⟨fun h => absurd h.1 hslice, fun _ => rfl⟩

/-- Slices that are asked for give what the pairs parse to: a pair that parses is whole. -/
theorem getPairs_eq {bytes : Bytes} (heven : bytes.length % 2 = 0) :
    getPairs bytes = unhexPairs bytes := by
  induction bytes, heven using pairs_induction with
  | hnil => rfl
  | hpair a b rest heven ih =>
      rw [getPairs, ih]
      by_cases hslice : onBoundary (a :: b :: rest) = true ∧ onBoundary rest = true
      · rw [if_pos hslice, unhexPairs]
        cases fromStrRadix a b with
        | none => rfl
        | some x => cases unhexPairs rest <;> rfl
      · rw [if_neg hslice]
        have heven : (a :: b :: rest).length % 2 = 0 := by simpa [Nat.add_assoc] using heven
        cases hout : unhexPairs (a :: b :: rest) with
        | none => rfl
        | some out =>
            exact absurd ((parses_of_out hout).1.whole heven).1 hslice

/-! ## Exact decoders -/

/-- Text made of hexadecimal digits. -/
def HexText (raw : String) : Prop := ∀ b ∈ textBytes raw, (unhexDigit b).isSome

namespace Decoder

/-- A text is as long as the decoder requires. -/
def Fits (d : Decoder) (raw : String) : Prop :=
  match d.required with
  | none => (textBytes raw).length % 2 = 0
  | some n => (textBytes raw).length = n

/-- The decoder returns, and decodes nothing but hexadecimal digits, as many as required. -/
structure Exact (d : Decoder) (raw : String) : Prop where
  returns : ∃ r, d.run raw = .ok r
  exact : ∀ x, d.run raw = .ok (some x) → HexText raw ∧ d.Fits raw

/-- The text is one the decoder answers for: if it slices a text of even length, every slice
up to the first pair that does not parse is whole; and if the text is as long as required
and every pair parses, there is no plus sign in it. -/
structure Readable (d : Decoder) (raw : String) : Prop where
  whole : d.slices = true → (textBytes raw).length % 2 = 0 → Whole (textBytes raw)
  unsigned : d.Fits raw → Parses (textBytes raw) → 43 ∉ textBytes raw

end Decoder

/-- The slicing decoder returns on a text of odd length, and on one whose slices are whole. -/
theorem sliced_unhex_guards (raw : String) :
    Guards ((textBytes raw).length % 2 = 0 → Whole (textBytes raw)) (unhex raw)
      (Sliced.unhex raw) := by
  unfold Sliced.unhex
  by_cases heven : (textBytes raw).length % 2 = 0
  · rw [if_neg (not_not.mpr heven)]
    exact (slicePairs_guards heven).iff (by simp [heven])
  · rw [if_pos heven]
    refine ((Guards.ok none).congr ?_).iff (by simp [heven])
    cases hout : unhex raw with
    | none => rfl
    | some out => exact absurd ((parses_of_out hout).2 ▸ Nat.mul_mod_right 2 _) heven

theorem sliced_unhexBytes (raw : String) : Sliced.unhexBytes raw = Sliced.unhex raw := by
  unfold Sliced.unhexBytes Sliced.unhex
  split
  · next heven => rw [if_neg (not_not.mpr heven)]
  · rfl

/-- What a text decodes to where the decoder returns. -/
def Decoder.value : (d : Decoder) → String → Option d.Value
  | .unhex, raw => IrohBeekem.unhex raw
  | .unhex16, raw => IrohBeekem.unhex16 raw
  | .unhex32, raw => IrohBeekem.unhex32 raw
  | .unhexBytes, raw => IrohBeekem.unhex raw
  | .unhexU64, raw => (IrohBeekem.unhex raw).bind u64?
  | .unhexMember, raw => IrohBeekem.unhex32 raw
  | .storeUnhex, raw => IrohBeekem.unhex32 raw

theorem storeUnhex_eq (raw : String) : Sliced.storeUnhex raw = unhex32 raw := by
  unfold Sliced.storeUnhex unhex32
  by_cases hlength : (textBytes raw).length = 64
  · rw [if_neg (not_not.mpr hlength), getPairs_eq (by rw [hlength])]
    show Option.map _ (unhex raw) = _
    cases hout : unhex raw with
    | none => rfl
    | some out =>
        have hhalf := (parses_of_out hout).2
        have hout32 : out.length = 32 := by
          have hbytes : (textBytes raw).length = 2 * out.length := hhalf
          omega
        simp [bytes32?, hout32]
  · rw [if_pos hlength]
    cases hout : unhex raw with
    | none => rfl
    | some out =>
        have hhalf : (textBytes raw).length = 2 * out.length := (parses_of_out hout).2
        have hout32 : out.length ≠ 32 := by omega
        simp [bytes32?, hout32]

/-- Every decoder returns exactly where it meets no slice inside a character, and then the
value the pairs parse to. -/
theorem Decoder.run_guards (d : Decoder) (raw : String) :
    Guards (d.slices = true → (textBytes raw).length % 2 = 0 → Whole (textBytes raw))
      (d.value raw) (d.run raw) := by
  have hunhex := sliced_unhex_guards raw
  have hbytes := sliced_unhexBytes raw
  cases d with
  | unhex => exact hunhex.iff (by simp [slices])
  | unhex16 => exact (hunhex.map (·.bind bytes16?)).iff (by simp [slices])
  | unhex32 => exact (hunhex.map (·.bind bytes32?)).iff (by simp [slices])
  | unhexBytes =>
      show Guards _ _ (Sliced.unhexBytes raw)
      rw [hbytes]
      exact hunhex.iff (by simp [slices])
  | unhexU64 =>
      show Guards _ _ (Sliced.unhexBytes raw >>= _)
      rw [hbytes]
      exact (hunhex.map (·.bind u64?)).iff (by simp [slices])
  | unhexMember =>
      show Guards _ _ (Sliced.unhexBytes raw >>= _)
      rw [hbytes]
      exact (hunhex.map (·.bind bytes32?)).iff (by simp [slices])
  | storeUnhex =>
      show Guards _ _ (.ok (Sliced.storeUnhex raw))
      rw [storeUnhex_eq]
      exact (Guards.ok _).iff (by simp [slices])

theorem exists_unhex_iff (raw : String) :
    (∃ out, unhex raw = some out) ↔ (textBytes raw).length % 2 = 0 ∧ Parses (textBytes raw) := by
  constructor
  · rintro ⟨out, hout⟩
    obtain ⟨hparses, hlength⟩ := parses_of_out hout
    refine ⟨?_, hparses⟩
    show (textBytes raw).length % 2 = 0
    rw [textBytes, hlength, Nat.mul_mod_right]
  · rintro ⟨heven, hparses⟩
    exact hparses.exists_out heven

/-- A decoder of values of one size decodes the texts that are twice as long and parse. -/
theorem exists_sized_iff {β : Type} {f : Bytes → Option β} {n : Nat}
    (hf : ∀ out, (∃ x, f out = some x) ↔ out.length = n) (raw : String) :
    (∃ x, (unhex raw).bind f = some x) ↔
      (textBytes raw).length = 2 * n ∧ Parses (textBytes raw) := by
  constructor
  · rintro ⟨x, hx⟩
    obtain ⟨out, hout, hfx⟩ := Option.bind_eq_some_iff.mp hx
    obtain ⟨hparses, hlength⟩ := parses_of_out hout
    rw [(hf out).mp ⟨x, hfx⟩] at hlength
    exact ⟨hlength, hparses⟩
  · rintro ⟨hlength, hparses⟩
    obtain ⟨out, hout⟩ := (exists_unhex_iff raw).mpr ⟨by omega, hparses⟩
    have hhalf : (textBytes raw).length = 2 * out.length := (parses_of_out hout).2
    obtain ⟨x, hx⟩ := (hf out).mpr (by omega)
    exact ⟨x, by rw [hout, Option.bind_some, hx]⟩

theorem exists_bytes16_iff (out : Bytes) : (∃ x, bytes16? out = some x) ↔ out.length = 16 := by
  simp [bytes16?]

theorem exists_bytes32_iff (out : Bytes) : (∃ x, bytes32? out = some x) ↔ out.length = 32 := by
  simp [bytes32?]

theorem exists_u64_iff (out : Bytes) : (∃ x, u64? out = some x) ↔ out.length = 8 := by
  simp [u64?]

/-- A text decodes to something exactly where it is as long as required and parses. -/
theorem Decoder.exists_value_iff (d : Decoder) (raw : String) :
    (∃ x, d.value raw = some x) ↔ d.Fits raw ∧ Parses (textBytes raw) := by
  cases d with
  | unhex => exact exists_unhex_iff raw
  | unhex16 => exact exists_sized_iff exists_bytes16_iff raw
  | unhex32 => exact exists_sized_iff exists_bytes32_iff raw
  | unhexBytes => exact exists_unhex_iff raw
  | unhexU64 => exact exists_sized_iff exists_u64_iff raw
  | unhexMember => exact exists_sized_iff exists_bytes32_iff raw
  | storeUnhex => exact exists_sized_iff exists_bytes32_iff raw

/-- What is required is an even number of bytes. -/
theorem Decoder.Fits.even {d : Decoder} {raw : String} (h : d.Fits raw) :
    (textBytes raw).length % 2 = 0 := by
  unfold Fits at h
  cases d <;> simp only [required] at h <;> omega

theorem bytes32?_toBytes (x : Bytes32) : bytes32? x.toBytes = some x := by
  have hvalue : ofBeBytes x.toBytes = x.val := ofBeBytes_beBytes x.isLt
  have hlength : x.toBytes.length = 32 := beBytes_length 32 x.val
  rw [bytes32?, if_pos hlength, hvalue]
  exact congrArg some (Fin.ofNat_val_eq_self x)

theorem u64?_beBytes (x : U64) : u64? (beBytes 8 x.val) = some x := by
  have hvalue : ofBeBytes (beBytes 8 x.val) = x.val := ofBeBytes_beBytes x.isLt
  rw [u64?, if_pos (beBytes_length 8 x.val), hvalue]
  exact congrArg some (Fin.ofNat_val_eq_self x)

theorem Decoder.value_hex (d : Decoder) (x : d.Value) : d.value (hex (d.bytesOf x)) = some x := by
  cases d with
  | unhex => exact unhex_hex x
  | unhex16 => exact unhex16_hex x
  | unhex32 => exact (congrArg (·.bind bytes32?) (unhex_hex _)).trans (bytes32?_toBytes x)
  | unhexBytes => exact unhex_hex x
  | unhexU64 => exact (congrArg (·.bind u64?) (unhex_hex _)).trans (u64?_beBytes x)
  | unhexMember => exact (congrArg (·.bind bytes32?) (unhex_hex _)).trans (bytes32?_toBytes x)
  | storeUnhex => exact (congrArg (·.bind bytes32?) (unhex_hex _)).trans (bytes32?_toBytes x)

/-- A decoder undoes `hex`, and is total and exact on the texts that are readable. -/
theorem Decoder.exact_iff (d : Decoder) :
    (∀ x, d.run (hex (d.bytesOf x)) = .ok (some x)) ∧ ∀ raw, d.Exact raw ↔ d.Readable raw := by
  refine ⟨fun x => ?_, fun raw => ⟨fun h => ⟨?_, fun hfits hparses => ?_⟩, fun h => ⟨?_, ?_⟩⟩⟩
  · obtain ⟨-, hparses⟩ := (d.exists_value_iff _).mp ⟨x, d.value_hex x⟩
    rw [← d.value_hex x]
    exact (d.run_guards _).returns fun _ => hparses.whole
  · exact (d.run_guards raw).exists_ok_iff.mp h.returns
  · obtain ⟨x, hx⟩ := (d.exists_value_iff raw).mpr ⟨hfits, hparses⟩
    have hrun := (d.run_guards raw).returns ((d.run_guards raw).exists_ok_iff.mp h.returns)
    exact (hparses.digits_iff hfits.even).mp (h.exact x (hrun.trans (congrArg _ hx))).1
  · exact (d.run_guards raw).exists_ok_iff.mpr h.whole
  · intro x hx
    have hvalue := ((d.run_guards raw).eq_ok_iff _).mp hx
    obtain ⟨hfits, hparses⟩ := (d.exists_value_iff raw).mp ⟨x, hvalue.2.symm⟩
    exact ⟨(hparses.digits_iff hfits.even).mpr (h.unsigned hfits hparses), hfits⟩

/-! ## The readers -/

variable [Beekem] [Loro] [Postcard]

/-- Slicing this text returns. -/
def Sliceable (raw : String) : Prop := (textBytes raw).length % 2 = 0 → Whole (textBytes raw)

/-- Visit the keys of a map, and keep what is found. -/
def visit {β : Type} (f : String → Checked (Option β)) (keys : List String) : Checked (List β) := do
  let found ← keys.mapM f
  return found.reduceOption

/-- A text that may be missing, decoded to a record. -/
def decodeAt {β : Type} (raw : Option String) (decode : Bytes → Option β) : Checked (Option β) :=
  match raw with
  | none => .ok none
  | some raw => do
      let bytes ← Sliced.unhex raw
      return bytes.bind decode

/-- A change of a document as its history lists it. -/
structure ChangeMeta where
  peer : U64
  counter : Nat
  len : Nat
  timestamp : UnixSeconds

/-- What is shown of a change. -/
structure VersionInfo where
  /-- The last operation of the change. -/
  last : U64 × Nat
  author : Option Bytes32
  date : UnixSeconds
  ops : Nat

def docAuthorsContainer : MapPath := .root "authors"

namespace Sliced

open Manifest

def versionAt (m : Manifest) (uuid : DocumentUuid) (field : String) :
    Checked (Option AssetVersion) :=
  if field.startsWith versionPrefix then
    decodeAt (stringAt m (.nested "files" (hex uuid.toBytes)) field) Postcard.decodeVersion
  else .ok none

def recordedVersions (m : Manifest) (uuid : DocumentUuid) : Checked (List AssetVersion) :=
  match Loro.get m filesContainer (hex uuid.toBytes) with
  | some .map => visit (versionAt m uuid) (Loro.keys m (.nested "files" (hex uuid.toBytes)))
  | _ => .ok []

def legacyAsset (m : Manifest) (uuid : DocumentUuid) : Checked (Option AssetMeta) :=
  decodeAt (nestedField m "files" (hex uuid.toBytes) "asset") Postcard.decodeMeta

/-- The shape of before there were versions is read where no version is recorded. -/
def assetVersions (m : Manifest) (uuid : DocumentUuid) : Checked (List AssetVersion) := do
  let recorded ← recordedVersions m uuid
  let versions ←
    if recorded.isEmpty then do
      let legacy ← legacyAsset m uuid
      pure (legacy.map fun assetMeta =>
        ({ content := uuid, assetMeta, author := 0, date := 0, seq := 0 } : AssetVersion)).toList
    else pure recorded
  return versions.mergeSort fun a b => a.precedence ≤ b.precedence

/-- The shape of the current version, or of before there were versions. -/
def currentAsset (m : Manifest) (key : String) (recorded : List AssetVersion) :
    Checked (Option AssetMeta) :=
  match currentVersion recorded with
  | some version => .ok (some version.assetMeta)
  | none =>
      let raw := (stringAt m (.nested "files" key) "asset").getD ""
      if raw = "" then .ok none else decodeAt (some raw) Postcard.decodeMeta

def fileAt (m : Manifest) (key : String) : Checked (Option FileEntry) := do
  let uuid ← unhex16 key
  match uuid, Loro.get m filesContainer key with
  | some uuid, some .map =>
      let field (name : String) : String := (stringAt m (.nested "files" key) name).getD ""
      let recorded ← recordedVersions m uuid
      let asset ← currentAsset m key recorded
      return some ⟨uuid, field "logical_path", field "mime_type", asset⟩
  | _, _ => return none

def files (m : Manifest) : Checked (List FileEntry) :=
  visit (fileAt m) (Loro.keys m filesContainer)

def users (m : Manifest) : Checked (List UserRecord) :=
  visit (fun key => do
    let id ← unhex32 key
    return id.bind m.user) (Loro.keys m usersContainer)

def device (m : Manifest) (member : Bytes32) : Checked (Option DeviceDisplay) := do
  let label := nestedField m "devices" (hex member.toBytes) "label"
  let endpointId ← decodeAt (nestedField m "devices" (hex member.toBytes) "endpoint_id") bytes32?
  if label.isNone ∧ endpointId.isNone then return none
  else return some ⟨member, endpointId, label.getD ""⟩

def deviceAt (m : Manifest) (key : String) : Checked (Option DeviceDisplay) := do
  let member ← unhex32 key
  match member with
  | none => return none
  | some member => device m member

def devices (m : Manifest) : Checked (List DeviceDisplay) :=
  visit (deviceAt m) (Loro.keys m devicesContainer)

def checkpoints (m : Manifest) : Checked (List Checkpoint) := do
  let decoded ← visit
    (fun key => decodeAt (stringAt m checkpointsContainer key) Postcard.decodeCheckpoint)
    (Loro.keys m checkpointsContainer)
  return decoded.mergeSort fun a b =>
    (toLex (b.date, b.digest) : UnixSeconds ×ₗ Bytes32) ≤ toLex (a.date, a.digest)

/-- The claim an entry makes, if it is a pair of hexadecimal keys. -/
def claimAt (d : LoroDoc) (key : String) : Checked (Option (U64 × Bytes32)) := do
  let peer ← unhexU64 key
  let member ← decodeAt (stringAt d docAuthorsContainer key) bytes32?
  return peer.bind fun peer => member.map fun member => (peer, member)

/-- `claimed_authors`: the later of two claims of one peer holds. -/
def claimedAuthors (d : LoroDoc) : Checked (List (U64 × Bytes32)) :=
  visit (claimAt d) (Loro.keys d docAuthorsContainer)

/-- `document_versions`, with the changes of the document as the library lists them. -/
def documentVersions (changes : LoroDoc → List ChangeMeta) (loro : Option LoroDoc) :
    Checked (List VersionInfo) :=
  match loro with
  | none => .ok []
  | some loro => do
      let authors ← claimedAuthors loro
      return (changes loro).map fun change =>
        { last := (change.peer, min (change.counter + change.len) (2 ^ 31 - 1) - 1)
          author := (authors.reverse.find? fun claim => claim.1 = change.peer).map Prod.snd
          date := change.timestamp
          ops := change.len }

end Sliced

/-! ## When the readers return -/

theorem decodeAt_guards {β : Type} (raw : Option String) (decode : Bytes → Option β) :
    Guards (∀ text, raw = some text → Sliceable text) ((raw.bind unhex).bind decode)
      (decodeAt raw decode) := by
  cases raw with
  | none => exact (Guards.ok none).iff (by simp)
  | some text =>
      exact ((sliced_unhex_guards text).map (·.bind decode)).iff (by simp [Sliceable])

theorem visit_guards {β : Type} {f : String → Checked (Option β)} {g : String → Option β}
    {p : String → Prop} {keys : List String} (h : ∀ key ∈ keys, Guards (p key) (g key) (f key)) :
    Guards (∀ key ∈ keys, p key) (keys.filterMap g) (visit f keys) := by
  have hfound : Guards (∀ key ∈ keys, p key) (keys.map g) (keys.mapM f) := by
    induction keys with
    | nil => exact (Guards.ok []).iff (by simp)
    | cons key keys ih =>
        rw [List.mapM_cons]
        have hrest := ih fun k hk => h k (List.mem_cons_of_mem _ hk)
        exact ((h key List.mem_cons_self).bind (hrest.map (g key :: ·))).iff (by simp)
  refine (hfound.map List.reduceOption).congr ?_
  rw [List.reduceOption, List.filterMap_map, Function.id_comp]

theorem sliced_unhex16_guards (raw : String) :
    Guards (Sliceable raw) (unhex16 raw) (Sliced.unhex16 raw) :=
  (sliced_unhex_guards raw).map (·.bind bytes16?)

theorem sliced_unhex32_guards (raw : String) :
    Guards (Sliceable raw) (unhex32 raw) (Sliced.unhex32 raw) :=
  (sliced_unhex_guards raw).map (·.bind bytes32?)

namespace Manifest

/-- Every version that is recorded can be sliced. -/
def RecordsSliceable (m : Manifest) (uuid : DocumentUuid) : Prop :=
  Loro.get m filesContainer (hex uuid.toBytes) = some .map →
    ∀ field ∈ Loro.keys m (.nested "files" (hex uuid.toBytes)), field.startsWith versionPrefix →
      ∀ text, stringAt m (.nested "files" (hex uuid.toBytes)) field = some text → Sliceable text

/-- The key of a file can be sliced, and if it names an entry what the entry records. -/
def FileSliceable (m : Manifest) (key : String) : Prop :=
  Sliceable key ∧ ∀ uuid, unhex16 key = some uuid → Loro.get m filesContainer key = some .map →
    RecordsSliceable m uuid ∧ (recordedVersions m uuid = [] →
      ∀ text, stringAt m (.nested "files" key) "asset" = some text → Sliceable text)

/-- The key of a device can be sliced, and if it names a device so can its endpoint. -/
def DeviceSliceable (m : Manifest) (key : String) : Prop :=
  Sliceable key ∧ ∀ member, unhex32 key = some member → ∀ text,
    nestedField m "devices" (hex member.toBytes) "endpoint_id" = some text → Sliceable text

theorem recordedVersions_guards (m : Manifest) (uuid : DocumentUuid) :
    Guards (RecordsSliceable m uuid) (recordedVersions m uuid) (Sliced.recordedVersions m uuid) := by
  unfold Sliced.recordedVersions
  split
  · next hmap =>
      have hfields : ∀ field ∈ Loro.keys m (.nested "files" (hex uuid.toBytes)),
          Guards (field.startsWith versionPrefix → ∀ text,
              stringAt m (.nested "files" (hex uuid.toBytes)) field = some text → Sliceable text)
            (versionAt m uuid field) (Sliced.versionAt m uuid field) := by
        intro field _
        unfold Sliced.versionAt versionAt
        split
        · next hstarts => exact (decodeAt_guards _ _).iff (by simp [hstarts])
        · next hother => exact (Guards.ok none).iff (by simp [hother])
      rw [recordedVersions_map hmap]
      exact (visit_guards hfields).iff (by simp [RecordsSliceable, hmap])
  · next hnone =>
      rw [recordedVersions_none hnone]
      exact (Guards.ok []).iff ⟨fun _ hmap => absurd hmap hnone, fun _ => trivial⟩

theorem assetVersions_guards (m : Manifest) (uuid : DocumentUuid) :
    Guards (RecordsSliceable m uuid ∧ (recordedVersions m uuid = [] → ∀ text,
        nestedField m "files" (hex uuid.toBytes) "asset" = some text → Sliceable text))
      (assetVersions m uuid) (Sliced.assetVersions m uuid) := by
  unfold Sliced.assetVersions
  refine (recordedVersions_guards m uuid).bind (q := recordedVersions m uuid = [] → ∀ text,
    nestedField m "files" (hex uuid.toBytes) "asset" = some text → Sliceable text) ?_
  unfold assetVersions
  by_cases hnone : recordedVersions m uuid = []
  · simp only [hnone, List.isEmpty_nil, if_true]
    have hlegacy := (decodeAt_guards (nestedField m "files" (hex uuid.toBytes) "asset")
      Postcard.decodeMeta).map fun legacy => (legacy.map fun assetMeta =>
        ({ content := uuid, assetMeta, author := 0, date := 0, seq := 0 } : AssetVersion)).toList.mergeSort
          fun a b => a.precedence ≤ b.precedence
    exact hlegacy.iff ⟨fun h _ => h, fun h => h trivial⟩
  · have hsome : (recordedVersions m uuid).isEmpty = false := by simpa using hnone
    simp only [hsome, Bool.false_eq_true, if_false]
    exact (Guards.ok _).iff (by simp [hnone])

theorem currentVersion_eq_none {versions : List AssetVersion} :
    currentVersion versions = none ↔ versions = [] := by
  cases versions with
  | nil => exact iff_of_true rfl rfl
  | cons v versions => simp [currentVersion]

theorem currentAsset_guards (m : Manifest) (key : String) (recorded : List AssetVersion) :
    Guards (recorded = [] → ∀ text,
        stringAt m (.nested "files" key) "asset" = some text → Sliceable text)
      (((currentVersion recorded).map AssetVersion.assetMeta).or
        (if (stringAt m (.nested "files" key) "asset").getD "" = "" then none
          else (unhex ((stringAt m (.nested "files" key) "asset").getD "")).bind
            Postcard.decodeMeta))
      (Sliced.currentAsset m key recorded) := by
  have hempty : Sliceable "" := fun _ => trivial
  unfold Sliced.currentAsset
  cases hversion : currentVersion recorded with
  | some version =>
      have hsome : recorded ≠ [] := fun h => by simp [currentVersion_eq_none.mpr h] at hversion
      exact (Guards.ok _).iff (by simp [hsome])
  | none =>
      have hnone := currentVersion_eq_none.mp hversion
      cases htext : stringAt m (.nested "files" key) "asset" with
      | none => exact (Guards.ok none).iff (by simp [hnone])
      | some text =>
          by_cases hblank : text = ""
          · subst hblank
            exact (Guards.ok none).iff (by simp [hnone, hempty])
          · simp only [Option.getD_some, hblank, if_false, Option.map_none, Option.none_or]
            exact (decodeAt_guards (some text) Postcard.decodeMeta).iff (by simp [hnone])

theorem files_guards (m : Manifest) :
    Guards (∀ key ∈ Loro.keys m filesContainer, FileSliceable m key) (files m) (Sliced.files m) := by
  refine visit_guards fun key _ => ?_
  unfold Sliced.fileAt
  refine (sliced_unhex16_guards key).bind (q := ∀ uuid, unhex16 key = some uuid →
    Loro.get m filesContainer key = some .map → RecordsSliceable m uuid ∧
      (recordedVersions m uuid = [] → ∀ text,
        stringAt m (.nested "files" key) "asset" = some text → Sliceable text)) ?_
  cases huuid : unhex16 key with
  | none => exact (Guards.ok none).iff (by simp)
  | some uuid =>
      cases Loro.get m filesContainer key with
      | none => exact (Guards.ok none).iff (by simp)
      | some entry =>
          cases entry with
          | map =>
              have hasset := (currentAsset_guards m key (recordedVersions m uuid)).map
                fun asset => some
                  { uuid
                    logicalPath := (stringAt m (.nested "files" key) "logical_path").getD ""
                    mimeType := (stringAt m (.nested "files" key) "mime_type").getD ""
                    asset : FileEntry }
              refine ((recordedVersions_guards m uuid).bind hasset).iff ?_
              simp
          | string value => exact (Guards.ok none).iff (by simp)
          | value => exact (Guards.ok none).iff (by simp)
          | container => exact (Guards.ok none).iff (by simp)

theorem users_guards (m : Manifest) :
    Guards (∀ key ∈ Loro.keys m usersContainer, Sliceable key) (users m) (Sliced.users m) :=
  visit_guards fun key _ => (sliced_unhex32_guards key).map (·.bind m.user)

theorem device_guards (m : Manifest) (member : Bytes32) :
    Guards (∀ text, nestedField m "devices" (hex member.toBytes) "endpoint_id" = some text →
      Sliceable text) (device m member) (Sliced.device m member) := by
  unfold Sliced.device
  have hendpoint := decodeAt_guards
    (nestedField m "devices" (hex member.toBytes) "endpoint_id") bytes32?
  have hdecode : ∀ text : Option String, (text.bind unhex).bind bytes32? = text.bind unhex32 :=
    fun text => Option.bind_assoc ..
  rw [hdecode] at hendpoint
  refine (hendpoint.bind (q := True) ?_).iff (and_iff_left trivial)
  unfold device
  dsimp only
  split
  · exact Guards.ok none
  · exact Guards.ok _

theorem devices_guards (m : Manifest) :
    Guards (∀ key ∈ Loro.keys m devicesContainer, DeviceSliceable m key) (devices m)
      (Sliced.devices m) := by
  refine visit_guards fun key _ => ?_
  unfold Sliced.deviceAt
  refine (sliced_unhex32_guards key).bind (q := ∀ member, unhex32 key = some member → ∀ text,
    nestedField m "devices" (hex member.toBytes) "endpoint_id" = some text → Sliceable text) ?_
  cases unhex32 key with
  | none => exact (Guards.ok none).iff (by simp)
  | some member =>
      refine (device_guards m member).iff ?_
      simp

theorem checkpoints_guards (m : Manifest) :
    Guards (∀ key ∈ Loro.keys m checkpointsContainer, ∀ text,
        stringAt m checkpointsContainer key = some text → Sliceable text)
      (checkpoints m) (Sliced.checkpoints m) :=
  (visit_guards fun _ _ => decodeAt_guards _ _).map fun decoded : List Checkpoint =>
    decoded.mergeSort fun a b =>
      (toLex (b.date, b.digest) : UnixSeconds ×ₗ Bytes32) ≤ toLex (a.date, a.digest)

/-- The claims of a document return where their keys and the members they name can be
sliced. -/
theorem claimedAuthors_guards (d : LoroDoc) :
    ∃ claims, Guards (∀ key ∈ Loro.keys d docAuthorsContainer, Sliceable key ∧ ∀ text,
        stringAt d docAuthorsContainer key = some text → Sliceable text)
      claims (Sliced.claimedAuthors d) := by
  refine ⟨_, visit_guards (g := fun key => ((unhex key).bind u64?).bind fun peer =>
    (((stringAt d docAuthorsContainer key).bind unhex).bind bytes32?).map fun member =>
      (peer, member)) fun key _ => ?_⟩
  have hmember := (decodeAt_guards (stringAt d docAuthorsContainer key) bytes32?).map fun member =>
    ((unhex key).bind u64?).bind fun peer => member.map fun member => (peer, member)
  exact (Decoder.run_guards .unhexU64 key).bind hmember |>.iff (by simp [Sliceable, Decoder.slices])

theorem documentVersions_guards (changes : LoroDoc → List ChangeMeta) (d : LoroDoc) :
    ∃ versions, Guards (∀ key ∈ Loro.keys d docAuthorsContainer, Sliceable key ∧ ∀ text,
        stringAt d docAuthorsContainer key = some text → Sliceable text)
      versions (Sliced.documentVersions changes (some d)) := by
  obtain ⟨claims, hclaims⟩ := claimedAuthors_guards d
  exact ⟨_, hclaims.map _⟩

end Manifest

open Manifest

/-- Each reader of a replica returns exactly where the texts it decodes can be sliced. -/
structure ReadersReturn (d : LoroDoc) : Prop where
  files : (∃ r, Sliced.files d = .ok r) ↔ ∀ key ∈ Loro.keys d filesContainer, FileSliceable d key
  users : (∃ r, Sliced.users d = .ok r) ↔ ∀ key ∈ Loro.keys d usersContainer, Sliceable key
  devices : (∃ r, Sliced.devices d = .ok r) ↔
    ∀ key ∈ Loro.keys d devicesContainer, DeviceSliceable d key
  assetVersions : ∀ uuid, (∃ r, Sliced.assetVersions d uuid = .ok r) ↔
    RecordsSliceable d uuid ∧ (recordedVersions d uuid = [] → ∀ text,
      nestedField d "files" (hex uuid.toBytes) "asset" = some text → Sliceable text)
  checkpoints : (∃ r, Sliced.checkpoints d = .ok r) ↔
    ∀ key ∈ Loro.keys d checkpointsContainer, ∀ text,
      stringAt d checkpointsContainer key = some text → Sliceable text
  documentVersions : ∀ changes, (∃ r, Sliced.documentVersions changes (some d) = .ok r) ↔
    ∀ key ∈ Loro.keys d docAuthorsContainer, Sliceable key ∧ ∀ text,
      stringAt d docAuthorsContainer key = some text → Sliceable text

/-- Every decoder undoes `hex`, and is total and exact on exactly the texts it answers for;
every reader returns exactly where the texts it decodes can be sliced. -/
theorem decoders_exact_iff :
    (∀ d : Decoder, (∀ x, d.run (hex (d.bytesOf x)) = .ok (some x)) ∧
      ∀ raw, d.Exact raw ↔ d.Readable raw) ∧
    ∀ d : LoroDoc, ReadersReturn d := by
  refine ⟨Decoder.exact_iff, fun d => ?_⟩
  exact
    { files := (files_guards d).exists_ok_iff
      users := (users_guards d).exists_ok_iff
      devices := (devices_guards d).exists_ok_iff
      assetVersions := fun uuid => (assetVersions_guards d uuid).exists_ok_iff
      checkpoints := (checkpoints_guards d).exists_ok_iff
      documentVersions := fun changes =>
        let ⟨_, hversions⟩ := documentVersions_guards changes d
        hversions.exists_ok_iff }

omit [Beekem] [Loro] [Postcard] in
/-- Slicing four bytes of which the second begins a character does not return, and a sign
before a digit decodes. -/
theorem hostile_text :
    Sliced.unhex "aé1" = .error .insideCharacter ∧ Sliced.unhex "+a" = .ok (some [10]) ∧
      ¬ ∀ (d : Decoder) (raw : String), d.Exact raw := by
  have hpanic : Sliced.unhex "aé1" = .error .insideCharacter := by decide +kernel
  refine ⟨hpanic, by decide +kernel, fun h => ?_⟩
  obtain ⟨r, hr⟩ := (h .unhex "aé1").returns
  exact absurd (hpanic.symm.trans hr) (by simp)

end IrohBeekem
