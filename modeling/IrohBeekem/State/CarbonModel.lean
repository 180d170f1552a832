import IrohBeekem.Library.Codec
import IrohBeekem.State.ListModel

/-!
# Replicas that can be stored

The replicas of `ListModel` with an export that spells the whole replica out, so that a
node over them can be stored and resumed.
-/

namespace IrohBeekem

open Library

def mapPathCodec : Codec MapPath :=
  (Codec.pair .string Codec.string.option).through
    (fun | .root name => (name, none) | .nested name key => (name, some key))
    (fun | (name, none) => some (.root name) | (name, some key) => some (.nested name key))
    fun path => by cases path <;> rfl

def loroEntryCodec : Codec LoroEntry :=
  (Codec.pair (.word 1 4 (by norm_num)) Codec.string.option).through
    (fun
      | .string value => (0, some value)
      | .value => (1, none)
      | .map => (2, none)
      | .container => (3, none))
    (fun
      | (0, some value) => some (.string value)
      | (1, none) => some .value
      | (2, none) => some .map
      | (3, none) => some .container
      | _ => none)
    fun entry => by cases entry <;> rfl

/-- The whole of a replica. -/
def listDocCodec : Codec ListDoc :=
  ((mapPathCodec.pair (Codec.string.pair loroEntryCodec)).list.pair
    (Codec.string.pair Codec.unary)).through
    (fun d => (d.entries, d.text, d.clock)) (fun v => some ⟨v.1, v.2.1, v.2.2⟩) fun _ => rfl

namespace ListDoc

/-- Take in another replica: its entries win, and its text stands. -/
def join (other d : ListDoc) : ListDoc :=
  ⟨other.entries ++ d.entries, other.text, other.clock + d.clock⟩

/-- Read an export into a replica. -/
def importBytes (bytes : Bytes) (d : ListDoc) : EStateM.Result String ListDoc Bool :=
  match listDocCodec.decode bytes with
  | some (other, _) => .ok false (other.join d)
  | none => .error "no export" d

theorem importBytes_encode (d : ListDoc) :
    importBytes (listDocCodec.encode d) ⟨[], "", 0⟩ = .ok false d := by
  have hread := listDocCodec.decode_encode d []
  rw [List.append_nil] at hread
  simp [importBytes, hread, join]

end ListDoc

/-- Replicas as lists, stored without loss. -/
@[reducible] def carbonLoro : Loro :=
  { listLoro with
    exportAs := fun _ d => .ok (listDocCodec.encode d)
    importBytes := fun bytes d => ListDoc.importBytes bytes d }

end IrohBeekem
