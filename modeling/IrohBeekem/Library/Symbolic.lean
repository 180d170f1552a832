import Mathlib.Data.Set.Basic

/-!
# Symbolic messages

Messages as terms over secret names, with the cryptographic operations as free
symbols, and what somebody who knows some of them can build: `Derives`.  A term is
read as bytes by `Term.eval`, given what the symbols and the names stand for.

`Guarded` says that a name is out of reach in a term: it stands only where a one-way
operation hides it.  It is kept by every rule (`Derives.guarded`), so a name that is
guarded in all that is known is not derivable.
-/

namespace IrohBeekem.Library

variable {Name : Type}

/-- Messages over secret names. -/
inductive Term (Name : Type) where
  | name (n : Name)
  | text (bytes : List UInt8)
  | pair (left right : Term Name)
  | hash (t : Term Name)
  | deriveKey (context : String) (material : Term Name)
  | publicKey (secret : Term Name)
  | encrypt (key plaintext : Term Name)
  | sign (secret content : Term Name)

/-- What can be built from what is known: every operation may be applied, a pair taken
apart, a box opened with its key, and the content of a signature read. -/
inductive Derives (known : Set (Term Name)) : Term Name → Prop where
  | known {t : Term Name} (h : t ∈ known) : Derives known t
  | text (bytes : List UInt8) : Derives known (.text bytes)
  | pair {a b : Term Name} (ha : Derives known a) (hb : Derives known b) :
      Derives known (.pair a b)
  | left {a b : Term Name} (h : Derives known (.pair a b)) : Derives known a
  | right {a b : Term Name} (h : Derives known (.pair a b)) : Derives known b
  | hash {t : Term Name} (h : Derives known t) : Derives known (.hash t)
  | deriveKey {t : Term Name} (context : String) (h : Derives known t) :
      Derives known (.deriveKey context t)
  | publicKey {t : Term Name} (h : Derives known t) : Derives known (.publicKey t)
  | encrypt {k t : Term Name} (hk : Derives known k) (h : Derives known t) :
      Derives known (.encrypt k t)
  | decrypt {k t : Term Name} (hk : Derives known k) (h : Derives known (.encrypt k t)) :
      Derives known t
  | sign {k t : Term Name} (hk : Derives known k) (h : Derives known t) :
      Derives known (.sign k t)
  | content {k t : Term Name} (h : Derives known (.sign k t)) : Derives known t

/-- What the operations and the names stand for, as strings of bytes. -/
structure Reading (Name : Type) where
  name : Name → List UInt8
  hash : List UInt8 → List UInt8
  deriveKey : String → List UInt8 → List UInt8
  publicKey : List UInt8 → List UInt8
  encrypt : List UInt8 → List UInt8 → List UInt8
  sign : List UInt8 → List UInt8 → List UInt8

/-- The bytes of a term. -/
def Term.eval (r : Reading Name) : Term Name → List UInt8
  | .name n => r.name n
  | .text bytes => bytes
  | .pair a b => a.eval r ++ b.eval r
  | .hash t => r.hash (t.eval r)
  | .deriveKey context t => r.deriveKey context (t.eval r)
  | .publicKey t => r.publicKey (t.eval r)
  | .encrypt k t => r.encrypt (k.eval r) (t.eval r)
  | .sign k t => r.sign (k.eval r) (t.eval r)

/-! ## Names that stay out of reach -/

/-- The name stands only under an operation that hides it: what is hashed, a key that
was derived from it, its public half, or the key a box or a signature was made with. -/
def Guarded (n : Name) : Term Name → Prop
  | .name n' => n' ≠ n
  | .text _ => True
  | .pair a b => Guarded n a ∧ Guarded n b
  | .hash _ => True
  | .deriveKey _ _ => True
  | .publicKey _ => True
  | .encrypt _ t => Guarded n t
  | .sign _ t => Guarded n t

/-- Whatever is derived from terms that guard a name guards it. -/
theorem Derives.guarded {known : Set (Term Name)} {n : Name} {t : Term Name}
    (h : Derives known t) (hknown : ∀ t ∈ known, Guarded n t) : Guarded n t := by
  induction h with
  | known h => exact hknown _ h
  | text bytes => trivial
  | pair _ _ iha ihb => exact ⟨iha, ihb⟩
  | left _ ih => exact ih.1
  | right _ ih => exact ih.2
  | hash _ _ => trivial
  | deriveKey _ _ _ => trivial
  | publicKey _ _ => trivial
  | encrypt _ _ _ ih => exact ih
  | decrypt _ _ _ ih => exact ih
  | sign _ _ _ ih => exact ih
  | content _ ih => exact ih

/-- A name guarded in all that is known is not derivable. -/
theorem not_derives_name {known : Set (Term Name)} {n : Name}
    (hknown : ∀ t ∈ known, Guarded n t) : ¬ Derives known (.name n) :=
  fun h => h.guarded hknown rfl

end IrohBeekem.Library
