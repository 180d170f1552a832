import IrohBeekem.Docs.History
import IrohBeekem.State.ListModel

/-!
# Replicas that count

The list replica with a history: it counts its writes, an export is the span of writes
it carries, and a span that starts after the replica's own count has to wait.  A call
that changes nothing is not counted.
-/

namespace IrohBeekem

open Library WorkspaceState

/-- An export: the writes from one count to another, and the text they lead to. -/
structure Span where
  lo : Nat
  hi : Nat
  text : Bytes

namespace Span

/-- Each count as so many zeros. -/
def encode (s : Span) : Bytes :=
  List.replicate s.lo 0 ++ 1 :: (List.replicate s.hi 0 ++ 1 :: s.text)

/-- A count, and what follows it. -/
def readCount (bytes : Bytes) : Nat × Bytes :=
  ((bytes.takeWhile (· = 0)).length, (bytes.dropWhile (· = 0)).tail)

def decode (bytes : Bytes) : Span :=
  let (lo, rest) := readCount bytes
  let (hi, text) := readCount rest
  ⟨lo, hi, text⟩

theorem readCount_replicate (n : Nat) (rest : Bytes) :
    readCount (List.replicate n 0 ++ 1 :: rest) = (n, rest) := by
  unfold readCount
  rw [List.takeWhile_append_of_pos (by simp), List.dropWhile_append_of_pos (by simp)]
  simp

theorem decode_encode (s : Span) : decode s.encode = s := by
  unfold decode encode
  rw [readCount_replicate]
  dsimp only
  rw [readCount_replicate]

/-- What a replica makes of an export. -/
def importInto (s : Span) (d : ListDoc) : Bool × ListDoc :=
  if s.hi ≤ s.lo then (false, d)
  else if d.clock < s.lo then (true, d)
  else if d.clock < s.hi then
    (false, { d with
      clock := s.hi, text := String.ofList (s.text.map fun b => Char.ofNat b.toNat) })
  else (false, d)

end Span

namespace ListDoc

/-- The writes a version does not count. -/
def spanFrom (d : ListDoc) (lo : Nat) : Bytes :=
  Span.encode ⟨lo, d.clock, d.text.toUTF8.data.toList⟩

/-- Change the text, if that changes it. -/
def writeText (text : String) (d : ListDoc) : ListDoc :=
  if text = d.text then d else d.setText text

end ListDoc

@[reducible] def clockLoro : Loro :=
  { listLoro with
    insertText := fun pos text d => .ok () (d.writeText
      (String.ofList (d.text.toList.take pos ++ text.toList ++ d.text.toList.drop pos)))
    deleteText := fun pos len d => .ok () (d.writeText
      (String.ofList (d.text.toList.take pos ++ d.text.toList.drop (pos + len))))
    updateText := fun text d => .ok () (d.writeText text)
    exportAs := fun mode d =>
      match mode with
      | .updates v => .ok (d.spanFrom v.length)
      | _ => .ok (d.spanFrom 0)
    importBytes := fun bytes d =>
      let (pending, d) := (Span.decode bytes).importInto d
      .ok pending d }

section Laws

local instance countingLoro : Loro := clockLoro

/-- The operations are the counts; each depends on those below it. -/
def clockHistory : History Nat where
  ops d := { n | n < ListDoc.clock d }
  past o := { n | n < o }
  covered v := { n | n < v.length }
  carried bytes := { n | (Span.decode bytes).lo ≤ n ∧ n < (Span.decode bytes).hi }

theorem carried_spanFrom (d : ListDoc) (lo : Nat) :
    clockHistory.carried (d.spanFrom lo) = { n | lo ≤ n ∧ n < d.clock } := by
  unfold clockHistory ListDoc.spanFrom
  dsimp only
  rw [Span.decode_encode]

theorem clockHistory_lawful : clockHistory.Lawful where
  closed d o ho n hn := by
    change n < ListDoc.clock d
    exact lt_trans hn ho
  covered_oplogVv d := by
    ext n
    change n < (List.replicate d.clock (0 : UInt8)).length ↔ n < d.clock
    rw [List.length_replicate]
  ops_commit _ := rfl
  carried_all d bytes hexport := by
    obtain rfl : d.spanFrom 0 = bytes := Except.ok.inj hexport
    rw [carried_spanFrom]
    ext n
    simp [clockHistory]
  carried_updates v d bytes _ hexport := by
    obtain rfl : d.spanFrom v.length = bytes := Except.ok.inj hexport
    rw [carried_spanFrom]
    ext n
    simp [clockHistory, and_comm]
  import_ready mode source bytes d _ hready := by
    refine ⟨((Span.decode bytes).importInto d).2, ?_⟩
    have hmerged : ((Span.decode bytes).importInto d).1 = false := by
      unfold Span.importInto
      split_ifs with hempty hgap hlater
      · rfl
      · -- the first write carried depends on one the replica has not seen
        have hfirst : (Span.decode bytes).lo ∈ clockHistory.carried bytes :=
          ⟨le_rfl, not_le.mp hempty⟩
        have hmissing : d.clock ∈ clockHistory.ops d ∪ clockHistory.carried bytes :=
          hready _ hfirst hgap
        rcases hmissing with hheld | hcarried
        · exact absurd (show d.clock < d.clock from hheld) (lt_irrefl _)
        · exact absurd hcarried.1 (not_le.mpr hgap)
      · rfl
      · rfl
    change EStateM.Result.ok ((Span.decode bytes).importInto d).1
      ((Span.decode bytes).importInto d).2 = _
    rw [hmerged]
  import_clean bytes d d' himport := by
    obtain ⟨hmerged, rfl⟩ : ((Span.decode bytes).importInto d).1 = false ∧
        ((Span.decode bytes).importInto d).2 = d' := EStateM.Result.ok.inj himport
    intro n hn
    change n < ListDoc.clock _
    unfold Span.importInto at hmerged ⊢
    obtain ⟨hlo, hhi⟩ := hn
    split_ifs at hmerged ⊢ with hempty hgap hlater
    · omega
    · exact hhi
    · change n < d.clock
      omega
  import_grows bytes d := by
    intro n hn
    change n < ListDoc.clock ((Span.decode bytes).importInto d).2
    have hheld : n < ListDoc.clock d := hn
    unfold Span.importInto
    split_ifs with hempty hgap hlater
    · exact hheld
    · exact hheld
    · exact lt_trans hheld hlater
    · exact hheld

/-- A call that counts at most one write depends on all before it. -/
theorem clock_extends {α : Type} {x : EStateM String ListDoc α}
    (hx : ∀ d, (after x d).clock = d.clock ∨ (after x d).clock = d.clock + 1) :
    clockHistory.Extends x := by
  intro d
  have hcases := hx d
  refine ⟨fun n hn => ?_, fun o ho hnot n hn => ?_⟩
  · have hheld : n < ListDoc.clock d := hn
    change n < (after x d).clock
    omega
  · have hheld : n < ListDoc.clock d := hn
    have hcounted : o < (after x d).clock := ho
    have hnew : ¬ o < ListDoc.clock d := hnot
    change n < o
    omega

private theorem writeText_clock (text : String) (d : ListDoc) :
    (d.writeText text).clock = d.clock ∨ (d.writeText text).clock = d.clock + 1 := by
  unfold ListDoc.writeText
  split_ifs
  · exact Or.inl rfl
  · exact Or.inr rfl

theorem clockHistory_lawfulEdits : clockHistory.LawfulEdits where
  toLawful := clockHistory_lawful
  insert _ _ _ := clock_extends fun _ => Or.inr rfl
  insertText _ _ := clock_extends fun d => writeText_clock _ d
  deleteText _ _ := clock_extends fun d => writeText_clock _ d
  updateText _ := clock_extends fun d => writeText_clock _ d
  revertTo _ := clock_extends fun _ => Or.inr rfl
  ops_commitWith _ _ := rfl

end Laws

end IrohBeekem
