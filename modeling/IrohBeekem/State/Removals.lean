import IrohBeekem.State.Generations

/-!
# The namespace after a removal

A removal asks for a capability under the next counter, so that what is minted outranks
all the removed device could know.  The notes of a run are the namespaces the node held
and those it decrypted from announcements; none has a higher counter than the one at hand
(`Knows`), and the request is for more than that.

The counter saturates, and an announcement may carry any.  After one of the largest, the
capability of a removal competes with what was there before by its digest alone
(`removal_outranks_iff`).
-/

set_option linter.unusedSectionVars false

namespace IrohBeekem

open Library CgkaController WorkspaceState

variable [Keyhive] [Beekem] [Loro] [Postcard]

/-! ## What a node held or decrypted -/

/-- The namespaces a node decrypts from what a call announces to it. -/
def Call.decrypted (s : WorkspaceState) (call : Call) : List NamespaceEpoch :=
  if call.mints then [] else (call.told s).map fun x => .of x.1 x.2

def Turn.decrypted (s : WorkspaceState) : Turn → List NamespaceEpoch
  | .call made _ => made.decrypted s
  | .restart _ _ => []

/-- The runs of a node, with the namespaces it held or decrypted. -/
def knowledgeRuns : Chart WorkspaceState Turn (List NamespaceEpoch) where
  init s known := (Founded s ∨ Joined s) ∧ known = [s.namespaceEpoch]
  step := Turn.take
  note turn s known := (turn.take s).namespaceEpoch :: (turn.decrypted s ++ known)
  ok _ _ _ := True

/-- A node after some turns. -/
def Turn.takeAll (turns : List Turn) (s : WorkspaceState) : WorkspaceState :=
  turns.foldl (fun s turn => turn.take s) s

section Runs

variable [LawfulBeekem] {s : WorkspaceState}

theorem onNamespaceArrived_fails {epoch : U32} {chunk : Chunk OpHash} {p p' : WorkspaceState × Rng}
    {err : CoreError} (h : onNamespaceArrived epoch chunk p = .error err p') :
    announced p.1 epoch chunk = [] := by
  unfold announced
  have hsure : ∀ ticket c, CgkaController.decrypt chunk p.1.cgka = .ok (.plaintext ticket) c →
      Wp (onNamespaceArrived epoch chunk) (fun _ _ => True) (fun _ _ => False) p := by
    intro ticket c hdecrypt
    unfold onNamespaceArrived
    rw [wp_bind, wp_onCgka]
    unfold Wp
    rw [hdecrypt]
    change Wp _ _ _ _
    rw [wp_bind, wp_self]
    split_ifs <;> trivial
  split
  · rename_i ticket c hdecrypt
    exact ((hsure ticket c hdecrypt).of_error h).elim
  · rfl

/-- A call that fails was not told of anything by a peer. -/
theorem Call.told_of_fails {call : Call} (hmints : call.mints = false) {rng : Rng}
    {err : CoreError} {p : WorkspaceState × Rng} (h : call.run (s, rng) = .error err p) :
    call.told s = [] := by
  cases call with
  | handle event now =>
      cases event with
      | namespaceMinted epoch ticket => exact absurd hmints.symm Bool.false_ne_true
      | namespaceArrived epoch chunk => exact onNamespaceArrived_fails h
      | _ => rfl
  | onControl msg now =>
      cases msg with
      | namespace_ epoch chunk => exact onNamespaceArrived_fails h
      | _ => rfl
  | _ => rfl

/-- The counter has not fallen, and is not below that of what a call announced. -/
structure Climbs (s : WorkspaceState) (decrypted : List NamespaceEpoch) (s' : WorkspaceState) :
    Prop where
  epoch : s.namespaceEpoch.epoch ≤ s'.namespaceEpoch.epoch
  decrypted : ∀ x ∈ decrypted, x.epoch ≤ s'.namespaceEpoch.epoch

theorem Climbs.of_same {s' : WorkspaceState} (h : s'.namespaceEpoch = s.namespaceEpoch) :
    Climbs s [] s' :=
  ⟨le_of_eq (congrArg NamespaceEpoch.epoch h.symm), fun _ hx => absurd hx List.not_mem_nil⟩

theorem Announced.climbs {s' : WorkspaceState} {call : Call} {effects : List Effect}
    (h : Announced s call s' effects) : Climbs s (call.decrypted s) s' := by
  unfold Call.decrypted
  cases h with
  | still hrekeyed hsilent hpassed =>
      split_ifs with hmints
      · exact .of_same hrekeyed.namespaceEpoch
      · refine ⟨(Climbs.of_same hrekeyed.namespaceEpoch).epoch, fun x hx => ?_⟩
        obtain ⟨y, hy, rfl⟩ := List.mem_map.mp hx
        have hpast := hpassed y hy
        unfold Passed at hpast
        rw [if_neg hmints] at hpast
        rw [hrekeyed.namespaceEpoch]
        exact NamespaceEpoch.epoch_le_of_rank_le hpast
  | again ops chunk hcall hrekeyed hticket hchunk =>
      rw [call.told_of_reannounces hcall, List.map_nil, ite_self]
      exact .of_same hrekeyed.namespaceEpoch
  | minted epoch ticket ops chunk htold hmints hcurrent hcgka hepoch hticket hchunk =>
      rw [if_pos hmints]
      refine ⟨?_, fun x hx => absurd hx List.not_mem_nil⟩
      rw [hepoch, ← hcurrent]
      exact le_rfl
  | adopted epoch ticket htold hmints hnewer hcgka hepoch hticket =>
      rw [htold, hmints]
      refine ⟨?_, fun x hx => ?_⟩
      · rw [hepoch]
        exact NamespaceEpoch.epoch_le_of_rank_le hnewer.le
      · obtain rfl : x = .of epoch ticket := by simpa using hx
        rw [hepoch]

theorem Call.climbs (call : Call) (s : WorkspaceState) (rng : Rng) :
    Climbs s (call.decrypted s) (after call.run (s, rng)).1 := by
  unfold after
  cases hrun : call.run (s, rng) with
  | error e p =>
      have hsame := ((call.moves s rng).of_error hrun).namespaceEpoch
      have hnone : call.decrypted s = [] := by
        unfold Call.decrypted
        split_ifs with hmints
        · rfl
        · rw [Call.told_of_fails (by simpa using hmints) hrun]
          rfl
      rw [hnone]
      exact .of_same hsame
  | ok effects p =>
      by_cases hcall : call.aboutNamespace = true
      · exact ((call.announced hcall s rng).of_ok hrun).climbs
      · have hquiet : call.aboutNamespace = false := by simpa using hcall
        obtain ⟨-, hbumps⟩ := (call.advances hquiet s rng).of_ok hrun
        have hnone : call.decrypted s = [] := by
          unfold Call.decrypted
          rw [call.told_eq_nil hquiet, List.map_nil, ite_self]
        rw [hnone]
        exact ⟨NamespaceEpoch.epoch_le_of_rank_le hbumps.rises,
          fun _ hx => absurd hx List.not_mem_nil⟩

theorem Turn.climbs (turn : Turn) (s : WorkspaceState) : Climbs s (turn.decrypted s) (turn.take s) := by
  cases turn with
  | call made rng => exact made.climbs s rng
  | restart order rng =>
      refine Wp.after (P := fun p : WorkspaceState × Rng => Climbs s [] p.1)
        ((restart_spec order s rng).mono ?_ ?_)
      · exact fun _ p h => .of_same h.namespaceEpoch
      · exact fun _ p h => .of_same (by rw [h])

theorem Turn.takeAll_climbs (turns : List Turn) (s : WorkspaceState) :
    s.namespaceEpoch.epoch ≤ (Turn.takeAll turns s).namespaceEpoch.epoch := by
  induction turns generalizing s with
  | nil => exact le_rfl
  | cons turn rest ih => exact (turn.climbs s).epoch.trans (ih (turn.take s))

/-- Nothing a node held or decrypted has a higher counter than the namespace at hand, which
is among it. -/
structure Knows (s : WorkspaceState) (known : List NamespaceEpoch) : Prop where
  held : s.namespaceEpoch ∈ known
  below : ∀ x ∈ known, x.epoch ≤ s.namespaceEpoch.epoch

theorem Knows.of_course {known : List NamespaceEpoch} (h : knowledgeRuns.Course s known) :
    Knows s known := by
  refine h.invariant ?_ ?_
  · rintro s _ ⟨-, rfl⟩
    exact ⟨List.mem_singleton_self _, fun x hx => (List.mem_singleton.mp hx) ▸ le_rfl⟩
  · intro s known turn hknows _
    have hclimbs := turn.climbs s
    refine ⟨List.mem_cons_self, fun x hx => ?_⟩
    rcases List.mem_cons.mp hx with rfl | hx
    · exact le_rfl
    · rcases List.mem_append.mp hx with hx | hx
      · exact hclimbs.decrypted x hx
      · exact (hknows.below x hx).trans hclimbs.epoch

/-! ## The capability of a removal -/

/-- The counter a call asks a capability for is above the one at hand, as far as there is
one above, and the node is on it from then on. -/
theorem Call.asked {call : Call} {rng : Rng} {effects : List Effect} {p : WorkspaceState × Rng}
    (hrun : call.run (s, rng) = .ok effects p) {epoch : U32}
    (hasked : .rotateNamespace epoch ∈ effects) :
    satSucc s.namespaceEpoch.epoch ≤ epoch ∧ epoch ≤ p.1.namespaceEpoch.epoch := by
  by_cases hcall : call.aboutNamespace = true
  · exfalso
    cases (call.announced hcall s rng).of_ok hrun with
    | still hrekeyed hsilent hpassed =>
        exact absurd (hsilent.quiet _ hasked).symm Bool.false_ne_true
    | again ops chunk hcall hrekeyed hticket hchunk => simp [Effect.broadcast] at hasked
    | minted epoch ticket ops chunk htold hmints hcurrent hcgka hepoch hticket hchunk =>
        simp [Effect.broadcast] at hasked
    | adopted epoch ticket htold hmints hnewer hcgka hepoch hticket => simp at hasked
  · have hquiet : call.aboutNamespace = false := by simpa using hcall
    exact ((call.advances hquiet s rng).of_ok hrun).2.asked epoch hasked

/-- A capability minted for the counter at hand is installed. -/
theorem minted_installed {epoch : U32} {ticket : Bytes} {now : UnixSeconds} {rng : Rng}
    {effects : List Effect} {p : WorkspaceState × Rng}
    (hrun : (Call.handle (.namespaceMinted epoch ticket) now).run (s, rng) = .ok effects p)
    (hcurrent : epoch = s.namespaceEpoch.epoch) : p.1.namespaceEpoch = .of epoch ticket := by
  cases ((Call.handle (.namespaceMinted epoch ticket) now).announced rfl s rng).of_ok hrun with
  | still hrekeyed hsilent hpassed =>
      have hother := hpassed (epoch, ticket) (by simp [Call.told])
      exact absurd hcurrent hother
  | again ops chunk hcall hrekeyed hticket hchunk => exact absurd hcall Bool.false_ne_true
  | minted epoch' ticket' ops chunk htold hmints hcurrent' hcgka hepoch hticket hchunk =>
      obtain ⟨rfl, rfl⟩ : epoch = epoch' ∧ ticket = ticket' := by simpa [Call.told] using htold
      exact hepoch
  | adopted epoch' ticket' htold hmints hnewer hcgka hepoch hticket =>
      exact absurd hmints.symm Bool.false_ne_true

/-- In every run, whatever happens between a removal and the answer to its request, the
namespace is then above all that the node held or decrypted before the removal exactly if
the counter was not at its largest value, or the digest decides for what was minted. -/
theorem removal_outranks_iff {known : List NamespaceEpoch} (h : knowledgeRuns.Course s known)
    {removal : Call} {rng : Rng} {effects : List Effect} {p : WorkspaceState × Rng}
    (hremoval : removal.run (s, rng) = .ok effects p) {epoch : U32}
    (hasked : .rotateNamespace epoch ∈ effects) (turns : List Turn) {ticket : Bytes}
    {now : UnixSeconds} {rng' : Rng} {effects' : List Effect} {p' : WorkspaceState × Rng}
    (hminted : (Call.handle (.namespaceMinted epoch ticket) now).run
      (Turn.takeAll turns p.1, rng') = .ok effects' p') :
    (∀ x ∈ known, x.rank < p'.1.namespaceEpoch.rank) ↔
      s.namespaceEpoch.epoch < maxOf (2 ^ 32) ∨
        ∀ x ∈ known, x.epoch = maxOf (2 ^ 32) → x.digest < Beekem.hashBytes ticket := by
  have hknows := Knows.of_course h
  obtain ⟨habove, hon⟩ := Call.asked hremoval hasked
  have hlater := Turn.takeAll_climbs turns p.1
  have hlast : (Turn.takeAll turns p.1).namespaceEpoch.epoch ≤ p'.1.namespaceEpoch.epoch := by
    have hclimbs := (Call.handle (.namespaceMinted epoch ticket) now).climbs
      (Turn.takeAll turns p.1) rng'
    unfold after at hclimbs
    rw [hminted] at hclimbs
    exact hclimbs.epoch
  by_cases hroom : s.namespaceEpoch.epoch < maxOf (2 ^ 32)
  · refine iff_of_true (fun x hx => Prod.Lex.toLex_lt_toLex.mpr (Or.inl ?_)) (Or.inl hroom)
    calc x.epoch ≤ s.namespaceEpoch.epoch := hknows.below x hx
      _ < satSucc s.namespaceEpoch.epoch := lt_satSucc hroom
      _ ≤ epoch := habove
      _ ≤ p'.1.namespaceEpoch.epoch := (hon.trans hlater).trans hlast
  · have htop : s.namespaceEpoch.epoch = maxOf (2 ^ 32) :=
      le_antisymm (le_maxOf _) (not_lt.mp hroom)
    have hepoch : epoch = maxOf (2 ^ 32) :=
      le_antisymm (le_maxOf _) (htop ▸ (le_satSucc _).trans habove)
    have hcurrent : epoch = (Turn.takeAll turns p.1).namespaceEpoch.epoch :=
      le_antisymm (hon.trans hlater) (hepoch ▸ le_maxOf _)
    rw [minted_installed hminted hcurrent, hepoch]
    constructor
    · intro hall
      refine Or.inr fun x hx hmax => ?_
      rcases Prod.Lex.toLex_lt_toLex.mp (hall x hx) with hlt | ⟨-, hdigest⟩
      · exact absurd hmax hlt.ne
      · exact hdigest
    · intro hcondition x hx
      have hdigests := hcondition.resolve_left hroom
      rcases (le_maxOf x.epoch).lt_or_eq with hlt | hmax
      · exact Prod.Lex.toLex_lt_toLex.mpr (Or.inl hlt)
      · exact Prod.Lex.toLex_lt_toLex.mpr (Or.inr ⟨hmax, hdigests x hx hmax⟩)

end Runs

end IrohBeekem

namespace IrohBeekem

open Library WorkspaceState

section Samples

local instance outrankedKeyhive : Keyhive := transparentKeyhive

local instance outrankedBeekem : Beekem := listBeekem

local instance outrankedLawful : LawfulBeekem := listBeekem_live.toLawfulBeekem

local instance outrankedLoro : Loro := listLoro

local instance outrankedPostcard : Postcard := blankPostcard

/-- A run of the founder, which admits an administrator and two viewers, and then this. -/
def knowing (turns : List Turn) : WorkspaceState × List NamespaceEpoch :=
  knowledgeRuns.takeAll (admissions ++ turns) (sampleWorkspace 1, [(sampleWorkspace 1).namespaceEpoch])

private theorem knowing_course (turns : List Turn) :
    knowledgeRuns.Course (knowing turns).1 (knowing turns).2 := by
  refine Chart.Course.takeAll (r := (sampleWorkspace 1, [(sampleWorkspace 1).namespaceEpoch])) ?_ _
    (Chart.allOk_of_forall (fun _ _ _ _ => trivial) _)
  exact .start ⟨Or.inl (sampleWorkspace_founded (by decide +kernel)), rfl⟩

/-- The administrator announces the capability `[9, 9]` under the largest counter. -/
def lastAnnouncement : Turn :=
  .call (.handle (.namespaceArrived (maxOf (2 ^ 32))
    ⟨[9, 9], 0, [], 0, OpId.of rootedFounder.cgka.init⟩) 0) (7 : Nat)

/-- The founder, before and after it heard of that. -/
@[irreducible] def unhurried : WorkspaceState × List NamespaceEpoch := knowing []

@[irreducible] def exhausted : WorkspaceState × List NamespaceEpoch := knowing [lastAnnouncement]

/-- The founder removes a viewer, and is told of the capability `[5]`. -/
def outranking (s : WorkspaceState) (epoch : U32) : WorkspaceState × Rng :=
  runAll [.handle (.removeMember 3) 0, .handle (.namespaceMinted epoch [5]) 0] (s, (7 : Nat))

/-- The capabilities a call asks for. -/
def requests (call : Call) (p : WorkspaceState × Rng) : List U32 :=
  match call.run p with
  | .ok effects _ => effects.filterMap fun
      | .rotateNamespace epoch => some epoch
      | _ => none
  | .error _ _ => []

private theorem run_of_requests {call : Call} {p : WorkspaceState × Rng} {epoch : U32}
    (h : epoch ∈ requests call p) :
    ∃ effects, call.run p = .ok effects (after call.run p) ∧ .rotateNamespace epoch ∈ effects := by
  unfold requests at h
  unfold after
  cases hrun : call.run p with
  | error e p' =>
      rw [hrun] at h
      exact absurd h List.not_mem_nil
  | ok effects p' =>
      rw [hrun] at h
      obtain ⟨e, he, heq⟩ := List.mem_filterMap.mp h
      refine ⟨effects, rfl, ?_⟩
      cases e with
      | rotateNamespace epoch' => exact Option.some.inj heq ▸ he
      | _ => exact absurd heq (by simp)

/-- Without the announcement, what the founder is told of outranks all it knew. -/
theorem removal_outranks_unhurried :
    unhurried.1.namespaceEpoch.epoch.val < 2 ^ 32 - 1 ∧
      ∀ x ∈ unhurried.2, x.rank < (outranking unhurried.1 1).1.namespaceEpoch.rank := by
  have hbelow : unhurried.1.namespaceEpoch.epoch.val < 2 ^ 32 - 1 := by decide +kernel
  have hcourse : knowledgeRuns.Course unhurried.1 unhurried.2 := by
    unfold unhurried
    exact knowing_course _
  have hasked : 1 ∈ requests (.handle (.removeMember 3) 0) (unhurried.1, (7 : Nat)) := by
    decide +kernel
  obtain ⟨effects, hremoval, hrotates⟩ := run_of_requests hasked
  have hsucceeds : succeeds (Call.handle (.namespaceMinted 1 [5]) 0).run
      (after (Call.handle (.removeMember 3) 0).run (unhurried.1, (7 : Nat))) = true := by
    decide +kernel
  obtain ⟨effects', hminted⟩ := run_of_succeeds hsucceeds
  exact ⟨hbelow, (removal_outranks_iff hcourse hremoval hrotates [] hminted).mpr (Or.inl hbelow)⟩

/-- With it, the founder leaves the capability it was announced for one below it. -/
theorem removal_outranked_exhausted :
    ¬ ∀ (s : WorkspaceState) (known : List NamespaceEpoch) (removal : Call) (rng rng' : Rng)
      (effects effects' : List Effect) (p p' : WorkspaceState × Rng) (epoch : U32)
      (ticket : Bytes) (now : UnixSeconds), knowledgeRuns.Course s known →
      removal.run (s, rng) = .ok effects p → .rotateNamespace epoch ∈ effects →
      (Call.handle (.namespaceMinted epoch ticket) now).run (p.1, rng') = .ok effects' p' →
      ∀ x ∈ known, x.rank < p'.1.namespaceEpoch.rank := by
  intro h
  have hcourse : knowledgeRuns.Course exhausted.1 exhausted.2 := by
    unfold exhausted
    exact knowing_course _
  have hasked : maxOf (2 ^ 32) ∈
      requests (.handle (.removeMember 3) 0) (exhausted.1, (7 : Nat)) := by decide +kernel
  obtain ⟨effects, hremoval, hrotates⟩ := run_of_requests hasked
  have hsucceeds : succeeds (Call.handle (.namespaceMinted (maxOf (2 ^ 32)) [5]) 0).run
      (after (Call.handle (.removeMember 3) 0).run (exhausted.1, (7 : Nat))) = true := by
    decide +kernel
  obtain ⟨effects', hminted⟩ := run_of_succeeds hsucceeds
  have hknown : NamespaceEpoch.of (maxOf (2 ^ 32)) [9, 9] ∈ exhausted.2 := by decide +kernel
  have hrank := h _ _ _ _ _ _ _ _ _ _ _ _ hcourse hremoval hrotates hminted _ hknown
  exact absurd hrank (by decide +kernel)

end Samples

end IrohBeekem
