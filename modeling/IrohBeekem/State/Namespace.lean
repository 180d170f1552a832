import IrohBeekem.State.ListModel

/-!
# Generations and their capabilities

A removal bumps the generation of the namespace at once and asks the caller to mint
a capability for it; until the reply arrives, the state holds the new counter beside
the old capability.  A `Journal` notes of a run what the node was told and whether
such a request is outstanding.

`Matched` is the invariant: while no request is outstanding, the capability the node
holds is one it was told of for the generation it is on.  Every announcement is then
of such a pair, as long as no announcement is repeated while a request is
outstanding; when it is, the old capability goes out under the new generation.
-/

set_option linter.unusedSectionVars false

namespace IrohBeekem

open Library CgkaController WorkspaceState

variable [Keyhive] [Beekem] [Loro] [Postcard]

/-! ## The journal of a run -/

/-- What a run has been about so far. -/
structure Journal where
  /-- The generations the node was told of, with the capability of each. -/
  told : List (U32 × Bytes)
  /-- Whether a capability was asked for and none has been installed since. -/
  outstanding : Bool
  /-- Whether no announcement was repeated while a request was outstanding. -/
  calm : Bool

namespace Journal

/-- The journal of a run that has not begun. -/
def empty : Journal := ⟨[], false, true⟩

/-- Whether a request is outstanding after an effect. -/
def note (before : Bool) : Effect → Bool
  | .rotateNamespace _ => true
  | .adoptNamespace _ _ => false
  | _ => before

/-- Whether a request is outstanding after these effects. -/
def outstandingAfter (before : Bool) (effects : List Effect) : Bool := effects.foldl note before

/-- The journal after one more call; the effects of a failed one are lost. -/
def next (j : Journal) (call : Call) (p : WorkspaceState × Rng) : Journal where
  told := call.told p.1 ++ j.told
  outstanding :=
    match call.run p with
    | .ok effects _ => outstandingAfter j.outstanding effects
    | .error _ _ => j.outstanding
  calm := j.calm && !(call.reannounces && j.outstanding)

end Journal

/-- The states runs of a node go through, each with the journal of its run. -/
inductive Recorded : WorkspaceState → Journal → Prop where
  | found {treeId signer secret : Bytes32} {threshold : U32} {rng rng' : Rng}
      {c : CgkaController} {s : WorkspaceState}
      (hcreate : CgkaController.create treeId signer rng = (.ok c, rng'))
      (hfound : WorkspaceState.found c secret threshold = .ok s) : Recorded s .empty
  | joined {treeId signer shareSecret : Bytes32} {ops : List ControlOp}
      {certs : List Certificate} {c : CgkaController} (secret : Bytes32) (epoch : U32)
      (hjoin : CgkaController.join treeId signer shareSecret ops certs = .ok c) :
      Recorded (WorkspaceState.joined c secret epoch) .empty
  | call {s : WorkspaceState} {j : Journal} (h : Recorded s j) (call : Call) (rng : Rng) :
      Recorded (after call.run (s, rng)).1 (j.next call (s, rng))
  | restart {s : WorkspaceState} {j : Journal} (h : Recorded s j) (order : HashOrder) (rng : Rng) :
      Recorded (after (WorkspaceState.restart order) (s, rng)).1 j

/-- A run's state, generator and journal after more calls. -/
def noting : List Call → (WorkspaceState × Rng) × Journal → (WorkspaceState × Rng) × Journal
  | [], r => r
  | call :: rest, (p, j) => noting rest (after call.run p, j.next call p)

theorem Recorded.calls {p : WorkspaceState × Rng} {j : Journal} (h : Recorded p.1 j)
    (calls : List Call) : Recorded (noting calls (p, j)).1.1 (noting calls (p, j)).2 := by
  induction calls generalizing p j with
  | nil => exact h
  | cons call rest ih => exact ih (h.call call p.2)

/-- While no request is outstanding, the capability at hand is one the node was told
of for the generation it is on. -/
def Matched (s : WorkspaceState) (j : Journal) : Prop :=
  j.outstanding = false → s.namespaceTicket ≠ [] →
    s.namespaceEpoch = .of s.namespaceEpoch.epoch s.namespaceTicket ∧
      (s.namespaceEpoch.epoch, s.namespaceTicket) ∈ j.told

/-! ## The invariant -/

section Outstanding

variable (before : Bool) {l : List Effect}

theorem note_quiet {e : Effect} (h : e.aboutNamespace = false) : Journal.note before e = before := by
  cases e with
  | rotateNamespace epoch => exact absurd h (by simp [Effect.aboutNamespace])
  | adoptNamespace epoch ticket => exact absurd h (by simp [Effect.aboutNamespace])
  | _ => rfl

theorem outstandingAfter_quiet (h : ∀ e ∈ l, e.aboutNamespace = false) :
    Journal.outstandingAfter before l = before := by
  induction l with
  | nil => rfl
  | cons e rest ih =>
      have hhead := note_quiet before (h e List.mem_cons_self)
      have hrest := ih fun e he => h e (List.mem_cons_of_mem _ he)
      rw [Journal.outstandingAfter, List.foldl_cons, hhead]
      exact hrest

/-- Effects that are about the namespace and only ask for capabilities leave a
request outstanding. -/
theorem outstandingAfter_rotates
    (h : ∀ e ∈ l, e.aboutNamespace = true → ∃ epoch, e = .rotateNamespace epoch) :
    Journal.outstandingAfter before l = true ∨
      Journal.outstandingAfter before l = before ∧ ∀ e ∈ l, e.aboutNamespace = false := by
  induction l generalizing before with
  | nil => exact Or.inr ⟨rfl, by simp⟩
  | cons e rest ih =>
      have hrest : ∀ e ∈ rest, e.aboutNamespace = true → ∃ epoch, e = .rotateNamespace epoch :=
        fun e he => h e (List.mem_cons_of_mem _ he)
      rw [Journal.outstandingAfter, List.foldl_cons]
      by_cases habout : e.aboutNamespace = true
      · obtain ⟨epoch, rfl⟩ := h e List.mem_cons_self habout
        rcases ih true hrest with htrue | ⟨htrue, -⟩
        · exact Or.inl htrue
        · exact Or.inl htrue
      · have hquiet : e.aboutNamespace = false := by simpa using habout
        rw [note_quiet before hquiet]
        refine (ih before hrest).imp_right fun ⟨hsame, hall⟩ => ⟨hsame, fun e' he' => ?_⟩
        rcases List.mem_cons.mp he' with rfl | he'
        · exact hquiet
        · exact hall e' he'

/-- Operations broadcast before other effects leave what is outstanding to those. -/
theorem outstandingAfter_broadcasts (ops : List ControlOp) :
    Journal.outstandingAfter before (ops.map Effect.broadcast ++ l) =
      Journal.outstandingAfter before l := by
  have hbroadcasts := outstandingAfter_quiet before (Announces.broadcasts ops).quiet
  unfold Journal.outstandingAfter at hbroadcasts ⊢
  rw [List.foldl_append, hbroadcasts]

end Outstanding

theorem Matched.mono {s s' : WorkspaceState} {j j' : Journal} (h : Matched s j)
    (hepoch : s'.namespaceEpoch = s.namespaceEpoch)
    (hticket : s'.namespaceTicket = s.namespaceTicket)
    (houtstanding : j'.outstanding = false → j.outstanding = false)
    (htold : ∀ x ∈ j.told, x ∈ j'.told) : Matched s' j' := by
  intro hnone hne
  rw [hepoch, hticket]
  obtain ⟨hof, hmem⟩ := h (houtstanding hnone) (hticket ▸ hne)
  exact ⟨hof, htold _ hmem⟩

/-- An announcement is of a capability the node was told of for exactly that
generation, which is the one it is on. -/
def Attested (j : Journal) (s : WorkspaceState) (epoch : U32) (chunk : Chunk OpHash) : Prop :=
  ∃ ticket, (∃ secret, Beekem.tryEncrypt secret ticket = some chunk) ∧
    (epoch, ticket) ∈ j.told ∧ s.namespaceEpoch = .of epoch ticket ∧ s.namespaceTicket = ticket

section Steps

variable [LawfulBeekem] {s : WorkspaceState} {j : Journal} {call : Call} {rng : Rng}

theorem Matched.announced {s' : WorkspaceState} {effects : List Effect} {rng' : Rng}
    (h : Matched s j) (hrun : call.run (s, rng) = .ok effects (s', rng'))
    (hannounced : Announced s call s' effects) : Matched s' (j.next call (s, rng)) := by
  have houtstanding : (j.next call (s, rng)).outstanding =
      Journal.outstandingAfter j.outstanding effects := by
    unfold Journal.next
    rw [hrun]
  have htold : ∀ x ∈ j.told, x ∈ (j.next call (s, rng)).told :=
    fun x hx => List.mem_append_right _ hx
  cases hannounced with
  | still hrekeyed hsilent hpassed =>
      refine h.mono hrekeyed.namespaceEpoch hrekeyed.namespaceTicket ?_ htold
      rw [houtstanding, outstandingAfter_quiet _ hsilent.quiet]
      exact id
  | again ops chunk hcall hrekeyed hticket hchunk =>
      refine h.mono hrekeyed.namespaceEpoch hrekeyed.namespaceTicket ?_ htold
      rw [houtstanding, outstandingAfter_broadcasts]
      exact id
  | minted epoch ticket ops chunk hone hmints hcurrent hcgka hepoch hticket hchunk =>
      intro _ _
      rw [hepoch, hticket]
      exact ⟨rfl, List.mem_append_left _ (by simp [hone, NamespaceEpoch.of])⟩
  | adopted epoch ticket hone hmints hnewer hcgka hepoch hticket =>
      intro _ _
      rw [hepoch, hticket]
      exact ⟨rfl, List.mem_append_left _ (by simp [hone, NamespaceEpoch.of])⟩

theorem Matched.step (h : Matched s j) (call : Call) (rng : Rng) :
    Matched (after call.run (s, rng)).1 (j.next call (s, rng)) := by
  have htold : ∀ x ∈ j.told, x ∈ (j.next call (s, rng)).told :=
    fun x hx => List.mem_append_right _ hx
  unfold after
  cases hrun : call.run (s, rng) with
  | ok effects p =>
      obtain ⟨s', rng'⟩ := p
      have houtstanding : (j.next call (s, rng)).outstanding =
          Journal.outstandingAfter j.outstanding effects := by
        unfold Journal.next
        rw [hrun]
      by_cases hcall : call.aboutNamespace = true
      · exact h.announced hrun ((call.announced hcall s rng).of_ok hrun)
      · obtain ⟨-, hbumps⟩ := (call.advances (by simpa using hcall) s rng).of_ok hrun
        rcases outstandingAfter_rotates j.outstanding hbumps.rotates with
          htrue | ⟨hsame, hquiet⟩
        · intro hnone
          exact absurd (hnone.symm.trans (houtstanding.trans htrue)) (by simp)
        · refine h.mono (hbumps.quiet hquiet) hbumps.ticket ?_ htold
          rw [houtstanding, hsame]
          exact id
  | error e p =>
      have houtstanding : (j.next call (s, rng)).outstanding = j.outstanding := by
        unfold Journal.next
        rw [hrun]
      have hfails := (call.moves s rng).of_error hrun
      refine h.mono hfails.namespaceEpoch hfails.namespaceTicket ?_ htold
      rw [houtstanding]
      exact id

/-- In every run, the capability at hand matches the generation unless one was asked
for. -/
theorem Recorded.matched (h : Recorded s j) : Matched s j := by
  induction h with
  | found hcreate hfound => exact fun _ hne => absurd (found_spec hfound).2 hne
  | joined secret epoch hjoin => exact fun _ hne => absurd rfl hne
  | call _ call rng ih => exact ih.step call rng
  | restart _ order rng ih =>
      refine Wp.after (P := fun p : WorkspaceState × Rng => Matched p.1 _)
        ((restart_spec order _ rng).mono ?_ ?_)
      · exact fun _ p h => ih.mono h.namespaceEpoch h.namespaceTicket id fun _ => id
      · exact fun _ p h => ih.mono (h ▸ rfl) (h ▸ rfl) id fun _ => id

/-- In every run that repeats no announcement while a removal's request for a
capability is outstanding, every announcement is of a capability the node was told of
for exactly that generation. -/
theorem publishNamespace_attested (h : Recorded s j) {effects : List Effect}
    {p : WorkspaceState × Rng} (hrun : call.run (s, rng) = .ok effects p)
    (hcalm : (j.next call (s, rng)).calm = true) {epoch : U32} {chunk : Chunk OpHash}
    (hmem : Effect.publishNamespace epoch chunk ∈ effects) :
    Attested (j.next call (s, rng)) p.1 epoch chunk := by
  obtain ⟨-, hrepeat⟩ : j.calm = true ∧ (call.reannounces = false ∨ j.outstanding = false) := by
    simpa [Journal.next] using hcalm
  have hbroadcast : ∀ ops : List ControlOp,
      Effect.publishNamespace epoch chunk ∉ ops.map Effect.broadcast := by
    intro ops hop
    exact absurd ((Announces.broadcasts ops).quiet _ hop) (by simp [Effect.aboutNamespace])
  by_cases hcall : call.aboutNamespace = true
  · have hannounced := (call.announced hcall s rng).of_ok hrun
    generalize p.1 = s' at hannounced
    cases hannounced with
    | still hrekeyed hsilent hpassed =>
        exact absurd (hsilent.quiet _ hmem) (by simp [Effect.aboutNamespace])
    | again ops found hcall' hrekeyed hticket hchunk =>
        have hnone : j.outstanding = false := hrepeat.resolve_left (by simp [hcall'])
        obtain ⟨hof, htold⟩ := h.matched hnone hticket
        simp only [List.mem_append, hbroadcast, false_or, List.mem_singleton,
          Effect.publishNamespace.injEq] at hmem
        obtain ⟨rfl, rfl⟩ := hmem
        refine ⟨s.namespaceTicket, hchunk, List.mem_append_right _ htold, ?_,
          hrekeyed.namespaceTicket⟩
        rw [hrekeyed.namespaceEpoch]
        exact hof
    | minted epoch' ticket ops found hone hmints hcurrent hcgka hepoch hticket hchunk =>
        simp only [List.mem_append, hbroadcast, false_or, List.mem_cons, List.not_mem_nil,
          or_false, Effect.publishNamespace.injEq, reduceCtorEq] at hmem
        obtain ⟨rfl, rfl⟩ := hmem
        exact ⟨ticket, hchunk, List.mem_append_left _ (by simp [hone]), hepoch, hticket⟩
    | adopted epoch' ticket hone hmints hnewer hcgka hepoch hticket =>
        exact absurd hmem (by simp)
  · obtain ⟨-, hbumps⟩ := (call.advances (by simpa using hcall) s rng).of_ok hrun
    obtain ⟨epoch', heq⟩ := hbumps.rotates _ hmem rfl
    exact absurd heq (by simp)

end Steps

end IrohBeekem

/-! ## A repeated announcement in the window -/

namespace IrohBeekem

open Library WorkspaceState

local instance windowKeyhive : Keyhive := transparentKeyhive

local instance windowBeekem : Beekem := listBeekem

local instance windowLawful : LawfulBeekem := listBeekem_live.toLawfulBeekem

local instance windowLoro : Loro := listLoro

local instance windowPostcard : Postcard := blankPostcard

/-- The founder admits two people, removes the first and is told of the capability
`[5]` it asked for. -/
def rotatedRun : (WorkspaceState × Rng) × Journal :=
  noting [.handle (.addUser 2 102 .viewer "second" none) 0,
      .handle (.addUser 3 103 .viewer "third" none) 0,
      .handle (.removeMember 2) 0, .handle (.namespaceMinted 1 [5]) 0]
    ((sampleWorkspace 1, (1 : Nat)), .empty)

/-- It removes the second, and has not been told of the next capability yet. -/
def waitingRun : (WorkspaceState × Rng) × Journal :=
  noting [.handle (.removeMember 3) 0] rotatedRun

private theorem rotatedRun_recorded : Recorded rotatedRun.1.1 rotatedRun.2 :=
  (Recorded.found create_rootedFounder (found_sampleWorkspace (by decide +kernel))).calls
    (p := (sampleWorkspace 1, (1 : Nat))) _

private theorem waitingRun_recorded : Recorded waitingRun.1.1 waitingRun.2 :=
  rotatedRun_recorded.calls _

/-- The announcements a call makes. -/
def announcements (call : Call) (p : WorkspaceState × Rng) : List (U32 × Chunk OpHash) :=
  match call.run p with
  | .ok effects _ => effects.filterMap fun
      | .publishNamespace epoch chunk => some (epoch, chunk)
      | _ => none
  | .error _ _ => []

private theorem run_of_announcement {call : Call} {p : WorkspaceState × Rng} {epoch : U32}
    {chunk : Chunk OpHash} (h : (epoch, chunk) ∈ announcements call p) :
    ∃ effects p', call.run p = .ok effects p' ∧ .publishNamespace epoch chunk ∈ effects := by
  unfold announcements at h
  cases hrun : call.run p with
  | error err p' =>
      rw [hrun] at h
      exact absurd h List.not_mem_nil
  | ok effects p' =>
      rw [hrun] at h
      obtain ⟨effect, hmem, heq⟩ := List.mem_filterMap.mp h
      refine ⟨effects, p', rfl, ?_⟩
      split at heq
      · next epoch' chunk' =>
          obtain ⟨rfl, rfl⟩ : epoch' = epoch ∧ chunk' = chunk := by simpa using heq
          exact hmem
      · exact absurd heq (by simp)

private theorem exists_announcement (call : Call) (p : WorkspaceState × Rng) (epoch : U32)
    (ticket : Bytes)
    (h : (epoch, ticket) ∈ (announcements call p).map fun a => (a.1, a.2.ciphertext)) :
    ∃ chunk effects p', call.run p = .ok effects p' ∧
      .publishNamespace epoch chunk ∈ effects ∧ chunk.ciphertext = ticket := by
  obtain ⟨⟨epoch', chunk⟩, hmem, heq⟩ := List.mem_map.mp h
  obtain ⟨rfl, rfl⟩ : epoch' = epoch ∧ chunk.ciphertext = ticket := by simpa using heq
  obtain ⟨effects, p', hrun, heffect⟩ := run_of_announcement hmem
  exact ⟨chunk, effects, p', hrun, heffect, rfl⟩

/-- Before the second removal, a resync announces what the node was told. -/
theorem publishNamespace_attested_rotatedRun :
    ∃ chunk effects p, Call.run (.handle .resyncNamespace 0) rotatedRun.1 = .ok effects p ∧
      .publishNamespace 1 chunk ∈ effects ∧
      Attested (rotatedRun.2.next (.handle .resyncNamespace 0) rotatedRun.1) p.1 1 chunk := by
  obtain ⟨chunk, effects, p, hrun, hmem, -⟩ :=
    exists_announcement (.handle .resyncNamespace 0) rotatedRun.1 1 [5] (by decide +kernel)
  exact ⟨chunk, effects, p, hrun, hmem,
    publishNamespace_attested rotatedRun_recorded hrun (by decide +kernel) hmem⟩

/-- After it, a resync announces the old capability under the new generation. -/
theorem publishNamespace_waitingRun_unattested :
    ¬ ∀ (s : WorkspaceState) (j : Journal) (call : Call) (rng : Rng) (effects : List Effect)
        (p : WorkspaceState × Rng) (epoch : U32) (chunk : Chunk OpHash), Recorded s j →
      call.run (s, rng) = .ok effects p → .publishNamespace epoch chunk ∈ effects →
      Attested (j.next call (s, rng)) p.1 epoch chunk := by
  intro h
  obtain ⟨chunk, effects, p, hrun, hmem, htext⟩ :=
    exists_announcement (.handle .resyncNamespace 0) waitingRun.1 2 [5] (by decide +kernel)
  obtain ⟨ticket, ⟨secret, hchunk⟩, htold, -⟩ := h _ _ _ _ _ _ _ _ waitingRun_recorded hrun hmem
  obtain rfl : ticket = [5] := by
    rw [← htext, ← Option.some.inj hchunk]
  have hnot : ((2 : U32), [(5 : UInt8)]) ∉
      (waitingRun.2.next (.handle .resyncNamespace 0) waitingRun.1).told := by decide +kernel
  exact hnot htold

end IrohBeekem
