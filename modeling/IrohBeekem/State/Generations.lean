import IrohBeekem.State.Namespace

/-!
# The order of generations

Generations are totally ordered by their counter and the digest of their capability,
and an announcement is adopted when it is above the generation at hand.  A capability
minted on request is installed by its counter alone.  A `Ledger` notes of a run what
the node processed and what it installed.

`Leads` is the invariant: the generation at hand is above everything processed, and is
one of those while no request is outstanding.  It is kept by every run in which a
capability minted for the current counter is above what was processed before it, so
the order of arrival does not matter there.  Two administrators that rotate at once
break it: whoever hears of the other's capability before its own reply goes back.
-/

set_option linter.unusedSectionVars false

namespace IrohBeekem

open Library CgkaController WorkspaceState

variable [Keyhive] [Beekem] [Loro] [Postcard]

/-! ## The ledger of a run -/

/-- What a run has done to the namespace so far, the latest first. -/
structure Ledger where
  /-- The generation the run began on. -/
  base : NamespaceEpoch
  /-- The generations of the capabilities minted for the node, and announced to it under
  a key it could derive. -/
  processed : List NamespaceEpoch
  /-- The generation at hand after each call that installed one. -/
  installed : List NamespaceEpoch
  /-- Whether a capability was asked for and none has been installed since. -/
  outstanding : Bool

/-- Whether the effects of a call move the node to another replica. -/
def adopts (effects : List Effect) : Bool :=
  effects.any fun
    | .adoptNamespace _ _ => true
    | _ => false

namespace Ledger

/-- The ledger of a run that has not begun. -/
def opening (s : WorkspaceState) : Ledger := ⟨s.namespaceEpoch, [], [], false⟩

/-- The ledger after one more call; a failed one processed nothing. -/
def next (call : Call) (p : WorkspaceState × Rng) (l : Ledger) : Ledger :=
  match call.run p with
  | .ok effects p' =>
      { l with
        processed := (call.told p.1).map (fun x => .of x.1 x.2) ++ l.processed
        installed := (if adopts effects then [p'.1.namespaceEpoch] else []) ++ l.installed
        outstanding := Journal.outstandingAfter l.outstanding effects }
  | .error _ _ => l

def turn : Turn → WorkspaceState → Ledger → Ledger
  | .call call rng, s, l => l.next call (s, rng)
  | .restart _ _, _, l => l

/-- A capability minted on request is for no later generation than the one at hand, and
when it is for that one, nothing above it has been processed. -/
def Orderly (s : WorkspaceState) (l : Ledger) : Call → Prop
  | .handle (.namespaceMinted epoch ticket) _ =>
      epoch ≤ s.namespaceEpoch.epoch ∧
        (epoch = s.namespaceEpoch.epoch →
          ∀ x ∈ l.processed, x.rank ≤ (NamespaceEpoch.of epoch ticket).rank)
  | _ => True

/-- Something processed is not below the generation the run began on. -/
def Covers (l : Ledger) : Prop := ∃ x ∈ l.processed, l.base.rank ≤ x.rank

end Ledger

/-- The runs of a node, with their ledgers, whose turns all meet a condition. -/
def ledgerRuns (ok : Turn → WorkspaceState → Ledger → Prop) :
    Chart WorkspaceState Turn Ledger where
  init s l := (Founded s ∨ Joined s) ∧ l = .opening s
  step := Turn.take
  note := Ledger.turn
  ok := ok

/-- A turn that brings no capability out of order. -/
def inOrder : Turn → WorkspaceState → Ledger → Prop
  | .call call _, s, l => l.Orderly s call
  | .restart _ _, _, _ => True

/-! ## The invariant -/

/-- The generation at hand is above all that was processed, and so was each one
installed when it was. -/
structure Leads (s : WorkspaceState) (l : Ledger) : Prop where
  above : ∀ x ∈ l.processed, x.rank ≤ s.namespaceEpoch.rank
  known : l.outstanding = false → s.namespaceEpoch = l.base ∨ s.namespaceEpoch ∈ l.processed
  installed : ∀ x ∈ l.installed, x ∈ l.processed
  rising : l.installed.Pairwise fun later earlier => earlier.rank ≤ later.rank

section Calls

theorem adopts_quiet {l : List Effect} (h : ∀ e ∈ l, e.aboutNamespace = false) :
    adopts l = false := by
  refine List.any_eq_false.mpr fun e he => ?_
  have hquiet := h e he
  cases e with
  | adoptNamespace epoch ticket => exact absurd hquiet (by simp [Effect.aboutNamespace])
  | _ => exact Bool.false_ne_true

theorem adopts_rotates {l : List Effect}
    (h : ∀ e ∈ l, e.aboutNamespace = true → ∃ epoch, e = .rotateNamespace epoch) :
    adopts l = false := by
  refine List.any_eq_false.mpr fun e he => ?_
  cases e with
  | adoptNamespace epoch ticket =>
      obtain ⟨_, heq⟩ := h _ he rfl
      exact absurd heq (by simp)
  | _ => exact Bool.false_ne_true

theorem adopts_broadcasts (ops : List ControlOp) (l : List Effect) :
    adopts (ops.map Effect.broadcast ++ l) = adopts l := by
  have hops : adopts (ops.map Effect.broadcast) = false :=
    adopts_quiet (Announces.broadcasts ops).quiet
  unfold adopts at hops ⊢
  rw [List.any_append, hops, Bool.false_or]

theorem Call.told_eq_nil {call : Call} (h : call.aboutNamespace = false) (s : WorkspaceState) :
    call.told s = [] := by
  cases call with
  | handle event now =>
      cases event with
      | namespaceMinted epoch ticket =>
          exact absurd h (by simp [Call.aboutNamespace, Event.aboutNamespace])
      | namespaceArrived epoch chunk =>
          exact absurd h (by simp [Call.aboutNamespace, Event.aboutNamespace])
      | _ => rfl
  | onControl msg now =>
      cases msg with
      | namespace_ epoch chunk => exact absurd h (by simp [Call.aboutNamespace])
      | _ => rfl
  | _ => rfl

/-- What the condition says of a capability minted on request. -/
theorem Ledger.Orderly.minted {s : WorkspaceState} {l : Ledger} {call : Call}
    (h : l.Orderly s call) (hmints : call.mints = true) {x : U32 × Bytes}
    (hx : x ∈ call.told s) :
    x.1 ≤ s.namespaceEpoch.epoch ∧ (x.1 = s.namespaceEpoch.epoch →
      ∀ y ∈ l.processed, y.rank ≤ (NamespaceEpoch.of x.1 x.2).rank) := by
  cases call with
  | handle event now =>
      cases event with
      | namespaceMinted epoch ticket =>
          obtain rfl : x = (epoch, ticket) := by simpa [Call.told] using hx
          exact h
      | _ => exact absurd hmints Bool.false_ne_true
  | _ => exact absurd hmints Bool.false_ne_true

theorem NamespaceEpoch.rank_le_of_lt {x y : NamespaceEpoch} (h : x.epoch < y.epoch) :
    x.rank ≤ y.rank :=
  (Prod.Lex.toLex_lt_toLex.mpr (Or.inl h)).le

theorem NamespaceEpoch.rank_injective : Function.Injective NamespaceEpoch.rank := by
  rintro ⟨epoch, digest⟩ ⟨epoch', digest'⟩ h
  obtain ⟨rfl, rfl⟩ : epoch = epoch' ∧ digest = digest' := by
    simpa [NamespaceEpoch.rank] using h
  rfl

/-- A capability passed over in an orderly run is below the generation at hand. -/
theorem Passed.below {s : WorkspaceState} {l : Ledger} {call : Call} {x : U32 × Bytes}
    (h : Passed s call x) (horderly : l.Orderly s call) (hx : x ∈ call.told s) :
    (NamespaceEpoch.of x.1 x.2).rank ≤ s.namespaceEpoch.rank := by
  unfold Passed at h
  by_cases hmints : call.mints = true
  · rw [if_pos hmints] at h
    exact NamespaceEpoch.rank_le_of_lt (lt_of_le_of_ne (horderly.minted hmints hx).1 h)
  · rw [if_neg hmints] at h
    exact h

end Calls

section Steps

variable {s s' : WorkspaceState} {l : Ledger}

/-- A call that installs nothing. -/
theorem Leads.keep (h : Leads s l) {told : List NamespaceEpoch} {outstanding : Bool}
    (hrises : s.namespaceEpoch.rank ≤ s'.namespaceEpoch.rank)
    (hsame : outstanding = false → l.outstanding = false ∧ s'.namespaceEpoch = s.namespaceEpoch)
    (htold : ∀ x ∈ told, x.rank ≤ s.namespaceEpoch.rank) :
    Leads s' { l with processed := told ++ l.processed, outstanding := outstanding } where
  above := by
    intro x hx
    rcases List.mem_append.mp hx with hx | hx
    · exact (htold x hx).trans hrises
    · exact (h.above x hx).trans hrises
  known := by
    intro hnone
    obtain ⟨hbefore, hepoch⟩ := hsame hnone
    rw [hepoch]
    exact (h.known hbefore).imp_right (List.mem_append_right _)
  installed := fun x hx => List.mem_append_right _ (h.installed x hx)
  rising := h.rising

/-- A call that leaves the generation as it was. -/
theorem Leads.stay (h : Leads s l) {told : List NamespaceEpoch} {outstanding : Bool}
    (hepoch : s'.namespaceEpoch = s.namespaceEpoch)
    (hsame : outstanding = false → l.outstanding = false)
    (htold : ∀ x ∈ told, x.rank ≤ s.namespaceEpoch.rank) :
    Leads s' { l with processed := told ++ l.processed, outstanding := outstanding } :=
  h.keep (by rw [hepoch]) (fun hnone => ⟨hsame hnone, hepoch⟩) htold

/-- A call that installs what it was told of, which is above all that was processed. -/
theorem Leads.install (h : Leads s l) {x : NamespaceEpoch} (hepoch : s'.namespaceEpoch = x)
    (htop : ∀ y ∈ l.processed, y.rank ≤ x.rank) :
    Leads s' { l with
      processed := x :: l.processed, installed := x :: l.installed, outstanding := false } where
  above := by
    intro y hy
    rw [hepoch]
    rcases List.mem_cons.mp hy with rfl | hy
    · exact le_rfl
    · exact htop y hy
  known := fun _ => Or.inr (hepoch ▸ List.mem_cons_self)
  installed := by
    intro y hy
    rcases List.mem_cons.mp hy with rfl | hy
    · exact List.mem_cons_self
    · exact List.mem_cons_of_mem _ (h.installed y hy)
  rising := List.pairwise_cons.mpr ⟨fun y hy => htop y (h.installed y hy), h.rising⟩

variable [LawfulBeekem] {call : Call} {rng rng' : Rng} {effects : List Effect}

theorem Ledger.next_ok (hrun : call.run (s, rng) = .ok effects (s', rng')) :
    l.next call (s, rng) =
      { l with
        processed := (call.told s).map (fun x => .of x.1 x.2) ++ l.processed
        installed := (if adopts effects then [s'.namespaceEpoch] else []) ++ l.installed
        outstanding := Journal.outstandingAfter l.outstanding effects } := by
  unfold Ledger.next
  rw [hrun]

theorem Leads.announced (h : Leads s l) (horderly : l.Orderly s call)
    (hrun : call.run (s, rng) = .ok effects (s', rng'))
    (hannounced : Announced s call s' effects) : Leads s' (l.next call (s, rng)) := by
  rw [Ledger.next_ok hrun]
  cases hannounced with
  | still hrekeyed hsilent hpassed =>
      rw [adopts_quiet hsilent.quiet, outstandingAfter_quiet _ hsilent.quiet]
      refine h.stay hrekeyed.namespaceEpoch id ?_
      intro x hx
      obtain ⟨y, hy, rfl⟩ := List.mem_map.mp hx
      exact (hpassed y hy).below horderly hy
  | again ops chunk hcall hrekeyed hticket hchunk =>
      rw [adopts_broadcasts, outstandingAfter_broadcasts, call.told_of_reannounces hcall]
      have hnil : ∀ x ∈ ([] : List NamespaceEpoch), x.rank ≤ s.namespaceEpoch.rank := by simp
      exact h.stay hrekeyed.namespaceEpoch id hnil
  | minted epoch ticket ops chunk htold hmints hcurrent hcgka hepoch hticket hchunk =>
      rw [adopts_broadcasts, outstandingAfter_broadcasts, htold, hepoch]
      refine h.install hepoch ?_
      have hx : (epoch, ticket) ∈ call.told s := by simp [htold]
      exact (horderly.minted hmints hx).2 hcurrent
  | adopted epoch ticket htold hmints hnewer hcgka hepoch hticket =>
      rw [htold, hepoch]
      exact h.install hepoch fun y hy => (h.above y hy).trans hnewer.le

theorem Leads.run (h : Leads s l) (horderly : l.Orderly s call) (rng : Rng) :
    Leads (after call.run (s, rng)).1 (l.next call (s, rng)) := by
  unfold after
  cases hrun : call.run (s, rng) with
  | ok effects p =>
      obtain ⟨s', rng'⟩ := p
      by_cases hcall : call.aboutNamespace = true
      · exact h.announced horderly hrun ((call.announced hcall s rng).of_ok hrun)
      · have hnone : call.aboutNamespace = false := by simpa using hcall
        obtain ⟨-, hbumps⟩ := (call.advances hnone s rng).of_ok hrun
        rw [Ledger.next_ok hrun, adopts_rotates hbumps.rotates, call.told_eq_nil hnone]
        have hnil : ∀ x ∈ ([] : List NamespaceEpoch), x.rank ≤ s.namespaceEpoch.rank := by simp
        refine h.keep hbumps.rises ?_ hnil
        intro hafter
        rcases outstandingAfter_rotates l.outstanding hbumps.rotates with htrue | ⟨hsame, hquiet⟩
        · exact absurd (hafter.symm.trans htrue) Bool.false_ne_true
        · exact ⟨hsame.symm.trans hafter, hbumps.quiet hquiet⟩
  | error e p =>
      have hfails := (call.moves s rng).of_error hrun
      have hnext : l.next call (s, rng) = l := by
        unfold Ledger.next
        rw [hrun]
      have hnil : ∀ x ∈ ([] : List NamespaceEpoch), x.rank ≤ s.namespaceEpoch.rank := by simp
      rw [hnext]
      exact h.stay hfails.namespaceEpoch id hnil

/-- In every orderly run, the generation at hand leads. -/
theorem Leads.of_course (h : (ledgerRuns inOrder).Course s l) : Leads s l := by
  refine h.invariant ?_ ?_
  · rintro s _ ⟨-, rfl⟩
    exact ⟨by simp [Ledger.opening], fun _ => Or.inl rfl, by simp [Ledger.opening], .nil⟩
  · intro s l turn hleads hok
    cases turn with
    | call call rng => exact hleads.run hok rng
    | restart order rng =>
        have hnil : ∀ x ∈ ([] : List NamespaceEpoch), x.rank ≤ s.namespaceEpoch.rank := by simp
        have hsame : ∀ p : WorkspaceState × Rng, p.1.namespaceEpoch = s.namespaceEpoch →
            Leads p.1 l := fun p hepoch => hleads.stay hepoch id hnil
        refine Wp.after (P := fun p : WorkspaceState × Rng => Leads p.1 l)
          ((restart_spec order s rng).mono ?_ ?_)
        · exact fun _ p h => hsame p h.namespaceEpoch
        · exact fun _ p h => hsame p (by rw [h])

end Steps

/-! ## Two nodes -/

section Convergence

variable [LawfulBeekem] {s s' : WorkspaceState} {l l' : Ledger}

/-- The generation at hand is the highest of those processed. -/
structure Highest (s : WorkspaceState) (l : Ledger) : Prop where
  mem : s.namespaceEpoch ∈ l.processed
  above : ∀ x ∈ l.processed, x.rank ≤ s.namespaceEpoch.rank

theorem Leads.highest (h : Leads s l) (hsettled : l.outstanding = false) (hcovers : l.Covers) :
    Highest s l := by
  refine ⟨?_, h.above⟩
  rcases h.known hsettled with hbase | hmem
  · obtain ⟨x, hx, hle⟩ := hcovers
    have heq : x.rank = s.namespaceEpoch.rank := le_antisymm (h.above x hx) (hbase ▸ hle)
    rwa [← NamespaceEpoch.rank_injective heq]
  · exact hmem

/-- In every two runs whose capabilities are minted in order, what each node installs
rises, and two nodes that await nothing and have processed the same are on the same
generation, the highest of those. -/
theorem generations_converge (h : (ledgerRuns inOrder).Course s l)
    (h' : (ledgerRuns inOrder).Course s' l') :
    l.installed.Pairwise (fun later earlier => earlier.rank ≤ later.rank) ∧
      (l.outstanding = false → l'.outstanding = false →
        (∀ x, x ∈ l.processed ↔ x ∈ l'.processed) → l.Covers → l'.Covers →
        Highest s l ∧ s'.namespaceEpoch = s.namespaceEpoch) := by
  refine ⟨(Leads.of_course h).rising, fun hsettled hsettled' hsame hcovers hcovers' => ?_⟩
  have hhigh := (Leads.of_course h).highest hsettled hcovers
  have hhigh' := (Leads.of_course h').highest hsettled' hcovers'
  refine ⟨hhigh, NamespaceEpoch.rank_injective (le_antisymm ?_ ?_)⟩
  · exact hhigh.above _ ((hsame _).mpr hhigh'.mem)
  · exact hhigh'.above _ ((hsame _).mp hhigh.mem)

end Convergence

end IrohBeekem

/-! ## Rotations that cross -/

namespace IrohBeekem

open Library WorkspaceState

local instance crossedKeyhive : Keyhive := transparentKeyhive

local instance crossedBeekem : Beekem := listBeekem

local instance crossedLawful : LawfulBeekem := listBeekem_live.toLawfulBeekem

local instance crossedLoro : Loro := listLoro

local instance crossedPostcard : Postcard := blankPostcard

/-- The founder admits an administrator and two viewers. -/
def admissions : List Turn :=
  [.call (.handle (.addUser 2 102 .admin "second" none) 0) (1 : Nat),
    .call (.handle (.addUser 3 103 .viewer "third" none) 0) (3 : Nat),
    .call (.handle (.addUser 4 104 .viewer "fourth" none) 0) (5 : Nat)]

/-- The operations and the announcements of some calls, as they reach a peer. -/
def relayed : List Call → WorkspaceState × Rng → List Turn
  | [], _ => []
  | call :: rest, p =>
      (sentBy call p).map (fun x => .call (.handle (.controlOp ⟨x.1, x.2⟩) 0) (0 : Nat)) ++
        (announcements call p).map
          (fun x => .call (.handle (.namespaceArrived x.1 x.2) 0) (0 : Nat)) ++
        relayed rest (after call.run p)

private theorem relayed_inOrder {calls : List Call} {p : WorkspaceState × Rng} :
    ∀ turn ∈ relayed calls p, ∀ s l, inOrder turn s l := by
  induction calls generalizing p with
  | nil => exact fun _ h => absurd h List.not_mem_nil
  | cons call rest ih =>
      intro turn hturn
      rcases List.mem_append.mp hturn with hturn | hturn
      · rcases List.mem_append.mp hturn with hturn | hturn
        · obtain ⟨x, -, rfl⟩ := List.mem_map.mp hturn
          exact fun _ _ => trivial
        · obtain ⟨x, -, rfl⟩ := List.mem_map.mp hturn
          exact fun _ _ => trivial
      · exact ih turn hturn

/-- The founder, once they are in. -/
@[irreducible] def staffed : WorkspaceState :=
  ((ledgerRuns inOrder).takeAll admissions (sampleWorkspace 1, .opening (sampleWorkspace 1))).1

/-- The other administrator has joined. -/
@[irreducible] def partner : WorkspaceState := joinedWorkspace staffed 2 102

/-- The founder removes the first viewer and is told of the capability `[5]`. -/
@[irreducible] def rotating : WorkspaceState × Ledger :=
  (ledgerRuns inOrder).takeAll
    (admissions ++ [.call (.handle (.removeMember 3) 0) (7 : Nat),
      .call (.handle (.namespaceMinted 1 [5]) 0) (8 : Nat)])
    (sampleWorkspace 1, .opening (sampleWorkspace 1))

/-- The partner hears of it. -/
@[irreducible] def following : WorkspaceState × Ledger :=
  (ledgerRuns inOrder).takeAll
    (relayed [.handle (.removeMember 3) 0, .handle (.namespaceMinted 1 [5]) 0]
      (staffed, (7 : Nat)))
    (partner, .opening partner)

/-- The partner removes the other viewer meanwhile, its capability is `[9]`, and the
founder hears of it before its own is there. -/
@[irreducible] def crossed : WorkspaceState × Ledger :=
  (ledgerRuns fun _ _ _ => True).takeAll
    (admissions ++ [.call (.handle (.removeMember 3) 0) (7 : Nat)] ++
      relayed [.handle (.removeMember 4) 0, .handle (.namespaceMinted 1 [9]) 0]
        (partner, (100 : Nat)) ++
      [.call (.handle (.namespaceMinted 1 [5]) 0) (8 : Nat)])
    (sampleWorkspace 1, .opening (sampleWorkspace 1))

private theorem opening_course {ok : Turn → WorkspaceState → Ledger → Prop} :
    (ledgerRuns ok).Course (sampleWorkspace 1) (.opening (sampleWorkspace 1)) :=
  .start ⟨Or.inl (sampleWorkspace_founded (by decide +kernel)), rfl⟩

private theorem rotating_course : (ledgerRuns inOrder).Course rotating.1 rotating.2 := by
  unfold rotating
  refine opening_course.takeAll (r := (sampleWorkspace 1, Ledger.opening (sampleWorkspace 1))) _ ?_
  refine ⟨trivial, trivial, trivial, trivial, ⟨by decide +kernel, fun _ => ?_⟩, trivial⟩
  decide +kernel

private theorem following_course : (ledgerRuns inOrder).Course following.1 following.2 := by
  have hjoined : Joined partner := by
    unfold partner
    exact joined_joinedWorkspace (by decide +kernel)
  have hstart : (ledgerRuns inOrder).Course partner (.opening partner) :=
    .start ⟨Or.inr hjoined, rfl⟩
  unfold following
  exact hstart.takeAll (r := (partner, Ledger.opening partner)) _
    (Chart.allOk_of_forall relayed_inOrder _)

/-- A rotation that nothing crosses takes the partner along. -/
theorem generations_converge_rotating :
    Highest rotating.1 rotating.2 ∧
      following.1.namespaceEpoch = rotating.1.namespaceEpoch := by
  have hsame : following.2.processed = rotating.2.processed := by decide +kernel
  have hone : rotating.2.processed = [NamespaceEpoch.of 1 [5]] := by decide +kernel
  have hbase : rotating.2.base = .initial ∧ following.2.base = .initial := by decide +kernel
  have hcovers : rotating.2.Covers := by
    refine ⟨.of 1 [5], by simp [hone], ?_⟩
    rw [hbase.1]
    exact NamespaceEpoch.rank_le_of_lt (by decide)
  have hcovers' : following.2.Covers := by
    refine ⟨.of 1 [5], by simp [hsame, hone], ?_⟩
    rw [hbase.2]
    exact NamespaceEpoch.rank_le_of_lt (by decide)
  exact (generations_converge rotating_course following_course).2 (by decide +kernel)
    (by decide +kernel) (fun x => by rw [hsame]) hcovers hcovers'

/-- One that crosses another takes the founder back from the other's capability to its
own. -/
theorem generations_crossed_fall :
    ¬ ∀ (s : WorkspaceState) (l : Ledger), (ledgerRuns fun _ _ _ => True).Course s l →
      l.installed.Pairwise fun later earlier => earlier.rank ≤ later.rank := by
  intro h
  have hcourse : (ledgerRuns fun _ _ _ => True).Course crossed.1 crossed.2 := by
    unfold crossed
    exact opening_course.takeAll (r := (sampleWorkspace 1, Ledger.opening (sampleWorkspace 1))) _
      (Chart.allOk_of_forall (fun _ _ _ _ => trivial) _)
  have hinstalled : crossed.2.installed = [.of 1 [5], .of 1 [9]] := by decide +kernel
  have hrises := h crossed.1 crossed.2 hcourse
  rw [hinstalled] at hrises
  have hle := List.rel_of_pairwise_cons hrises (List.mem_singleton_self _)
  exact absurd hle (by decide +kernel)

end IrohBeekem
