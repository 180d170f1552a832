import IrohBeekem.State.ListModel

/-!
# Minted operations are broadcast

`Kept` is what a caller relies on: whatever a call minted is in the effects it
returns, and a call that fails has left the operation graph and the members as they
were.  Every call that is safe keeps it.  Leaving mints one removal for each device
and loses those already minted when a later one is refused, so somebody else must
hold a leaf.
-/

set_option linter.unusedSectionVars false

namespace IrohBeekem

open Library CgkaController WorkspaceState

variable [Keyhive] [Beekem] [Loro] [Postcard]

/-- Whatever a call added to the graph is in the effects it returned, unless it had
been delivered to the node; and a failure added nothing. -/
structure Kept (call : Call) (p : WorkspaceState × Rng) : Prop where
  ok : ∀ effects p', call.run p = .ok effects p' →
    ∀ op ∈ graph p'.1.cgka.cgka, op ∉ graph p.1.cgka.cgka →
      (∃ proof, .broadcastOp op proof ∈ effects) ∨
        ∃ a, (a ∈ p.1.cgka.parked ∨ a ∈ call.offered) ∧ a.op = op
  error : ∀ err p', call.run p = .error err p' →
    graph p'.1.cgka.cgka = graph p.1.cgka.cgka ∧
      p'.1.cgka.knownMembers = p.1.cgka.knownMembers ∧
      p'.1.cgka.currentMembers = p.1.cgka.currentMembers

section Calls

variable [LawfulBeekem] {s s' : WorkspaceState} {effects : List Effect}
  {offered : List AuthorizedOp}

theorem Accounted.broadcast (h : Accounted s s' effects offered) {op : ControlOp}
    (hop : op ∈ graph s'.cgka.cgka) (hnew : op ∉ graph s.cgka.cgka) :
    (∃ proof, .broadcastOp op proof ∈ effects) ∨
      ∃ a, (a ∈ s.cgka.parked ∨ a ∈ offered) ∧ a.op = op := by
  obtain ⟨added, hevolves, hadded⟩ := h
  have hmem : op ∈ added := ((hevolves.tree.mem_graph op).mp hop).resolve_left hnew
  exact (hadded op hmem).imp_left fun ⟨proof, hsent⟩ => ⟨proof, mem_sent.mp hsent⟩

/-- A failure that took nothing in left the graph and the members alone. -/
theorem Fails.untouched {safe : Prop} (h : Fails s s' offered safe) (hsafe : safe) :
    graph s'.cgka.cgka = graph s.cgka.cgka ∧ s'.cgka.knownMembers = s.cgka.knownMembers ∧
      s'.cgka.currentMembers = s.cgka.currentMembers := by
  obtain ⟨added, hevolves, hnil⟩ := h.evolves
  obtain rfl := hnil hsafe
  refine ⟨Set.ext fun op => ?_, Finset.ext fun m => ?_, h.current hsafe⟩
  · simp [hevolves.tree.mem_graph op]
  · simp [hevolves.known m]

end Calls

end IrohBeekem

/-! ## A departure that fails halfway -/

namespace IrohBeekem

open Library WorkspaceState

local instance departureKeyhive : Keyhive := transparentKeyhive

local instance departureBeekem : Beekem := listBeekem

local instance departureLawful : LawfulBeekem := listBeekem_live.toLawfulBeekem

local instance departureLoro : Loro := listLoro

local instance departurePostcard : Postcard := blankPostcard

/-- The founder makes user `2` an admin and enrols a device `3` of its own. -/
def sharedRun : WorkspaceState × Rng :=
  runAll [.handle (.addUser 2 102 .admin "second" none) 0,
    .handle (.addDevice 3 103 1 "laptop" none) 0] (sampleWorkspace 1, (1 : Nat))

/-- It then removes the other admin's device. -/
def deserted : WorkspaceState × Rng := runAll [.handle (.removeMember 2) 0] sharedRun

private theorem sharedRun_reachable : Reachable sharedRun.1 := by
  unfold sharedRun
  exact (sampleWorkspace_reachable (by decide +kernel)).calls
    (p := (sampleWorkspace 1, (1 : Nat))) _

private theorem deserted_reachable : Reachable deserted.1 := by
  unfold deserted
  exact sharedRun_reachable.calls _

/-- The members a failed call leaves. -/
def failedMembers (call : Call) (p : WorkspaceState × Rng) : Option (Finset Bytes32) :=
  match call.run p with
  | .ok _ _ => none
  | .error _ p' => some p'.1.cgka.currentMembers

end IrohBeekem
