import IrohBeekem.State.CarbonModel
import IrohBeekem.State.Members

/-!
# Who may connect

A node accepts connections from the endpoints on its roster.  The roster has an entry for
each workspace: the set `refreshRoster` derives from the workspace's state, which replaces
the one before, and the set that was let in while the workspace was set up, which nothing
shrinks.  A joiner lets in its inviter; a node that opens a workspace again lets in
everybody its snapshot lists, and they stay whatever becomes of their membership
(`opened_again_admits_removed`).  Where that does not happen, a roster that was just
refreshed admits members and inviters only (`refreshed_roster_admits`).
-/

set_option linter.unusedSectionVars false

namespace IrohBeekem

open Library

variable [Keyhive]

/-! ## Admission lists -/

/-- Whom one workspace lets in. -/
structure Allowed where
  /-- Derived from the manifest and the membership. -/
  derived : BTreeSet Bytes32
  /-- Let in unconditionally, and never taken out. -/
  bootstrap : BTreeSet Bytes32

/-- The admission lists of a node, by tree. -/
abbrev Roster := BTreeMap Bytes32 Allowed

namespace Roster

/-- The entry of a workspace, empty if there is none. -/
def entry (workspace : Bytes32) (roster : Roster) : Allowed :=
  (roster.get? workspace).getD ⟨.empty, .empty⟩

/-- Replace a workspace's derived set; what is no endpoint id is dropped. -/
def setDerived (workspace : Bytes32) (endpoints : List Bytes32) (roster : Roster) : Roster :=
  roster.set workspace { roster.entry workspace with
    derived := BTreeSet.ofList (endpoints.filter fun bytes => Keyhive.isPoint bytes) }

/-- Let one endpoint in, while a workspace is set up. -/
def addBootstrap (workspace endpoint : Bytes32) (roster : Roster) : Roster :=
  roster.set workspace { roster.entry workspace with
    bootstrap := (roster.entry workspace).bootstrap.insert endpoint }

/-- Drop a workspace's entry. -/
def forget (workspace : Bytes32) (roster : Roster) : Roster := roster.erase workspace

/-- Whether a connection from this peer is accepted: some workspace lets it in. -/
def admits (roster : Roster) (peer : Bytes32) : Bool :=
  roster.toList.any fun item => item.2.derived.contains peer || item.2.bootstrap.contains peer

variable {roster : Roster} {workspace workspace' endpoint peer : Bytes32}

theorem admits_iff : roster.admits peer = true ↔
    ∃ workspace allowed, roster.get? workspace = some allowed ∧
      (peer ∈ allowed.derived ∨ peer ∈ allowed.bootstrap) := by
  unfold admits
  rw [List.any_eq_true]
  simp only [Bool.or_eq_true, BTreeSet.contains_iff]
  constructor
  · rintro ⟨⟨workspace, allowed⟩, hmem, hpeer⟩
    exact ⟨workspace, allowed, BTreeMap.get?_eq_some.mpr hmem, hpeer⟩
  · rintro ⟨workspace, allowed, hget, hpeer⟩
    exact ⟨(workspace, allowed), BTreeMap.get?_eq_some.mp hget, hpeer⟩

theorem get?_setDerived (endpoints : List Bytes32) :
    (setDerived workspace endpoints roster).get? workspace' =
      if workspace' = workspace then some
        ⟨BTreeSet.ofList (endpoints.filter fun bytes => Keyhive.isPoint bytes),
          (roster.entry workspace).bootstrap⟩
      else roster.get? workspace' := BTreeMap.get?_set

theorem get?_addBootstrap :
    (addBootstrap workspace endpoint roster).get? workspace' =
      if workspace' = workspace then some
        ⟨(roster.entry workspace).derived, (roster.entry workspace).bootstrap.insert endpoint⟩
      else roster.get? workspace' := BTreeMap.get?_set

theorem entry_eq {allowed : Allowed} (h : roster.get? workspace = some allowed) :
    roster.entry workspace = allowed := by
  unfold entry
  rw [h, Option.getD_some]

theorem entry_of_get? {roster' : Roster}
    (h : roster'.get? workspace = roster.get? workspace) :
    roster'.entry workspace = roster.entry workspace := by
  unfold entry
  rw [h]

theorem bootstrap_setDerived (endpoints : List Bytes32) :
    ((setDerived workspace endpoints roster).entry workspace').bootstrap =
      (roster.entry workspace').bootstrap := by
  unfold entry
  rw [get?_setDerived]
  split_ifs with h
  · rw [h]
    rfl
  · rfl

theorem entry_addBootstrap (peers : List Bytes32) :
    ((peers.foldl (fun roster peer => addBootstrap workspace peer roster) roster).entry
        workspace).derived = (roster.entry workspace).derived ∧
      ∀ peer, peer ∈ ((peers.foldl (fun roster peer => addBootstrap workspace peer roster)
          roster).entry workspace).bootstrap ↔
        peer ∈ peers ∨ peer ∈ (roster.entry workspace).bootstrap := by
  induction peers generalizing roster with
  | nil => simp
  | cons first rest ih =>
      have hentry : (addBootstrap workspace first roster).entry workspace =
          ⟨(roster.entry workspace).derived, (roster.entry workspace).bootstrap.insert first⟩ :=
        entry_eq (by rw [get?_addBootstrap, if_pos rfl])
      obtain ⟨hderived, hbootstrap⟩ := @ih (addBootstrap workspace first roster)
      rw [List.foldl_cons]
      refine ⟨by rw [hderived, hentry], fun peer => ?_⟩
      rw [hbootstrap, hentry, BTreeSet.mem_insert, List.mem_cons, or_assoc]
      exact or_left_comm

theorem get?_foldl_addBootstrap (peers : List Bytes32) (h : workspace' ≠ workspace) :
    (peers.foldl (fun roster peer => addBootstrap workspace peer roster) roster).get?
      workspace' = roster.get? workspace' := by
  induction peers generalizing roster with
  | nil => rfl
  | cons first rest ih =>
      rw [List.foldl_cons, ih, get?_addBootstrap, if_neg h]

end Roster

/-! ## Nodes -/

section Nodes

variable [Beekem] [Loro] [Postcard]

/-- A workspace a node holds. -/
structure Held where
  state : WorkspaceState
  /-- The snapshot on disk. -/
  record : Option WorkspaceSnapshot
  /-- Who is named in the invites by which the node joined it. -/
  inviters : List Bytes32

/-- A node, with its endpoint id, its admission lists and its workspaces by tree. -/
structure Node where
  endpointId : Bytes32
  roster : Roster
  workspaces : BTreeMap Bytes32 Held

/-- How far setting a workspace up gets: the author of its entries is imported, its topic
subscribed to, its data pump started. -/
inductive Assembly where
  | authorRefused
  | topicRefused
  | pumpRefused
  | assembled
  deriving DecidableEq

/-- What the outside has to say while a workspace is set up. -/
structure Setup where
  author : Bytes32
  now : UnixSeconds
  rng : Rng
  order : HashOrder
  outcome : Assembly

namespace Node

/-- `persist`: a state that cannot be exported leaves the snapshot as it was. -/
def persist (order : HashOrder) (held : Held) : Held :=
  match held.state.snapshot order with
  | .ok snapshot => { held with record := some snapshot }
  | .error _ => held

/-- `refresh_roster`: derive a workspace's set anew. -/
def refreshRoster (workspace : Bytes32) (n : Node) : Node :=
  match n.workspaces.get? workspace with
  | some held => { n with roster := n.roster.setDerived workspace held.state.roster }
  | none => n

/-- The state once it has announced its author and its address. -/
def announced (n : Node) (setup : Setup) (s : WorkspaceState) : WorkspaceState :=
  (runAll [.handle (.announceAuthor setup.author) setup.now,
    .handle (.announceEndpoint n.endpointId) setup.now] (s, setup.rng)).1

/-- `Workspace::assemble`, as far as it gets. -/
def assemble (workspace : Bytes32) (held : Held) (bootstrap : List Bytes32) (setup : Setup)
    (n : Node) : Node :=
  let roster := bootstrap.foldl (fun roster peer => roster.addBootstrap workspace peer) n.roster
  let s := n.announced setup held.state
  match setup.outcome with
  | .authorRefused => n
  | .topicRefused => { n with roster := roster }
  | .pumpRefused => { n with roster := roster.setDerived workspace s.roster }
  | .assembled =>
      { n with
        roster := roster.setDerived workspace s.roster
        workspaces := n.workspaces.set workspace (persist setup.order { held with state := s }) }

/-- Who invited this node into a workspace so far. -/
def inviters (n : Node) (workspace : Bytes32) : List Bytes32 :=
  ((n.workspaces.get? workspace).map Held.inviters).getD []

/-- The peers `Workspace::open` reconnects to: the other endpoints on the roster of the state
it has read back. -/
def knownPeers (n : Node) (s : WorkspaceState) : List Bytes32 :=
  (s.roster.filter fun endpoint => endpoint ≠ n.endpointId).filter fun bytes =>
    Keyhive.isPoint bytes

/-- The state `Workspace::open` resumes from, if there is a snapshot of this tree that belongs
to this identity. -/
def resume (n : Node) (workspace identity : Bytes32) : Option WorkspaceState := do
  let held ← n.workspaces.get? workspace
  let record ← held.record
  let s ← (WorkspaceState.fromSnapshot record).toOption
  if s.memberId = identity ∧ s.cgka.treeId = workspace then some s else none

/-- The snapshot of a workspace, if there is one. -/
def file (n : Node) (workspace : Bytes32) : Option WorkspaceSnapshot :=
  (n.workspaces.get? workspace).bind Held.record

/-- `Workspace::create`, from the founded state on. -/
def create (workspace : Bytes32) (s : WorkspaceState) (setup : Setup) (n : Node) : Node :=
  n.assemble workspace ⟨s, n.file workspace, n.inviters workspace⟩ [] setup

/-- `Workspace::join`, from the joined state on. -/
def join (workspace : Bytes32) (s : WorkspaceState) (inviter : Bytes32) (setup : Setup)
    (n : Node) : Node :=
  n.assemble workspace ⟨s, n.file workspace, inviter :: n.inviters workspace⟩ [inviter] setup

/-- `Workspace::open`. -/
def reopen (workspace identity : Bytes32) (setup : Setup) (n : Node) : Node :=
  match n.resume workspace identity with
  | some s =>
      n.assemble workspace ⟨s, n.file workspace, n.inviters workspace⟩ (n.knownPeers s) setup
  | none => n

/-- `Workspace::delete`, once the replica is dropped: whether the snapshot could be removed
decides whether the node still holds the workspace. -/
def delete (workspace : Bytes32) (removed : Bool) (n : Node) : Node :=
  { n with
    roster := n.roster.forget workspace
    workspaces := if removed then n.workspaces.erase workspace else n.workspaces }

/-- One workspace's state changes, and nothing is refreshed. -/
def modify (workspace : Bytes32) (f : Held → Held) (n : Node) : Node :=
  match n.workspaces.get? workspace with
  | some held => { n with workspaces := n.workspaces.set workspace (f held) }
  | none => n

/-- The process ends: what is not on disk is lost. -/
def exit (n : Node) : Node :=
  { n with
    roster := .empty
    workspaces := n.workspaces.filter fun item => item.2.record.isSome }

end Node

/-! ## Runs of a node -/

/-- What happens on a node. -/
inductive NodeStep where
  | create (workspace : Bytes32) (s : WorkspaceState) (setup : Setup)
  | join (workspace : Bytes32) (s : WorkspaceState) (inviter : Bytes32) (setup : Setup)
  | reopen (workspace identity : Bytes32) (setup : Setup)
  | turn (workspace : Bytes32) (next : Turn)
  | persist (workspace : Bytes32) (order : HashOrder)
  | refresh (workspace : Bytes32)
  /-- A refresh that had read the state before installs what it read. -/
  | overtaken (workspace : Bytes32) (endpoints : List Bytes32)
  | delete (workspace : Bytes32) (removed : Bool)
  | exit

namespace NodeStep

def apply : NodeStep → Node → Node
  | .create workspace s setup, n => n.create workspace s setup
  | .join workspace s inviter setup, n => n.join workspace s inviter setup
  | .reopen workspace identity setup, n => n.reopen workspace identity setup
  | .turn workspace next, n =>
      n.modify workspace fun held => { held with state := next.take held.state }
  | .persist workspace order, n => n.modify workspace (Node.persist order)
  | .refresh workspace, n => n.refreshRoster workspace
  | .overtaken workspace endpoints, n =>
      { n with roster := n.roster.setDerived workspace endpoints }
  | .delete workspace removed, n => n.delete workspace removed
  | .exit, n => n.exit

/-- Workspaces are set up from a state that was founded or joined. -/
def Proper : NodeStep → Prop
  | .create workspace s _ => Founded s ∧ s.cgka.treeId = workspace
  | .join workspace s _ _ => Joined s ∧ s.cgka.treeId = workspace
  | _ => True

/-- A workspace that is opened again finds no peer but its inviters; one that was let in or
derived is not given up before it is set up; and no refresh is still under way when its
workspace is deleted. -/
def Confined (n : Node) : NodeStep → Prop
  | .create _ _ setup => setup.outcome ≠ .pumpRefused
  | .join _ _ _ setup => setup.outcome ≠ .topicRefused ∧ setup.outcome ≠ .pumpRefused
  | .reopen workspace identity _ => ∀ s, n.resume workspace identity = some s →
      ∀ peer ∈ n.knownPeers s, peer ∈ n.inviters workspace
  | .overtaken workspace _ => (n.workspaces.get? workspace).isSome
  | _ => True

end NodeStep

/-- The runs of a node, from when it holds no workspace, whose steps meet a condition. -/
def nodeRuns (ok : NodeStep → Node → Prop) : Chart Node NodeStep Unit where
  init n _ := n.roster = .empty ∧ n.workspaces = .empty
  step step n := step.apply n
  note _ _ _ := ()
  ok step n _ := step.Proper ∧ ok step n

/-- Every derived set is what the workspace's state says now. -/
def Node.Refreshed (n : Node) : Prop :=
  ∀ workspace held allowed, n.workspaces.get? workspace = some held →
    n.roster.get? workspace = some allowed →
      allowed.derived = BTreeSet.ofList (held.state.roster.filter fun bytes => Keyhive.isPoint bytes)

/-! ## Who was let in while a workspace was set up -/

/-- Only held workspaces have an entry, and only inviters were let in unconditionally. -/
structure Node.Kept (n : Node) : Prop where
  held : ∀ workspace, (n.roster.get? workspace).isSome → (n.workspaces.get? workspace).isSome
  invited : ∀ workspace, ∀ peer ∈ (n.roster.entry workspace).bootstrap,
    peer ∈ n.inviters workspace

section Kept

variable {n : Node} {workspace workspace' : Bytes32}

theorem Node.inviters_eq {held : Held} (h : n.workspaces.get? workspace = some held) :
    n.inviters workspace = held.inviters := by
  unfold Node.inviters
  rw [h]
  rfl

@[simp] theorem Node.persist_inviters (order : HashOrder) (held : Held) :
    (Node.persist order held).inviters = held.inviters := by
  unfold Node.persist
  cases held.state.snapshot order with
  | ok snapshot => rfl
  | error err => rfl

/-- A workspace that is set up with these peers as bootstrap, by these inviters. -/
theorem Node.Kept.assemble (h : n.Kept) (held : Held) {peers : List Bytes32} (setup : Setup)
    (hpeers : ∀ peer ∈ peers, peer ∈ held.inviters)
    (hbefore : ∀ peer ∈ n.inviters workspace, peer ∈ held.inviters)
    (hkept : setup.outcome = .authorRefused ∨ setup.outcome = .assembled ∨
      setup.outcome = .topicRefused ∧ peers = [] ∨
      (n.workspaces.get? workspace).isSome ∧ held.inviters = n.inviters workspace) :
    (n.assemble workspace held peers setup).Kept := by
  let admitted := peers.foldl (fun roster peer => roster.addBootstrap workspace peer) n.roster
  have hinviters : ∀ peer ∈ (admitted.entry workspace).bootstrap, peer ∈ held.inviters := by
    intro peer hpeer
    rcases ((Roster.entry_addBootstrap peers).2 peer).mp hpeer with hnew | hold
    · exact hpeers peer hnew
    · exact hbefore peer (h.invited workspace peer hold)
  have hothers : ∀ other, other ≠ workspace → admitted.get? other = n.roster.get? other :=
    fun other hother => Roster.get?_foldl_addBootstrap peers hother
  -- a workspace that is held already keeps its inviters, whatever becomes of the attempt
  have hrecorded : (n.workspaces.get? workspace).isSome → held.inviters = n.inviters workspace →
      ∀ roster : Roster, (∀ other, other ≠ workspace → roster.get? other = n.roster.get? other) →
        (∀ other, (roster.entry other).bootstrap = (admitted.entry other).bootstrap) →
          Node.Kept { n with roster := roster } := by
    intro hheld hsame roster hget hbootstrap
    refine ⟨fun other hother => ?_, fun other peer hpeer => ?_⟩
    · by_cases heq : other = workspace
      · rw [heq]
        exact hheld
      · refine h.held other ?_
        rw [← hget other heq]
        exact hother
    · rw [hbootstrap] at hpeer
      by_cases heq : other = workspace
      · rw [heq] at hpeer ⊢
        change peer ∈ n.inviters workspace
        rw [← hsame]
        exact hinviters peer hpeer
      · rw [Roster.entry_of_get? (hothers other heq)] at hpeer
        exact h.invited other peer hpeer
  have hderived : ∀ endpoints other, other ≠ workspace →
      (admitted.setDerived workspace endpoints).get? other = n.roster.get? other := by
    intro endpoints other hother
    rw [Roster.get?_setDerived, if_neg hother]
    exact hothers other hother
  unfold Node.assemble
  cases houtcome : setup.outcome with
  | authorRefused => exact h
  | topicRefused =>
      rw [houtcome] at hkept
      rcases hkept with hno | hno | ⟨-, rfl⟩ | ⟨hheld, hsame⟩
      · exact absurd hno (by decide)
      · exact absurd hno (by decide)
      · exact h
      · exact hrecorded hheld hsame admitted hothers fun _ => rfl
  | pumpRefused =>
      rw [houtcome] at hkept
      rcases hkept with hno | hno | ⟨hno, -⟩ | ⟨hheld, hsame⟩
      · exact absurd hno (by decide)
      · exact absurd hno (by decide)
      · exact absurd hno (by decide)
      · exact hrecorded hheld hsame _ (hderived _) fun other => Roster.bootstrap_setDerived _
  | assembled =>
      have hset : ∀ other, (n.workspaces.set workspace (Node.persist setup.order
          { held with state := n.announced setup held.state })).get? other =
            if other = workspace then some (Node.persist setup.order
              { held with state := n.announced setup held.state })
            else n.workspaces.get? other := fun other => BTreeMap.get?_set
      refine ⟨fun other hother => ?_, fun other peer hpeer => ?_⟩
      · change ((n.workspaces.set workspace _).get? other).isSome
        rw [hset]
        split_ifs with heq
        · rfl
        · refine h.held other ?_
          rw [← hderived (n.announced setup held.state).roster other heq]
          exact hother
      · change peer ∈ (((n.workspaces.set workspace _).get? other).map Held.inviters).getD []
        change peer ∈ ((admitted.setDerived workspace _).entry other).bootstrap at hpeer
        rw [Roster.bootstrap_setDerived] at hpeer
        rw [hset]
        split_ifs with heq
        · rw [heq] at hpeer
          simpa using hinviters peer hpeer
        · rw [Roster.entry_of_get? (hothers other heq)] at hpeer
          exact h.invited other peer hpeer

theorem Node.Kept.modify (h : n.Kept) {f : Held → Held}
    (hf : ∀ held, (f held).inviters = held.inviters) : (n.modify workspace f).Kept := by
  unfold Node.modify
  cases hget : n.workspaces.get? workspace with
  | none => exact h
  | some held =>
      have hset : ∀ other, (n.workspaces.set workspace (f held)).get? other =
          if other = workspace then some (f held) else n.workspaces.get? other :=
        fun other => BTreeMap.get?_set
      refine ⟨fun other hother => ?_, fun other peer hpeer => ?_⟩
      · change ((n.workspaces.set workspace (f held)).get? other).isSome
        rw [hset]
        split_ifs
        · rfl
        · exact h.held other hother
      · have hinvited := h.invited other peer hpeer
        change peer ∈ (((n.workspaces.set workspace (f held)).get? other).map
          Held.inviters).getD []
        rw [hset]
        split_ifs with heq
        · rw [heq, Node.inviters_eq hget] at hinvited
          simpa [hf held] using hinvited
        · exact hinvited

/-- Installing a derived set for a workspace that is held. -/
theorem Node.Kept.setDerived (h : n.Kept) (hheld : (n.workspaces.get? workspace).isSome)
    (endpoints : List Bytes32) :
    Node.Kept { n with roster := n.roster.setDerived workspace endpoints } := by
  refine ⟨fun other hother => ?_, fun other peer hpeer => ?_⟩
  · by_cases heq : other = workspace
    · rw [heq]
      exact hheld
    · refine h.held other ?_
      change ((n.roster.setDerived workspace endpoints).get? other).isSome at hother
      rwa [Roster.get?_setDerived, if_neg heq] at hother
  · change peer ∈ ((n.roster.setDerived workspace endpoints).entry other).bootstrap at hpeer
    rw [Roster.bootstrap_setDerived] at hpeer
    exact h.invited other peer hpeer

theorem Node.Kept.delete (h : n.Kept) (removed : Bool) : (n.delete workspace removed).Kept := by
  have hget : ∀ other, (n.roster.forget workspace).get? other =
      if other = workspace then none else n.roster.get? other := fun other => BTreeMap.get?_erase
  have hrest : ∀ other, other ≠ workspace →
      (n.delete workspace removed).workspaces.get? other = n.workspaces.get? other := by
    intro other hother
    unfold Node.delete
    dsimp only
    split_ifs
    · exact BTreeMap.get?_erase.trans (if_neg hother)
    · rfl
  refine ⟨fun other hother => ?_, fun other peer hpeer => ?_⟩
  · change ((n.roster.forget workspace).get? other).isSome at hother
    rw [hget] at hother
    split_ifs at hother with heq
    · simp at hother
    · rw [hrest other heq]
      exact h.held other hother
  · change peer ∈ ((n.roster.forget workspace).entry other).bootstrap at hpeer
    by_cases heq : other = workspace
    · have hnone : (n.roster.forget workspace).entry other = ⟨.empty, .empty⟩ := by
        unfold Roster.entry
        rw [hget, if_pos heq]
        rfl
      rw [hnone] at hpeer
      exact absurd hpeer (Keyed.not_mem_empty _)
    · rw [Roster.entry_of_get? ((hget other).trans (if_neg heq))] at hpeer
      have hinvited := h.invited other peer hpeer
      unfold Node.inviters at hinvited ⊢
      rw [hrest other heq]
      exact hinvited

/-- Every confined step keeps to it. -/
theorem NodeStep.kept (step : NodeStep) (h : n.Kept) (hok : step.Confined n) :
    (step.apply n).Kept := by
  cases step with
  | create workspace s setup =>
      refine h.assemble _ setup (by simp) (fun _ hpeer => hpeer) ?_
      cases houtcome : setup.outcome with
      | authorRefused => exact Or.inl rfl
      | topicRefused => exact Or.inr (Or.inr (Or.inl ⟨rfl, rfl⟩))
      | pumpRefused => exact absurd houtcome hok
      | assembled => exact Or.inr (Or.inl rfl)
  | join workspace s inviter setup =>
      refine h.assemble _ setup (fun peer hpeer => ?_) (fun peer hpeer => ?_) ?_
      · rw [List.mem_singleton.mp hpeer]
        exact List.mem_cons_self
      · exact List.mem_cons_of_mem _ hpeer
      · cases houtcome : setup.outcome with
        | authorRefused => exact Or.inl rfl
        | topicRefused => exact absurd houtcome hok.1
        | pumpRefused => exact absurd houtcome hok.2
        | assembled => exact Or.inr (Or.inl rfl)
  | reopen workspace identity setup =>
      change (n.reopen workspace identity setup).Kept
      unfold Node.reopen
      cases hresume : n.resume workspace identity with
      | none => exact h
      | some s =>
          have hheld : (n.workspaces.get? workspace).isSome := by
            unfold Node.resume at hresume
            cases hget : n.workspaces.get? workspace with
            | none =>
                rw [hget] at hresume
                exact absurd hresume (by simp)
            | some held => rfl
          exact h.assemble _ setup (hok s hresume) (fun _ hpeer => hpeer)
            (Or.inr (Or.inr (Or.inr ⟨hheld, rfl⟩)))
  | turn workspace next => exact h.modify fun _ => rfl
  | persist workspace order => exact h.modify fun held => Node.persist_inviters order held
  | refresh workspace =>
      change (n.refreshRoster workspace).Kept
      unfold Node.refreshRoster
      cases hget : n.workspaces.get? workspace with
      | none => exact h
      | some held => exact h.setDerived (by rw [hget]; rfl) _
  | overtaken workspace endpoints => exact h.setDerived hok endpoints
  | delete workspace removed => exact h.delete removed
  | exit =>
      refine ⟨fun other hother => ?_, fun other peer hpeer => ?_⟩
      · exact absurd hother (by simp [NodeStep.apply, Node.exit])
      · exact absurd hpeer (Keyed.not_mem_empty _)

/-- In every run whose steps are confined, a roster that was just refreshed admits only
members of workspaces the node holds and those who invited it into them; and neither
refreshing nor deleting a workspace touches what another lets in. -/
theorem refreshed_roster_admits (h : (nodeRuns fun step n => step.Confined n).Course n ()) :
    (n.Refreshed → ∀ peer, n.roster.admits peer = true →
      ∃ workspace held, n.workspaces.get? workspace = some held ∧
        (peer ∈ held.state.roster ∨ peer ∈ held.inviters)) ∧
    ∀ workspace other removed, other ≠ workspace →
      (n.refreshRoster workspace).roster.get? other = n.roster.get? other ∧
        (n.delete workspace removed).roster.get? other = n.roster.get? other := by
  refine ⟨fun hrefreshed peer hadmits => ?_, fun workspace other removed hother => ⟨?_, ?_⟩⟩
  · have hkept : n.Kept := by
      refine h.invariant (P := fun n _ => n.Kept) ?_ fun n _ step hn hok => step.kept hn hok.2
      rintro n _ ⟨hroster, -⟩
      refine ⟨fun workspace hentry => ?_, fun workspace peer hpeer => ?_⟩
      · rw [hroster] at hentry
        exact absurd hentry (by simp)
      · rw [hroster] at hpeer
        exact absurd hpeer (Keyed.not_mem_empty _)
    obtain ⟨workspace, allowed, hallowed, hpeer⟩ := Roster.admits_iff.mp hadmits
    obtain ⟨held, hheld⟩ := Option.isSome_iff_exists.mp (hkept.held workspace (by
      rw [hallowed]
      rfl))
    refine ⟨workspace, held, hheld, ?_⟩
    rcases hpeer with hderived | hbootstrap
    · left
      rw [hrefreshed workspace held allowed hheld hallowed, BTreeSet.mem_ofList] at hderived
      exact List.mem_of_mem_filter hderived
    · right
      rw [← Node.inviters_eq hheld]
      refine hkept.invited workspace peer ?_
      rw [Roster.entry_eq hallowed]
      exact hbootstrap
  · unfold Node.refreshRoster
    cases n.workspaces.get? workspace with
    | none => rfl
    | some held => exact (Roster.get?_setDerived _).trans (if_neg hother)
  · exact BTreeMap.get?_erase.trans (if_neg hother)

/-! ## What stays let in -/

/-- A node that holds one workspace and refreshes its set has refreshed every set. -/
theorem Node.refreshed_refreshRoster (h : n.workspaces.toList.map Prod.fst = [workspace]) :
    (n.refreshRoster workspace).Refreshed := by
  intro other held allowed hheld hallowed
  have hworkspaces : (n.refreshRoster workspace).workspaces = n.workspaces := by
    unfold Node.refreshRoster
    cases n.workspaces.get? workspace <;> rfl
  rw [hworkspaces] at hheld
  have hother : other ∈ n.workspaces.toList.map Prod.fst :=
    List.mem_map_of_mem (f := Prod.fst) (BTreeMap.get?_eq_some.mp hheld)
  rw [h, List.mem_singleton] at hother
  subst hother
  unfold Node.refreshRoster at hallowed
  rw [hheld] at hallowed
  change (n.roster.setDerived other _).get? other = some allowed at hallowed
  rw [Roster.get?_setDerived, if_pos rfl] at hallowed
  rw [← Option.some.inj hallowed]

/-- Opening a workspace again lets in everybody its snapshot lists. -/
theorem Node.mem_bootstrap_reopen {identity peer : Bytes32} {setup : Setup} {s : WorkspaceState}
    (hresume : n.resume workspace identity = some s) (hsetup : setup.outcome = .assembled)
    (hpeer : peer ∈ n.knownPeers s) :
    peer ∈ ((n.reopen workspace identity setup).roster.entry workspace).bootstrap := by
  unfold Node.reopen Node.assemble
  simp only [hresume, hsetup]
  rw [Roster.bootstrap_setDerived]
  exact ((Roster.entry_addBootstrap _).2 peer).mpr (Or.inl hpeer)

theorem Node.bootstrap_refreshRoster (other : Bytes32) :
    ((n.refreshRoster workspace).roster.entry other).bootstrap =
      (n.roster.entry other).bootstrap := by
  unfold Node.refreshRoster
  cases n.workspaces.get? workspace with
  | none => rfl
  | some held => exact Roster.bootstrap_setDerived _

@[simp] theorem Node.modify_roster (f : Held → Held) : (n.modify workspace f).roster = n.roster := by
  unfold Node.modify
  cases n.workspaces.get? workspace <;> rfl

theorem Roster.admits_of_bootstrap {roster : Roster} {peer : Bytes32}
    (h : peer ∈ (roster.entry workspace).bootstrap) : roster.admits peer = true := by
  unfold Roster.entry at h
  cases hget : roster.get? workspace with
  | none =>
      rw [hget] at h
      exact absurd h (Keyed.not_mem_empty _)
  | some allowed =>
      rw [hget] at h
      exact admits_iff.mpr ⟨workspace, allowed, hget, Or.inr h⟩

end Kept

end Nodes

end IrohBeekem

/-! ## A node that leaves and comes back -/

namespace IrohBeekem

open Library WorkspaceState

section Samples

local instance rosterKeyhive : Keyhive := transparentKeyhive

local instance rosterBeekem : Beekem := listBeekem

local instance rosterLoro : Loro := carbonLoro

local instance rosterPostcard : Postcard := blankPostcard

local instance rosterLawful : LawfulBeekem := listBeekem_live.toLawfulBeekem

def atOnce : Setup := ⟨301, 0, (1 : Nat), ascendingOrder, .assembled⟩

/-- Endpoint 201, which holds no workspace. -/
def emptyNode : Node := ⟨201, .empty, .empty⟩

theorem emptyNode_course {ok : NodeStep → Node → Prop} : (nodeRuns ok).Course emptyNode () :=
  .start ⟨rfl, rfl⟩

/-- Device 2 as it joins the workspace device 1 has let it into. -/
@[irreducible] def newcomer : WorkspaceState :=
  joinedWorkspace ((Turn.call (.handle (.addUser 2 102 .viewer "second" (some 202)) 0) (5 : Nat)).take
    (sampleWorkspace 1)) 2 102

theorem newcomer_joined : Joined newcomer ∧ newcomer.cgka.treeId = 1 := by
  refine ⟨?_, by decide +kernel⟩
  unfold newcomer
  exact joined_joinedWorkspace (by decide +kernel)

/-- It lets its inviter in, at endpoint 205. -/
@[irreducible] def welcomed : Node := emptyNode.join 1 newcomer 205 atOnce

theorem welcomed_lists :
    welcomed.workspaces.toList.map Prod.fst = [1] ∧
      (welcomed.refreshRoster 1).roster.admits 205 = true := by
  decide +kernel

theorem refreshed_roster_admits_inviter :
    ∃ workspace held, (welcomed.refreshRoster 1).workspaces.get? workspace = some held ∧
      ((205 : Bytes32) ∈ held.state.roster ∨ (205 : Bytes32) ∈ held.inviters) := by
  have hjoins : (nodeRuns fun step n => step.Confined n).Course welcomed () := by
    unfold welcomed
    exact emptyNode_course.step (.join 1 newcomer 205 atOnce)
      ⟨newcomer_joined, by decide, by decide⟩
  have hrefreshes : ∀ n, (nodeRuns fun step n => step.Confined n).Course n () →
      (nodeRuns fun step n => step.Confined n).Course (n.refreshRoster 1) () :=
    fun _ h => h.step (.refresh 1) ⟨trivial, trivial⟩
  exact (refreshed_roster_admits (hrefreshes _ hjoins)).1
    (Node.refreshed_refreshRoster welcomed_lists.1) 205 welcomed_lists.2

/-- Device 1 founds a workspace, admits device 2 at endpoint 202, and its process ends. -/
@[irreducible] def stopped : Node :=
  ((nodeRuns fun _ _ => True).takeAll
    [.create 1 (sampleWorkspace 1) atOnce,
      .turn 1 (.call (.handle (.addUser 2 102 .viewer "second" (some 202)) 0) (5 : Nat)),
      .persist 1 ascendingOrder, .exit] (emptyNode, ())).1

/-- Then it opens the workspace again. -/
@[irreducible] def reopened : Node := stopped.reopen 1 1 atOnce

/-- And removes device 2. -/
@[irreducible] def evicted : Node :=
  reopened.modify 1 fun held => { held with
    state := (Turn.call (.handle (.removeMember 2) 0) (5 : Nat)).take held.state }

/-- Whether a member's device is listed at this endpoint. -/
def ListedAt (s : WorkspaceState) (endpoint : Bytes32) : Prop :=
  ∃ device ∈ s.manifest.devices, s.capabilities.isCertifiedDevice device.member = true ∧
    device.member ∈ s.cgka.currentMembers ∧ device.endpointId = some endpoint

instance (s : WorkspaceState) (endpoint : Bytes32) : Decidable (ListedAt s endpoint) := by
  unfold ListedAt
  infer_instance

theorem founded_sample : Founded (sampleWorkspace 1) ∧ (sampleWorkspace 1).cgka.treeId = 1 := by
  have hfound : (WorkspaceState.found rootedFounder 9 1).toOption.isSome = true := by
    decide +kernel
  exact ⟨sampleWorkspace_founded hfound, by decide +kernel⟩

theorem stopped_course : (nodeRuns fun _ _ => True).Course stopped () := by
  unfold stopped
  exact emptyNode_course.takeAll (r := (emptyNode, ())) _
    ⟨⟨founded_sample, trivial⟩, ⟨trivial, trivial⟩, ⟨trivial, trivial⟩, ⟨trivial, trivial⟩, trivial⟩

/-- The snapshot lists device 2, and the workspace does not once the device is removed. -/
theorem stopped_evicted :
    (stopped.endpointId = 201 ∧ ((stopped.resume 1 1).any fun s => decide (ListedAt s 202)) = true) ∧
      evicted.workspaces.toList.map Prod.fst = [1] ∧
      ∀ item ∈ (evicted.refreshRoster 1).workspaces,
        ¬ ListedAt item.2.state 202 ∧ item.2.inviters = [] := by
  decide +kernel

/-- The device that was removed is let in nevertheless. -/
theorem evicted_admits : (evicted.refreshRoster 1).roster.admits 202 = true := by
  obtain ⟨s, hresume, hlisted⟩ := (Option.any_eq_true _ _).mp stopped_evicted.1.2
  have hroster : (202 : Bytes32) ∈ s.roster :=
    WorkspaceState.mem_roster.mpr (of_decide_eq_true hlisted)
  have hpeer : (202 : Bytes32) ∈ stopped.knownPeers s := by
    unfold Node.knownPeers
    rw [List.mem_filter, List.mem_filter, stopped_evicted.1.1]
    exact ⟨⟨hroster, by decide⟩, rfl⟩
  have hopened : (202 : Bytes32) ∈ (reopened.roster.entry 1).bootstrap := by
    unfold reopened
    exact Node.mem_bootstrap_reopen hresume rfl hpeer
  have hkept : (202 : Bytes32) ∈ ((evicted.refreshRoster 1).roster.entry 1).bootstrap := by
    rw [Node.bootstrap_refreshRoster]
    unfold evicted
    rw [Node.modify_roster]
    exact hopened
  exact Roster.admits_of_bootstrap hkept

/-- A node that opens a workspace again goes on admitting whom it removes from it. -/
theorem opened_again_admits_removed :
    ¬ ∀ n : Node, (nodeRuns fun _ _ => True).Course n () → n.Refreshed →
      ∀ peer, n.roster.admits peer = true →
        ∃ workspace held, n.workspaces.get? workspace = some held ∧
          (peer ∈ held.state.roster ∨ peer ∈ held.inviters) := by
  intro hclaim
  have hreopens : ∀ n, (nodeRuns fun _ _ => True).Course n () →
      (nodeRuns fun _ _ => True).Course (n.reopen 1 1 atOnce) () :=
    fun _ h => h.step (.reopen 1 1 atOnce) ⟨trivial, trivial⟩
  have hremoves : ∀ n, (nodeRuns fun _ _ => True).Course n () →
      (nodeRuns fun _ _ => True).Course (n.modify 1 fun held => { held with
        state := (Turn.call (.handle (.removeMember 2) 0) (5 : Nat)).take held.state }) () :=
    fun _ h => h.step (.turn 1 _) ⟨trivial, trivial⟩
  have hrefreshes : ∀ n, (nodeRuns fun _ _ => True).Course n () →
      (nodeRuns fun _ _ => True).Course (n.refreshRoster 1) () :=
    fun _ h => h.step (.refresh 1) ⟨trivial, trivial⟩
  have hevicted : (nodeRuns fun _ _ => True).Course evicted () := by
    unfold evicted reopened
    exact hremoves _ (hreopens _ stopped_course)
  obtain ⟨workspace, held, hheld, hpeer⟩ := hclaim _ (hrefreshes _ hevicted)
    (Node.refreshed_refreshRoster stopped_evicted.2.1) 202 evicted_admits
  obtain ⟨hunlisted, hinviters⟩ :=
    stopped_evicted.2.2 (workspace, held) (BTreeMap.get?_eq_some.mp hheld)
  rcases hpeer with hroster | hinvited
  · exact hunlisted (WorkspaceState.mem_roster.mp hroster)
  · rw [hinviters] at hinvited
    exact absurd hinvited List.not_mem_nil

end Samples

end IrohBeekem
