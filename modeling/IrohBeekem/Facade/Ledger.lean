import IrohBeekem.Facade.Redeem
import IrohBeekem.Facade.Vault

/-!
# Spending invites

A node keeps the nonces of the invites it has redeemed in memory, behind a lock, and a
persistent one writes the whole ledger through on every claim.  A failure to write it is
logged, and the claim stands.

So a ticket is redeemed once at most while the process runs, and once at most ever if the
write of its own claim did not fail, however often the process is gone in the middle of a
write and started again (`invite_single_use`).
-/

set_option linter.unusedSectionVars false

namespace IrohBeekem

open Library

/-! ## Claiming -/

namespace Node

variable [StoreCodec]

/-- A program that runs on the disk only. -/
def onDisk {α : Type} (x : EStateM (Halt WorkspaceError) Disk α) :
    EStateM (Halt WorkspaceError) (SpentNonces × Disk) α :=
  zoom Prod.snd (fun d p => (p.1, d)) id x

/-- Record an invite nonce as redeemed, and say whether it was fresh. -/
def claimInvite (store : Option Store) (order : PairOrder) (treeId : Bytes32) (nonce : Bytes16) :
    EStateM (Halt WorkspaceError) (SpentNonces × Disk) Bool := do
  match (← get).1 with
  | none => return false
  | some redeemed =>
      if (treeId, nonce) ∈ redeemed then return false
      else
        modify fun p => (some (insert (treeId, nonce) redeemed), p.2)
        match store with
        | none => return true
        | some store =>
            -- A failure is logged.
            let _ ← (recover (onDisk
                (store.storeRedeemed order (insert (treeId, nonce) redeemed))) :
              EStateM (Halt WorkspaceError) (SpentNonces × Disk) (Except WorkspaceError Unit))
            return true

/-- What starting a persistent node reads: its key and the spent nonces.  In between, the
endpoint is bound and the blobs and the index are opened. -/
def spawnPersistent (store : Store) (generated : Bytes32) (opened : Except WorkspaceError Unit) :
    EStateM (Halt WorkspaceError) Disk (Bytes32 × Finset TreePair) := do
  let key ← store.endpointKey generated
  verdict (opened.mapError .failed)
  let redeemed ← store.loadRedeemed
  return (key, redeemed)

end Node

/-! ## A node that is started and stopped -/

/-- The files of a node, and what its process has in memory while it runs. -/
structure NodeHost where
  files : Files
  process : Option SpentNonces

/-- What is seen of a node. -/
inductive NodeEvent where
  | spawned (key : Bytes32)
  | notSpawned
  /-- A claim, with what became of its calls on the file system, and what it returned. -/
  | claimed (treeId : Bytes32) (nonce : Bytes16) (outcomes : List Outcome) (fresh : Bool)
  /-- Another call on the store. -/
  | called (call : StoreCall) (ending : Ending)
  /-- A task panics while it holds the lock. -/
  | poisoned
  | stopped

/-- The calls that the ledger and the key are written by. -/
def StoreCall.startsOrSpends : StoreCall → Bool
  | .endpointKey _ | .storeRedeemed _ _ => true
  | _ => false

variable [StoreCodec]

/-- The steps of a node.  A process that is gone leaves its files. -/
inductive ProcessStep (store : Store) (n : NodeHost) : NodeEvent → NodeHost → Prop where
  | spawn {generated key : Bytes32} {opened : Except WorkspaceError Unit}
      {outcomes : List Outcome} {redeemed : Finset TreePair} {d : Disk}
      (hstopped : n.process = none)
      (h : Node.spawnPersistent store generated opened ⟨n.files, outcomes⟩ =
        .ok (key, redeemed) d) :
      ProcessStep store n (.spawned key) ⟨d.files, some (some redeemed)⟩
  | spawnFails {generated : Bytes32} {opened : Except WorkspaceError Unit}
      {outcomes : List Outcome} {halt : Halt WorkspaceError} {d : Disk}
      (hstopped : n.process = none)
      (h : Node.spawnPersistent store generated opened ⟨n.files, outcomes⟩ = .error halt d) :
      ProcessStep store n .notSpawned ⟨d.files, none⟩
  | claim {order : PairOrder} {treeId : Bytes32} {nonce : Bytes16} {outcomes : List Outcome}
      {memory memory' : SpentNonces} {fresh : Bool} {d : Disk} (hrunning : n.process = some memory)
      (h : Node.claimInvite (some store) order treeId nonce (memory, ⟨n.files, outcomes⟩) =
        .ok fresh (memory', d)) :
      ProcessStep store n (.claimed treeId nonce outcomes fresh) ⟨d.files, some memory'⟩
  | claimCut {order : PairOrder} {treeId : Bytes32} {nonce : Bytes16} {outcomes : List Outcome}
      {memory memory' : SpentNonces} {halt : Halt WorkspaceError} {d : Disk}
      (hrunning : n.process = some memory)
      (h : Node.claimInvite (some store) order treeId nonce (memory, ⟨n.files, outcomes⟩) =
        .error halt (memory', d)) :
      ProcessStep store n .stopped ⟨d.files, none⟩
  | call {call : StoreCall} {ending : Ending} {memory : SpentNonces} {files : Files}
      (hrunning : n.process = some memory) (hcall : call.startsOrSpends = false)
      (h : FilesStep store n.files (call, ending) files) :
      ProcessStep store n (.called call ending)
        ⟨files, match ending with
          | .cut => none
          | _ => some memory⟩
  | poison {memory : SpentNonces} (hrunning : n.process = some memory) :
      ProcessStep store n .poisoned ⟨n.files, some none⟩
  | stop : ProcessStep store n .stopped ⟨n.files, none⟩

/-! ## What a claim does -/

section Claims

variable {v : Vault} {files : Files} {memory : SpentNonces}

/-- The record with this ledger. -/
def Vault.withRedeemed (v : Vault) (redeemed : Finset TreePair) : Vault :=
  { v with redeemed := redeemed }

theorem storeRedeemed_holds [LawfulStoreCodec] (store : Store) (order : PairOrder)
    (redeemed : Finset TreePair) {d : Disk} (h : d.Holds v) :
    Wp (store.storeRedeemed order redeemed) (fun _ d' => d'.Holds (v.withRedeemed redeemed))
      (Leaves v (v.withRedeemed redeemed)) d := by
  refine storePairs_holds "the invite ledger" .redeemed order redeemed h fun bytes hbytes => ?_
  have hspells := h.spells.setRedeemed hbytes
  rwa [order.toFinset_iter] at hspells

/-- What a claim leaves: the memory as the ledger in memory says, and on the disk the ledger
that was there or the one in memory. -/
structure Claimed (v : Vault) (memory : SpentNonces) (treeId : Bytes32) (nonce : Bytes16)
    (fresh : Bool) (memory' : SpentNonces) (d' : Disk) : Prop where
  remembered : Workspace.claimInvite treeId nonce memory = .ok fresh memory'
  written : d'.Holds v ∨ ∃ redeemed, memory' = some redeemed ∧ d'.Holds (v.withRedeemed redeemed)

/-- A claim is what the ledger in memory makes of it, whether or not it can be written. -/
theorem claimInvite_claimed [LawfulStoreCodec] (store : Store) (order : PairOrder)
    (treeId : Bytes32) (nonce : Bytes16) (memory : SpentNonces) {d : Disk} (h : d.Holds v) :
    Wp (Node.claimInvite (some store) order treeId nonce)
      (fun fresh p' => Claimed v memory treeId nonce fresh p'.1 p'.2 ∧
        (fresh = true → Encodes → NoneFails d.outcomes →
          ∃ redeemed, p'.1 = some redeemed ∧ p'.2.Holds (v.withRedeemed redeemed)))
      (fun _ p' => p'.2.Holds v ∨ ∃ redeemed, memory = some redeemed ∧
        p'.2.Holds (v.withRedeemed (insert (treeId, nonce) redeemed))) (memory, d) := by
  unfold Node.claimInvite
  rw [wp_bind, wp_get]
  cases memory with
  | none => exact ⟨⟨rfl, Or.inl h⟩, fun hfresh => absurd hfresh (by simp)⟩
  | some redeemed =>
      dsimp only
      by_cases hspent : (treeId, nonce) ∈ redeemed
      · have hremembered : Workspace.claimInvite treeId nonce (some redeemed) =
            .ok false (some redeemed) := by
          show EStateM.Result.ok (decide ((treeId, nonce) ∉ redeemed))
            (some (insert (treeId, nonce) redeemed)) = _
          rw [Finset.insert_eq_of_mem hspent, decide_eq_false (not_not.mpr hspent)]
        rw [if_pos hspent]
        exact ⟨⟨hremembered, Or.inl h⟩, fun hfresh => absurd hfresh (by simp)⟩
      · have hremembered : Workspace.claimInvite treeId nonce (some redeemed) =
            .ok true (some (insert (treeId, nonce) redeemed)) := by
          show EStateM.Result.ok (decide ((treeId, nonce) ∉ redeemed))
            (some (insert (treeId, nonce) redeemed)) = _
          rw [decide_eq_true hspent]
        have hcut : Wp (store.storeRedeemed order (insert (treeId, nonce) redeemed))
            (fun _ _ => True) (fun halt _ => Encodes → NoneFails d.outcomes → halt = .cut) d :=
          wp_of_run (fun _ _ _ => trivial) fun halt d' hrun hencodes hnone =>
            (storePairs_noneFails store _ .redeemed order _ hencodes hnone).of_error hrun
        have hstored :=
          (storeRedeemed_holds store order (insert (treeId, nonce) redeemed) h).and hcut
        rw [if_neg hspent, wp_bind, wp_modify, wp_bind, wp_recover]
        unfold Node.onDisk
        rw [wp_zoom]
        refine hstored.mono (fun _ d' hwritten => ?_) fun halt d' hleft => ?_
        · exact ⟨⟨hremembered, Or.inr ⟨_, rfl, hwritten.1⟩⟩, fun _ _ _ => ⟨_, rfl, hwritten.1⟩⟩
        · obtain ⟨hleaves, hcut⟩ := hleft
          cases halt with
          | failed e =>
              refine ⟨⟨hremembered, Or.inl hleaves⟩, fun _ hencodes hnone => ?_⟩
              exact absurd (hcut hencodes hnone) (by simp)
          | cut => exact hleaves.imp_right fun hmade => ⟨redeemed, rfl, hmade⟩

end Claims

/-! ## Single use -/

/-- A ticket is spent: the ledger on disk has its nonce, and so does the one in memory. -/
def SpentOn (n : NodeHost) (pair : TreePair) : Prop :=
  (∃ v, Keep n.files v ∧ pair ∈ v.redeemed) ∧
    ∀ redeemed, n.process = some (some redeemed) → pair ∈ redeemed

/-- A ticket is spent in memory. -/
def SpentIn (n : NodeHost) (pair : TreePair) : Prop :=
  ∀ redeemed, n.process = some (some redeemed) → pair ∈ redeemed

section Single

variable [LawfulStoreCodec] {store : Store} {n n' : NodeHost} {label : NodeEvent}
  {pair : TreePair}

/-- A claim that is refused or not, the memory only grows. -/
theorem claimInvite_grows {treeId : Bytes32} {nonce : Bytes16} {redeemed : Finset TreePair}
    {fresh : Bool} {memory' : SpentNonces}
    (h : Workspace.claimInvite treeId nonce (some redeemed) = .ok fresh memory') :
    memory' = some (insert (treeId, nonce) redeemed) ∧
      (fresh = true ↔ (treeId, nonce) ∉ redeemed) := by
  change EStateM.Result.ok (decide ((treeId, nonce) ∉ redeemed))
    (some (insert (treeId, nonce) redeemed)) = _ at h
  obtain ⟨hfresh, hmemory⟩ := EStateM.Result.ok.inj h
  exact ⟨hmemory.symm, by rw [← hfresh, decide_eq_true_iff]⟩

/-- Starting reads the ledger and leaves it. -/
theorem spawnPersistent_spec (store : Store) (generated : Bytes32)
    (opened : Except WorkspaceError Unit) {d : Disk} {v : Vault} (h : d.Holds v) :
    Wp (Node.spawnPersistent store generated opened)
      (fun r d' => r.2 = v.redeemed ∧ ∃ v', d'.Holds v' ∧ v'.redeemed = v.redeemed)
      (fun _ d' => ∃ v', d'.Holds v' ∧ v'.redeemed = v.redeemed) d := by
  have hleaves : ∀ {v₁ v₂ : Vault} {halt : Halt WorkspaceError} {d' : Disk}, Leaves v₁ v₂ halt d' →
      v₁.redeemed = v.redeemed → v₂.redeemed = v.redeemed →
      ∃ v', d'.Holds v' ∧ v'.redeemed = v.redeemed := by
    intro v₁ v₂ halt d' hleft h₁ h₂
    cases halt with
    | failed e => exact ⟨v₁, hleft, h₁⟩
    | cut => exact hleft.elim (fun hholds => ⟨v₁, hholds, h₁⟩) fun hholds => ⟨v₂, hholds, h₂⟩
  unfold Node.spawnPersistent
  refine (endpointKey_holds generated h).seq (fun key d₁ hkey => ?_)
    fun halt d₁ hleft => hleaves hleft rfl rfl
  rw [wp_bind, wp_verdict]
  cases opened with
  | error e => exact ⟨_, hkey.2, rfl⟩
  | ok _ =>
      refine (loadPairs_holds .redeemed hkey.2 v).seq (fun redeemed d₂ hread => ?_)
        fun halt d₂ hleft => hleaves hleft rfl rfl
      exact ⟨hread.1.trans hkey.2.spells.redeemed, _, hread.2, rfl⟩

/-- The other calls leave the ledger. -/
theorem VaultStep.redeemed {v v' : Vault} {call : StoreCall} {ending : Ending}
    (h : VaultStep v (call, ending) v') (hcall : call.startsOrSpends = false) :
    v'.redeemed = v.redeemed := by
  have hchange : (call.change v).redeemed = v.redeemed := by
    cases call with
    | storeRedeemed order redeemed => exact absurd hcall (by simp [StoreCall.startsOrSpends])
    | _ => rfl
  cases h with
  | returned => exact hchange
  | failed => rfl
  | cut => rfl
  | made => exact hchange

/-- What a step does to the ledger on disk and to the one in memory: nothing goes from either
while the process runs, and a process that starts reads what is on disk. -/
structure LedgerStep (n n' : NodeHost) (label : NodeEvent) (v v' : Vault) : Prop where
  disk : v'.redeemed = v.redeemed ∨ ∃ redeemed treeId nonce,
    n.process = some (some redeemed) ∧ v'.redeemed = insert (treeId, nonce) redeemed
  memory : ∀ redeemed', n'.process = some (some redeemed') →
    (redeemed' = v.redeemed ∧ ∃ key, label = .spawned key) ∨
      ∃ redeemed, n.process = some (some redeemed) ∧ redeemed ⊆ redeemed'

/-- Every step is such a step. -/
theorem ProcessStep.ledger (h : ProcessStep store n label n') {v : Vault} (hkeep : Keep n.files v) :
    ∃ v', Keep n'.files v' ∧ LedgerStep n n' label v v' := by
  cases h with
  | @spawn generated key opened outcomes redeemed d hstopped hrun =>
      obtain ⟨hread, v', hholds, hsame⟩ :=
        (spawnPersistent_spec store generated opened (hkeep outcomes)).of_ok hrun
      refine ⟨v', hholds.keep, Or.inl hsame, fun redeemed' hmemory => Or.inl ⟨?_, key, rfl⟩⟩
      rw [← Option.some.inj (Option.some.inj hmemory)]
      exact hread
  | @spawnFails generated opened outcomes halt d hstopped hrun =>
      obtain ⟨v', hholds, hsame⟩ :=
        (spawnPersistent_spec store generated opened (hkeep outcomes)).of_error hrun
      exact ⟨v', hholds.keep, Or.inl hsame, fun _ hmemory => absurd hmemory (by simp)⟩
  | @claim order treeId nonce outcomes memory memory' fresh d hrunning hrun =>
      have hclaimed := ((claimInvite_claimed store order treeId nonce memory
        (hkeep outcomes)).of_ok hrun).1
      cases memory with
      | none =>
          have hnone : memory' = none := (EStateM.Result.ok.inj hclaimed.remembered).2.symm
          subst hnone
          refine ⟨v, ?_, Or.inl rfl, fun _ hmemory => absurd hmemory (by simp)⟩
          exact (hclaimed.written.resolve_right fun ⟨_, hsome, _⟩ => absurd hsome (by simp)).keep
      | some redeemed =>
          obtain ⟨rfl, -⟩ := claimInvite_grows hclaimed.remembered
          have hgrows : ∀ redeemed', some (some (insert (treeId, nonce) redeemed)) =
              some (some redeemed') → redeemed ⊆ redeemed' := by
            intro redeemed' hmemory
            rw [← Option.some.inj (Option.some.inj hmemory)]
            exact Finset.subset_insert _ _
          rcases hclaimed.written with hsame | ⟨written, hwritten, hmade⟩
          · exact ⟨v, hsame.keep, Or.inl rfl, fun redeemed' hmemory =>
              Or.inr ⟨redeemed, hrunning, hgrows redeemed' hmemory⟩⟩
          · obtain rfl := Option.some.inj hwritten
            exact ⟨_, hmade.keep, Or.inr ⟨redeemed, treeId, nonce, hrunning, rfl⟩,
              fun redeemed' hmemory => Or.inr ⟨redeemed, hrunning, hgrows redeemed' hmemory⟩⟩
  | @claimCut order treeId nonce outcomes memory memory' halt d hrunning hrun =>
      have hleft := (claimInvite_claimed store order treeId nonce memory
        (hkeep outcomes)).of_error hrun
      rcases hleft with hsame | ⟨redeemed, rfl, hmade⟩
      · exact ⟨v, hsame.keep, Or.inl rfl, fun _ hmemory => absurd hmemory (by simp)⟩
      · exact ⟨_, hmade.keep, Or.inr ⟨redeemed, treeId, nonce, hrunning, rfl⟩,
          fun _ hmemory => absurd hmemory (by simp)⟩
  | @call call ending memory files hrunning hcall hstep =>
      obtain ⟨v', hvault, hkeep'⟩ := hstep.vault hkeep
      refine ⟨v', hkeep', Or.inl (hvault.redeemed hcall), fun redeemed' hmemory => Or.inr ?_⟩
      have hsame : some memory = some (some redeemed') := by
        cases ending with
        | cut => exact absurd hmemory (by simp)
        | returned answer => exact hmemory
        | failed => exact hmemory
      exact ⟨redeemed', hrunning.trans hsame, Finset.Subset.refl _⟩
  | @poison memory hrunning =>
      exact ⟨v, hkeep, Or.inl rfl, fun _ hmemory => absurd hmemory (by simp)⟩
  | stop => exact ⟨v, hkeep, Or.inl rfl, fun _ hmemory => absurd hmemory (by simp)⟩

/-- A ticket that is spent on disk stays spent. -/
theorem SpentOn.step (h : SpentOn n pair) (hstep : ProcessStep store n label n') :
    SpentOn n' pair := by
  obtain ⟨⟨v, hkeep, hdisk⟩, hmemory⟩ := h
  obtain ⟨v', hkeep', hledger⟩ := hstep.ledger hkeep
  refine ⟨⟨v', hkeep', ?_⟩, fun redeemed' hprocess => ?_⟩
  · rcases hledger.disk with hsame | ⟨redeemed, treeId, nonce, hprocess, hmade⟩
    · rwa [hsame]
    · rw [hmade]
      exact Finset.mem_insert_of_mem (hmemory redeemed hprocess)
  · rcases hledger.memory redeemed' hprocess with ⟨rfl, -⟩ | ⟨redeemed, hbefore, hgrows⟩
    · exact hdisk
    · exact hgrows (hmemory redeemed hbefore)

/-- A ticket that is spent in memory stays spent until the process starts again. -/
theorem SpentIn.step (h : SpentIn n pair) {v : Vault} (hkeep : Keep n.files v)
    (hstep : ProcessStep store n label n') (hspawn : ∀ key, label ≠ .spawned key) :
    SpentIn n' pair ∧ ∃ v', Keep n'.files v' := by
  obtain ⟨v', hkeep', hledger⟩ := hstep.ledger hkeep
  refine ⟨fun redeemed' hprocess => ?_, v', hkeep'⟩
  rcases hledger.memory redeemed' hprocess with ⟨-, key, hkey⟩ | ⟨redeemed, hbefore, hgrows⟩
  · exact absurd hkey (hspawn key)
  · exact hgrows (h redeemed hbefore)

/-- A ticket that is spent in memory is refused. -/
theorem SpentIn.refuses {treeId : Bytes32} {nonce : Bytes16} (h : SpentIn n (treeId, nonce))
    {v : Vault} (hkeep : Keep n.files v) {outcomes : List Outcome} {fresh : Bool}
    (hstep : ProcessStep store n (.claimed treeId nonce outcomes fresh) n') : fresh = false := by
  cases hstep with
  | @claim order _ _ _ memory memory' _ d hrunning hrun =>
      have hclaimed := ((claimInvite_claimed store order treeId nonce memory
        (hkeep outcomes)).of_ok hrun).1
      cases memory with
      | none => exact (EStateM.Result.ok.inj hclaimed.remembered).1.symm
      | some redeemed =>
          obtain ⟨-, hfresh⟩ := claimInvite_grows hclaimed.remembered
          by_contra hne
          exact hfresh.mp (Bool.eq_true_of_not_eq_false hne) (h redeemed hrunning)

/-- A ticket that is accepted is spent in memory, and on disk if the write does not fail. -/
theorem ProcessStep.accepted {treeId : Bytes32} {nonce : Bytes16} {outcomes : List Outcome}
    (hstep : ProcessStep store n (.claimed treeId nonce outcomes true) n') {v : Vault}
    (hkeep : Keep n.files v) :
    SpentIn n' (treeId, nonce) ∧
      (Encodes → NoneFails outcomes → SpentOn n' (treeId, nonce)) := by
  cases hstep with
  | @claim order _ _ _ memory memory' _ d hrunning hrun =>
      obtain ⟨hclaimed, hwritten⟩ := (claimInvite_claimed store order treeId nonce memory
        (hkeep outcomes)).of_ok hrun
      have hin : ∀ redeemed, memory' = some redeemed → (treeId, nonce) ∈ redeemed := by
        intro redeemed' hmemory
        cases memory with
        | none =>
            have hrefused := (EStateM.Result.ok.inj hclaimed.remembered).1
            exact absurd hrefused (by simp)
        | some redeemed =>
            have hgrown : memory' = some (insert (treeId, nonce) redeemed) :=
              (claimInvite_grows hclaimed.remembered).1
            rw [hgrown] at hmemory
            rw [← Option.some.inj hmemory]
            exact Finset.mem_insert_self _ _
      have hspent : SpentIn ⟨d.files, some memory'⟩ (treeId, nonce) := fun redeemed hprocess =>
        hin redeemed (Option.some.inj hprocess)
      refine ⟨hspent, fun hencodes hnone => ?_⟩
      obtain ⟨redeemed, hmemory, hholds⟩ := hwritten rfl hencodes hnone
      exact ⟨⟨_, hholds.keep, hin redeemed hmemory⟩, hspent⟩

/-- A node accepts a ticket once at most while it runs, and once at most ever if the write of
that claim did not fail: not even if later writes fail, or the process is gone in the middle
of one and started again. -/
theorem invite_single_use (store : Store) (hencodes : Encodes) {files : Files}
    (hfresh : Fresh files) {treeId : Bytes32} {nonce : Bytes16} {outcomes : List Outcome}
    (before after : List NodeEvent)
    (h : Trace (ProcessStep store) ⟨files, none⟩
      (before ++ .claimed treeId nonce outcomes true :: after) n')
    (hfine : NoneFails outcomes ∨ ∀ key, .spawned key ∉ after) (outcomes' : List Outcome) :
    .claimed treeId nonce outcomes' true ∉ after := by
  obtain ⟨n₁, hbefore, hclaim⟩ := h.split
  have hkeeps : ∃ v, Keep n₁.files v := by
    have hsteps : ∀ n label n', True → (∃ v, Keep n.files v) → ProcessStep store n label n' →
        ∃ v, Keep n'.files v := by
      rintro n label n' - ⟨v, hkeep⟩ hstep
      obtain ⟨v', hkeep', -⟩ := hstep.ledger hkeep
      exact ⟨v', hkeep'⟩
    exact hbefore.invariant (P := fun n => ∃ v, Keep n.files v) hsteps (fun _ _ => trivial)
      ⟨_, hfresh.keep⟩
  obtain ⟨v₁, hkeep₁⟩ := hkeeps
  cases hclaim with
  | @cons _ n₂ _ _ _ hstep hafter =>
      obtain ⟨hin, hon⟩ := hstep.accepted hkeep₁
      obtain ⟨v₂, hkeep₂, -⟩ := hstep.ledger hkeep₁
      rcases hfine with hnone | hspawn
      · have hsteps : ∀ n label n', True → SpentOn n (treeId, nonce) →
            ProcessStep store n label n' →
              ¬ label = .claimed treeId nonce outcomes' true ∧ SpentOn n' (treeId, nonce) := by
          intro n label n' _ hspent hstep
          refine ⟨?_, hspent.step hstep⟩
          rintro rfl
          obtain ⟨⟨v, hkeep, -⟩, hmemory⟩ := hspent
          exact absurd (SpentIn.refuses hmemory hkeep hstep) (by simp)
        exact fun hagain =>
          hafter.never hsteps (fun _ _ => trivial) (hon hencodes hnone) _ hagain rfl
      · have hsteps : ∀ n label n', (∀ key, label ≠ .spawned key) →
            (SpentIn n (treeId, nonce) ∧ ∃ v, Keep n.files v) → ProcessStep store n label n' →
            ¬ label = .claimed treeId nonce outcomes' true ∧
              (SpentIn n' (treeId, nonce) ∧ ∃ v, Keep n'.files v) := by
          rintro n label n' hok ⟨hmemory, v, hkeep⟩ hstep
          refine ⟨?_, hmemory.step hkeep hstep hok⟩
          rintro rfl
          exact absurd (hmemory.refuses hkeep hstep) (by simp)
        have hok : ∀ label ∈ after, ∀ key, label ≠ .spawned key :=
          fun label hmem key heq => hspawn key (heq ▸ hmem)
        exact fun hagain => 
          hafter.never (P := fun n => SpentIn n (treeId, nonce) ∧ ∃ v, Keep n.files v) hsteps hok
            ⟨hin, v₂, hkeep₂⟩ _ hagain rfl

end Single

end IrohBeekem

namespace IrohBeekem

open Library

section Samples

local instance ledgerCodec : StoreCodec := plainStoreCodec

local instance ledgerLawful : LawfulStoreCodec := plainStoreCodec_lawful

/-- Pairs in the order of their trees and then of their nonces. -/
def ascendingPairs : PairOrder where
  iter set := ((set.image toLex).sort (· ≤ ·)).map ofLex
  mem_iter set pair := by
    simp only [List.mem_map, Finset.mem_sort, Finset.mem_image]
    constructor
    · rintro ⟨_, ⟨other, hmem, rfl⟩, rfl⟩
      exact hmem
    · intro hmem
      exact ⟨toLex pair, ⟨pair, hmem, rfl⟩, rfl⟩

theorem encodes_plain : Encodes := fun _ => ⟨_, rfl⟩

/-- The disk of a node that has been started once. -/
def startedDisk : Disk := after (Node.spawnPersistent ⟨"/node"⟩ 5 (.ok ())) ⟨∅, []⟩

/-- Its memory and its disk, once it has redeemed a ticket. -/
def claimedDisk : SpentNonces × Disk :=
  after (Node.claimInvite (some ⟨"/node"⟩) ascendingPairs 3 4) (some ∅, ⟨startedDisk.files, []⟩)

theorem invite_single_use_restarted : ∃ key n,
    Trace (ProcessStep ⟨"/node"⟩) ⟨∅, none⟩ [.spawned key, .claimed 3 4 [] true, .stopped] n ∧
      ∀ after n', Trace (ProcessStep ⟨"/node"⟩) n after n' →
        ∀ outcomes, NodeEvent.claimed 3 4 outcomes true ∉ after := by
  obtain ⟨⟨key, redeemed⟩, hspawn⟩ : ∃ r, Node.spawnPersistent ⟨"/node"⟩ 5 (.ok ()) ⟨∅, []⟩ =
      .ok r startedDisk := run_of_succeeds (by decide +kernel)
  obtain ⟨hread, v, hholds, -⟩ :=
    (spawnPersistent_spec ⟨"/node"⟩ 5 (.ok ()) (fresh_empty.keep [])).of_ok hspawn
  obtain rfl : redeemed = ∅ := hread
  obtain ⟨fresh, hclaim⟩ : ∃ fresh, Node.claimInvite (some ⟨"/node"⟩) ascendingPairs 3 4
      (some ∅, ⟨startedDisk.files, []⟩) = .ok fresh (claimedDisk.1, claimedDisk.2) :=
    run_of_succeeds (by decide +kernel)
  have hremembered := ((claimInvite_claimed ⟨"/node"⟩ ascendingPairs 3 4 (some ∅)
    (hholds.keep [])).of_ok hclaim).1.remembered
  obtain rfl : fresh = true := (claimInvite_grows hremembered).2.mpr (Finset.notMem_empty _)
  have hstart : ProcessStep ⟨"/node"⟩ ⟨∅, none⟩ (.spawned key)
      ⟨startedDisk.files, some (some ∅)⟩ := .spawn rfl hspawn
  have haccept : ProcessStep ⟨"/node"⟩ ⟨startedDisk.files, some (some ∅)⟩ (.claimed 3 4 [] true)
      ⟨claimedDisk.2.files, some claimedDisk.1⟩ := .claim rfl hclaim
  have htrace := Trace.cons hstart (.cons haccept (.cons .stop .nil))
  refine ⟨key, _, htrace, fun after n' hafter outcomes hagain => ?_⟩
  exact invite_single_use ⟨"/node"⟩ encodes_plain fresh_empty [.spawned key] (.stopped :: after)
    (htrace.append hafter) (Or.inl fun _ _ => List.not_mem_nil) outcomes
    (List.mem_cons_of_mem _ hagain)

end Samples

end IrohBeekem
