import IrohBeekem.Keys.Authorize
import IrohBeekem.State.Publishers

/-!
# What a call does

`Moves` says what a successful call did to the operation graph: every operation
it took in was broadcast by the call or had been delivered to the node, and every
operation it broadcast is the node's own, follows the node's own introduction and
has grounds in the certificates the node then holds.  `Bumps` says what a call
that is not about the namespace may do to it, and `Fails` what a failed call
leaves behind.

The handlers that change the membership have one specification each, in these
terms.
-/

set_option linter.unusedSectionVars false

namespace IrohBeekem

open Library CgkaController

variable [Keyhive] [Beekem] [Loro] [Postcard]

omit [Loro] [Postcard] in
/-- What the certificates of the sender say for the removal of a device: it is the
sender's own, or of the sender's user, or the threshold or a quorum allows it.  A
sender nobody has certified also takes the user it is named after for its own. -/
def RemovalGrounds (certs : CapabilityStore) (issuer device : Bytes32) : Prop :=
  device = issuer ∨ certs.Owns issuer device ∨
    (certs.userOf issuer = none ∧ certs.userOf device = some issuer) ∨
    certs.threshold ≤ defaultThreshold ∨ certs.isExecutedAction (.removeMember device) = true

omit [Loro] [Postcard] in
/-- What the certificates of the sender and the proof say for an operation: a
removal has its grounds, and an addition comes with a binding of the sender's. -/
inductive Grounded (certs : CapabilityStore) (op : ControlOp) (proof : List Certificate) :
    Prop where
  | update (h : IsUpdate op)
  | add (signed : Signed DeviceBinding) (hmem : Certificate.binding signed ∈ proof)
      (hissuer : signed.issuer = op.issuer)
      (hadded : op.payload.added? = some signed.payload.device)
  | remove (doc device : Bytes32) (preds : List OpHash) (detail : Nat)
      (hop : op.payload = .remove doc device preds detail)
      (h : RemovalGrounds certs op.issuer device)

omit [Loro] [Postcard] in
/-- An operation of the holder of a key, who holds these certificates. -/
structure Emitted (signer : Bytes32) (certs : CapabilityStore) (op : ControlOp)
    (proof : List Certificate) : Prop where
  issuer : op.issuer = signer
  introduced : Introduced op
  grounded : Grounded certs op proof

/-- A call took these operations in: each was broadcast, or had been delivered. -/
def Accounted (s s' : WorkspaceState) (effects : List Effect) (offered : List AuthorizedOp) :
    Prop :=
  ∃ added, Evolves s.cgka s'.cgka added offered ∧ ∀ op ∈ added,
    (∃ proof, (op, proof) ∈ sent effects) ∨ ∃ a, (a ∈ s.cgka.parked ∨ a ∈ offered) ∧ a.op = op

/-- What a successful call did to the operation graph. -/
structure Moves (s s' : WorkspaceState) (effects : List Effect) (offered : List AuthorizedOp) :
    Prop where
  accounted : Accounted s s' effects offered
  emitted : Placed s.cgka → ∀ p ∈ sent effects, Emitted s.cgka.signer s'.cgka.certs p.1 p.2

/-- What a successful call that is not about the namespace did to it: removals bump
the counter, and ask for a capability. -/
structure Bumps (s s' : WorkspaceState) (effects : List Effect) : Prop where
  ticket : s'.namespaceTicket = s.namespaceTicket
  rises : s.namespaceEpoch.rank ≤ s'.namespaceEpoch.rank
  quiet : (∀ e ∈ effects, e.aboutNamespace = false) → s'.namespaceEpoch = s.namespaceEpoch
  rotates : ∀ e ∈ effects, e.aboutNamespace = true → ∃ epoch, e = .rotateNamespace epoch
  asked : ∀ epoch, .rotateNamespace epoch ∈ effects →
    satSucc s.namespaceEpoch.epoch ≤ epoch ∧ epoch ≤ s'.namespaceEpoch.epoch

/-- What a failed call leaves behind: nothing taken in, as long as it is safe. -/
structure Fails (s s' : WorkspaceState) (offered : List AuthorizedOp) (safe : Prop) : Prop where
  evolves : ∃ added, Evolves s.cgka s'.cgka added offered ∧ (safe → added = [])
  current : safe → s'.cgka.currentMembers = s.cgka.currentMembers
  namespaceEpoch : s'.namespaceEpoch = s.namespaceEpoch
  namespaceTicket : s'.namespaceTicket = s.namespaceTicket

/-! ## Composition -/

section Composition

variable {s s' s'' : WorkspaceState} {l l' : List Effect} {o o' : List AuthorizedOp}
  {safe : Prop}

theorem Accounted.refl (s : WorkspaceState) : Accounted s s [] o := ⟨[], .refl _, by simp⟩

theorem Accounted.trans (h : Accounted s s' l o) (h' : Accounted s' s'' l' o') :
    Accounted s s'' (l ++ l') (o ++ o') := by
  obtain ⟨added, hevolves, hadded⟩ := h
  obtain ⟨added', hevolves', hadded'⟩ := h'
  refine ⟨added ++ added', hevolves.trans hevolves', fun op hop => ?_⟩
  rcases List.mem_append.mp hop with hop | hop
  · rcases hadded op hop with ⟨proof, hsent⟩ | ⟨a, ha, hop⟩
    · exact Or.inl ⟨proof, by simp [hsent]⟩
    · exact Or.inr ⟨a, ha.imp_right (List.mem_append_left _), hop⟩
  · rcases hadded' op hop with ⟨proof, hsent⟩ | ⟨a, ha | ha, hop⟩
    · exact Or.inl ⟨proof, by simp [hsent]⟩
    · exact Or.inr ⟨a, (hevolves.parked a ha).imp_right (List.mem_append_left _), hop⟩
    · exact Or.inr ⟨a, Or.inr (List.mem_append_right _ ha), hop⟩

theorem Accounted.evolves (h : Accounted s s' l o) : ∃ added, Evolves s.cgka s'.cgka added o :=
  h.imp fun _ h => h.1

/-- A call that broadcasts nothing moves whatever it took in. -/
theorem Moves.of_silent (h : Accounted s s' l o) (hsent : sent l = []) : Moves s s' l o :=
  ⟨h, fun _ _ hp => absurd (hsent ▸ hp) List.not_mem_nil⟩

theorem Moves.refl (s : WorkspaceState) : Moves s s [] o := .of_silent (.refl s) rfl

/-- Two steps in a row, where the second leaves the certificates alone or the first
broadcast nothing that rests on them. -/
theorem Moves.trans (h : Moves s s' l o) (h' : Moves s' s'' l' o')
    (hcerts : sent l = [] ∨ s''.cgka.certs = s'.cgka.certs) :
    Moves s s'' (l ++ l') (o ++ o') where
  accounted := h.accounted.trans h'.accounted
  emitted := by
    intro hplaced p hp
    obtain ⟨added, hevolves⟩ := h.accounted.evolves
    rw [sent_append, List.mem_append] at hp
    rcases hp with hp | hp
    · rcases hcerts with hnil | hsame
      · exact absurd (hnil ▸ hp) List.not_mem_nil
      · rw [hsame]
        exact h.emitted hplaced p hp
    · have hemitted := h'.emitted (hplaced.evolve hevolves) p hp
      rwa [hevolves.signer] at hemitted

theorem Bumps.of_same (hepoch : s'.namespaceEpoch = s.namespaceEpoch)
    (hticket : s'.namespaceTicket = s.namespaceTicket)
    (hquiet : ∀ e ∈ l, e.aboutNamespace = false) : Bumps s s' l where
  ticket := hticket
  rises := hepoch ▸ le_rfl
  quiet := fun _ => hepoch
  rotates := fun e he h => absurd ((hquiet e he).symm.trans h) Bool.false_ne_true
  asked := fun _ he => absurd (hquiet _ he).symm Bool.false_ne_true

theorem Bumps.refl (s : WorkspaceState) : Bumps s s [] := .of_same rfl rfl (by simp)

theorem Bumps.trans (h : Bumps s s' l) (h' : Bumps s' s'' l') : Bumps s s'' (l ++ l') where
  ticket := h'.ticket.trans h.ticket
  rises := h.rises.trans h'.rises
  quiet := fun hquiet =>
    (h'.quiet fun e he => hquiet e (List.mem_append_right _ he)).trans
      (h.quiet fun e he => hquiet e (List.mem_append_left _ he))
  rotates := fun e he => (List.mem_append.mp he).elim (h.rotates e) (h'.rotates e)
  asked := by
    intro epoch he
    rcases List.mem_append.mp he with he | he
    · obtain ⟨hlow, hhigh⟩ := h.asked epoch he
      exact ⟨hlow, hhigh.trans (NamespaceEpoch.epoch_le_of_rank_le h'.rises)⟩
    · obtain ⟨hlow, hhigh⟩ := h'.asked epoch he
      exact ⟨(satSucc_mono (NamespaceEpoch.epoch_le_of_rank_le h.rises)).trans hlow, hhigh⟩

/-- A step that took nothing in and did not touch the members or the namespace. -/
theorem Fails.of_evolves (h : Evolves s.cgka s'.cgka [] o)
    (hcurrent : s'.cgka.currentMembers = s.cgka.currentMembers)
    (hepoch : s'.namespaceEpoch = s.namespaceEpoch)
    (hticket : s'.namespaceTicket = s.namespaceTicket) : Fails s s' o safe :=
  ⟨⟨[], h, fun _ => rfl⟩, fun _ => hcurrent, hepoch, hticket⟩

/-- A failure after a step that took nothing in. -/
theorem Fails.after (h : Fails s s' o True) (h' : Fails s' s'' o' safe) :
    Fails s s'' (o ++ o') safe where
  evolves := by
    obtain ⟨added, hevolves, hnil⟩ := h.evolves
    obtain ⟨added', hevolves', hnil'⟩ := h'.evolves
    exact ⟨added ++ added', hevolves.trans hevolves', fun hs => by simp [hnil trivial, hnil' hs]⟩
  current := fun hs => (h'.current hs).trans (h.current trivial)
  namespaceEpoch := h'.namespaceEpoch.trans h.namespaceEpoch
  namespaceTicket := h'.namespaceTicket.trans h.namespaceTicket

/-- A step that took nothing in, with effects that broadcast nothing. -/
theorem Fails.moves (h : Fails s s' o True) (hsent : sent l = []) : Moves s s' l o := by
  obtain ⟨added, hevolves, hnil⟩ := h.evolves
  obtain rfl := hnil trivial
  exact .of_silent ⟨[], hevolves, by simp⟩ hsent

theorem Fails.bumps (h : Fails s s' o True) (hquiet : ∀ e ∈ l, e.aboutNamespace = false) :
    Bumps s s' l :=
  .of_same h.namespaceEpoch h.namespaceTicket hquiet

theorem Fails.weaken {safe' : Prop} (h : Fails s s' o safe) (himp : safe' → safe) :
    Fails s s' o safe' where
  evolves := by
    obtain ⟨added, hevolves, hnil⟩ := h.evolves
    exact ⟨added, hevolves, fun hs => hnil (himp hs)⟩
  current := fun hs => h.current (himp hs)
  namespaceEpoch := h.namespaceEpoch
  namespaceTicket := h.namespaceTicket

/-- A failure that is ruled out where the call is safe. -/
theorem Fails.of_risky {added : List ControlOp} (h : Evolves s.cgka s'.cgka added o)
    (hepoch : s'.namespaceEpoch = s.namespaceEpoch)
    (hticket : s'.namespaceTicket = s.namespaceTicket) (hsafe : ¬ safe) : Fails s s' o safe :=
  ⟨⟨added, h, fun hs => absurd hs hsafe⟩, fun hs => absurd hs hsafe, hepoch, hticket⟩

theorem moves_of_rekeys {ops : List ControlOp} (h : Rekeys s.cgka s'.cgka ops)
    (hsent : sent l = ops.map fun op => (op, [])) : Moves s s' l [] where
  accounted := by
    refine ⟨ops, h.progress.evolves, fun op hop => Or.inl ⟨[], ?_⟩⟩
    rw [hsent]
    exact List.mem_map.mpr ⟨op, hop, rfl⟩
  emitted := by
    intro hplaced p hp
    rw [hsent] at hp
    obtain ⟨op, hop, rfl⟩ := List.mem_map.mp hp
    exact ⟨h.issued op hop, h.introduced hplaced op hop, .update (h.updates op hop)⟩

theorem Rekeyed.moves {ops : List ControlOp} (h : Rekeyed s s' ops)
    (hsent : sent l = ops.map fun op => (op, [])) : Moves s s' l [] :=
  moves_of_rekeys h.cgka hsent

theorem Rekeyed.fails {ops : List ControlOp} (h : Rekeyed s s' ops) (hnil : safe → ops = []) :
    Fails s s' [] safe where
  evolves := ⟨ops, h.cgka.progress.evolves, hnil⟩
  current := fun _ => h.cgka.current
  namespaceEpoch := h.namespaceEpoch
  namespaceTicket := h.namespaceTicket

end Composition

namespace WorkspaceState

/-! ## Specifications of programs -/

/-- The program's specification: what it is offered, and when a failure of it takes
nothing in. -/
def Advances (offered : List AuthorizedOp) (safe : WorkspaceState → Prop)
    (x : Run (List Effect)) : Prop :=
  ∀ s rng, Wp x (fun effects p => Moves s p.1 effects offered ∧ Bumps s p.1 effects)
    (fun _ p => Fails s p.1 offered (safe s)) (s, rng)

theorem Emits.advances {x : Run (List Effect)} (h : Publishes x) :
    Advances [] (fun _ => Steady) x := by
  intro s rng
  refine (h s rng).mono ?_ ?_
  · rintro effects p ⟨ops, hrekeyed, hsent, hquiet⟩
    exact ⟨hrekeyed.moves hsent,
      .of_same hrekeyed.namespaceEpoch hrekeyed.namespaceTicket hquiet⟩
  · rintro e p ⟨ops, hrekeyed, hnil⟩
    exact hrekeyed.fails hnil

/-- The program takes nothing in and leaves the members and the namespace alone, though
it may add certificates. -/
def Still {α : Type} (x : Run α) : Prop :=
  ∀ s rng, Wp x (fun _ p => Fails s p.1 [] True) (fun _ p => Fails s p.1 [] True) (s, rng)

theorem Harmless.still {α : Type} {x : Run α} (h : Harmless x) : Still x := fun s rng =>
  (h s rng).mono (fun _ _ h => h.fails fun _ => rfl) fun _ _ h => h.fails fun _ => rfl

theorem Still.advances {α : Type} {x : Run α} {f : α → Run (List Effect)}
    {offered : List AuthorizedOp} {safe : Prop} (hx : Still x)
    (hf : ∀ a, Advances offered (fun _ => safe) (f a)) :
    Advances offered (fun _ => safe) (x >>= f) := by
  intro s rng
  refine (hx s rng).seq ?_ fun _ p h => ?_
  · intro a p h
    have hmoves : Moves s p.1 [] [] := h.moves rfl
    have hbumps : Bumps s p.1 [] := h.bumps (by simp)
    refine (hf a p.1 p.2).mono ?_ ?_
    · rintro effects p' ⟨hmoves', hbumps'⟩
      exact ⟨hmoves.trans hmoves' (Or.inl rfl), hbumps.trans hbumps'⟩
    · exact fun e p' hfails => h.after hfails
  · have hrefl : Fails p.1 p.1 offered safe := .of_evolves (.refl _) rfl rfl rfl
    exact h.after hrefl

theorem Advances.weaken {x : Run (List Effect)} {offered : List AuthorizedOp}
    {safe safe' : WorkspaceState → Prop} (h : Advances offered safe x)
    (himp : ∀ s, safe' s → safe s) : Advances offered safe' x := fun s rng =>
  (h s rng).mono (fun _ _ => id) fun _ _ hfails => hfails.weaken (himp s)

/-! ## Checks -/

section Checks

variable {s : WorkspaceState} {rng : Rng}

theorem requireAdmin_spec :
    Wp requireAdmin
      (fun _ p => p = (s, rng) ∧ s.capabilities.mayAdminister s.memberId = true)
      (fun _ p => p = (s, rng)) (s, rng) := by
  unfold requireAdmin
  rw [wp_bind, wp_self]
  dsimp only
  split_ifs with hadmin
  · exact ⟨rfl, hadmin⟩
  · rfl

theorem requireMayAddDeviceTo_spec (user : Bytes32) :
    Wp (requireMayAddDeviceTo user)
      (fun _ p => p = (s, rng) ∧ s.capabilities.mayBindDeviceTo s.memberId user = true)
      (fun _ p => p = (s, rng)) (s, rng) := by
  unfold requireMayAddDeviceTo
  rw [wp_bind, wp_self]
  dsimp only
  split_ifs with hmay
  · exact ⟨rfl, hmay⟩
  · rfl

theorem requireNotLastAdmin_spec (user : Bytes32) :
    Wp (requireNotLastAdmin user) (fun _ p => p = (s, rng)) (fun _ p => p = (s, rng))
      (s, rng) := by
  unfold requireNotLastAdmin
  rw [wp_bind, wp_self]
  dsimp only
  split_ifs
  · rfl
  · rfl

/-- What a quorum check that passes found. -/
theorem requireQuorum_spec (action : AdminAction) :
    Wp (requireQuorum action)
      (fun _ p => p = (s, rng) ∧ s.capabilities.mayAdminister s.memberId = true ∧
        (s.capabilities.threshold ≤ defaultThreshold ∨
          ∃ digest, (digest, action) ∈ s.capabilities.executable))
      (fun _ p => p = (s, rng)) (s, rng) := by
  unfold requireQuorum
  refine requireAdmin_spec.seq ?_ fun _ _ => id
  rintro _ p ⟨rfl, hadmin⟩
  rw [wp_bind, wp_self]
  dsimp only
  split_ifs with hthreshold hany
  · exact ⟨rfl, hadmin, Or.inl hthreshold⟩
  · obtain ⟨⟨digest, found⟩, hmem, haction⟩ := List.any_eq_true.mp hany
    obtain rfl : found = action := by simpa using haction
    exact ⟨rfl, hadmin, Or.inr ⟨digest, hmem⟩⟩
  · rfl

end Checks

end WorkspaceState

end IrohBeekem
