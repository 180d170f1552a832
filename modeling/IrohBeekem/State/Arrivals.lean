import IrohBeekem.State.Membership

/-!
# Arriving operations and certificates

An operation that arrives is merged or parked, and what was parked is retried;
certificates are absorbed, and may let a quorum decide.  What these handlers take
in was delivered: it arrived with the call, or was parked before it.
-/

set_option linter.unusedSectionVars false

namespace IrohBeekem

open Library CgkaController

variable [Keyhive] [Beekem] [Loro] [Postcard] [LawfulBeekem]

/-! ## Refusals -/

/-- With steady libraries, merging fails only by refusing. -/
theorem mergeVerified_refuses (hsteady : Steady) (a : AuthorizedOp) (c : CgkaController) :
    Wp (mergeVerified a) (fun _ _ => True)
      (fun e _ => (∃ issuer, e = .unauthorized issuer) ∨ ∃ issuer, e = .uncertified issuer) c := by
  unfold mergeVerified
  rw [wp_bind, wp_get]
  dsimp only
  split_ifs with hpreds hknown
  · rw [wp_bind, wp_verdict]
    cases hauth : authorize c.certs a.op.payload a.op.issuer with
    | error err => exact Or.inr ⟨_, authorize_error hauth⟩
    | ok u =>
        obtain ⟨applied, g, hrun⟩ := hsteady.merges a.op c.cgka
          ((LawfulBeekem.containsPredecessors_iff c.cgka _).mp hpreds)
        dsimp only
        rw [wp_bind, wp_attempt, onTree, wp_zoom]
        unfold Wp
        rw [hrun]
        cases applied <;> trivial
  · exact Or.inl ⟨_, rfl⟩
  · trivial

theorem pendingRound_clean (hsteady : Steady) (queue : List AuthorizedOp) (total : Nat)
    (c : CgkaController) :
    Wp (pendingRound queue total none) (fun r _ => r.2 = none) (fun _ _ => False) c := by
  induction queue generalizing c total with
  | nil => rfl
  | cons a rest ih =>
      unfold pendingRound
      rw [wp_bind, wp_attempt]
      refine (mergeVerified_refuses hsteady a c).mono ?_ ?_
      · intro outcome c' _
        cases outcome with
        | applied => exact ih _ c'
        | duplicate => exact ih _ c'
        | deferred => exact ih _ c'
      · rintro e c' (⟨issuer, rfl⟩ | ⟨issuer, rfl⟩)
        · exact ih _ c'
        · exact ih _ c'

theorem pendingRounds_clean (hsteady : Steady) (fuel total : Nat) (c : CgkaController) :
    Wp (pendingRounds fuel total none) (fun _ _ => True) (fun _ _ => False) c := by
  induction fuel generalizing c total with
  | zero => trivial
  | succ fuel ih =>
      unfold pendingRounds
      rw [wp_bind, wp_get, wp_bind, wp_set]
      refine (pendingRound_clean hsteady c.parked total { c with parked := [] }).seq ?_
        fun _ _ => id
      rintro ⟨total', firstError⟩ c' hnone
      obtain rfl : firstError = none := hnone
      dsimp only
      split_ifs
      · trivial
      · exact ih total' c'

/-- With steady libraries, draining the queue of operations does not fail. -/
theorem mergePending_clean (hsteady : Steady) (c : CgkaController) :
    Wp mergePending (fun _ _ => True) (fun _ _ => False) c := by
  unfold mergePending
  rw [wp_bind, wp_get]
  exact pendingRounds_clean hsteady _ _ c

namespace WorkspaceState

/-! ## Draining both queues -/

/-- A call that broadcasts nothing and leaves the namespace alone. -/
structure Takes (s s' : WorkspaceState) (effects : List Effect) (offered : List AuthorizedOp) :
    Prop where
  accounted : Accounted s s' effects offered
  silent : Silent effects
  namespaceEpoch : s'.namespaceEpoch = s.namespaceEpoch
  namespaceTicket : s'.namespaceTicket = s.namespaceTicket
  executedHere : s'.executedHere = s.executedHere

omit [LawfulBeekem] in
theorem Takes.moves {s s' : WorkspaceState} {effects : List Effect} {offered : List AuthorizedOp}
    (h : Takes s s' effects offered) : Moves s s' effects offered ∧ Bumps s s' effects :=
  ⟨.of_silent h.accounted h.silent.sent,
    .of_same h.namespaceEpoch h.namespaceTicket h.silent.quiet⟩

omit [LawfulBeekem] in
theorem Takes.trans {s s' s'' : WorkspaceState} {l l' : List Effect} {o o' : List AuthorizedOp}
    (h : Takes s s' l o) (h' : Takes s' s'' l' o') : Takes s s'' (l ++ l') (o ++ o') where
  accounted := h.accounted.trans h'.accounted
  silent := h.silent.append h'.silent
  namespaceEpoch := h'.namespaceEpoch.trans h.namespaceEpoch
  namespaceTicket := h'.namespaceTicket.trans h.namespaceTicket
  executedHere := h'.executedHere.trans h.executedHere

omit [LawfulBeekem] in
/-- A failure that steady libraries rule out. -/
theorem Takes.fails {s s' : WorkspaceState} {l : List Effect} {o : List AuthorizedOp}
    (h : Takes s s' l o) (hunsteady : ¬ Steady) : Fails s s' o Steady := by
  obtain ⟨added, hevolves⟩ := h.accounted.evolves
  exact .of_risky hevolves h.namespaceEpoch h.namespaceTicket hunsteady

/-- Retrying both queues takes in what was parked, and broadcasts nothing. -/
theorem drainQueues_spec (s : WorkspaceState) (rng : Rng) :
    Wp (do
      let _ ← onCgka CgkaController.mergePending
      drainPending)
      (fun effects p => Takes s p.1 effects [] ∧ p.1.cgka.certs = s.cgka.certs)
      (fun _ p => ¬ Steady ∧ Takes s p.1 [] [] ∧ p.1.cgka.certs = s.cgka.certs) (s, rng) := by
  have hclean : Wp mergePending (fun _ _ => True) (fun _ _ => ¬ Steady) s.cgka := by
    by_cases hsteady : Steady
    · exact (mergePending_clean hsteady s.cgka).mono (fun _ _ => id) fun _ _ => False.elim
    · unfold Wp
      split
      · trivial
      · exact hsteady
  rw [wp_bind, wp_onCgka]
  have htakes : ∀ c : CgkaController,
      (∃ added, Merges s.cgka c added [] ∧ ∀ op ∈ added, ∃ a ∈ s.cgka.parked, a.op = op) →
      Takes s { s with cgka := c } [] [] ∧ c.certs = s.cgka.certs := by
    rintro c ⟨added, hmerges, hadded⟩
    refine ⟨⟨⟨added, hmerges.progress.evolves, fun op hop => Or.inr ?_⟩, .nil, rfl, rfl, rfl⟩,
      hmerges.certs⟩
    obtain ⟨a, ha, hop⟩ := hadded op hop
    exact ⟨a, Or.inl ha, hop⟩
  refine ((mergePending_merges s.cgka).and hclean).mono ?_ ?_
  · rintro total c ⟨hmerges, -⟩
    obtain ⟨hmerged, hcerts⟩ := htakes c hmerges
    refine (drainPending_spec { s with cgka := c } rng).mono ?_ fun _ _ => False.elim
    rintro effects p ⟨hrekeyed, hsilent⟩
    have hdrained : Takes { s with cgka := c } p.1 effects [] :=
      ⟨(hrekeyed.moves hsilent.sent).accounted, hsilent, hrekeyed.namespaceEpoch,
        hrekeyed.namespaceTicket, hrekeyed.executedHere⟩
    exact ⟨hmerged.trans hdrained, hrekeyed.cgka.certs.trans hcerts⟩
  · rintro e c ⟨hmerges, hsteady⟩
    exact ⟨hsteady, htakes c hmerges⟩

/-! ## Arriving operations -/

omit [LawfulBeekem] in
theorem evictIfSpliced_silent (s : WorkspaceState) (op : CgkaOperation OpHash) (issuer : Bytes32) :
    Silent (s.evictIfSpliced op issuer) := by
  cases op with
  | add doc added pk preds detail =>
      dsimp only [evictIfSpliced]
      split_ifs
      · exact .nil
      · exact ⟨rfl, by simp [Effect.aboutNamespace]⟩
      · exact .nil
  | remove doc removed preds detail => exact .nil
  | update doc preds detail => exact .nil

/-- An arriving operation is taken in, with what was waiting for it, or parked, or
refused; one without a proof leaves the certificates alone. -/
theorem onControlOp_spec (a : AuthorizedOp) (s : WorkspaceState) (rng : Rng) :
    Wp (onControlOp a)
      (fun effects p => Takes s p.1 effects [a] ∧
        p.1.cgka.certs = (s.cgka.certs.extend a.proof).2)
      (fun _ p => Fails s p.1 [a] Steady ∧ Takes s p.1 [] [a] ∧
        (p.1.cgka.certs = s.cgka.certs ∨ p.1.cgka.certs = (s.cgka.certs.extend a.proof).2))
      (s, rng) := by
  unfold onControlOp
  rw [wp_bind, wp_onCgka]
  refine (merge_progress s.cgka a).mono ?_ ?_
  · rintro outcome c ⟨hprogress, hcerts⟩
    have htakes : Takes s { s with cgka := c } [] [a] := by
      refine ⟨⟨_, hprogress.evolves, fun op hop => Or.inr ⟨a, ?_⟩⟩, .nil, rfl, rfl, rfl⟩
      split_ifs at hop
      · exact ⟨Or.inr List.mem_cons_self, (List.mem_singleton.mp hop).symm⟩
      · exact absurd hop List.not_mem_nil
    cases outcome with
    | duplicate => exact ⟨htakes, hcerts⟩
    | deferred => exact ⟨htakes, hcerts⟩
    | applied =>
        dsimp only
        rw [← bind_assoc]
        refine (drainQueues_spec { s with cgka := c } rng).seq ?_ ?_
        · rintro effects p ⟨hdrained, hsame⟩
          rw [wp_bind, wp_self]
          have hevict : Takes p.1 p.1 (p.1.evictIfSpliced a.op.payload a.op.issuer) [] :=
            ⟨⟨[], .refl _, by simp⟩, evictIfSpliced_silent _ _ _, rfl, rfl, rfl⟩
          have hall := (htakes.trans hdrained).trans hevict
          exact ⟨by simpa using hall, hsame.trans hcerts⟩
        · rintro e p ⟨hunsteady, hmerged, hsame⟩
          have hall := htakes.trans hmerged
          exact ⟨hall.fails hunsteady, hall, Or.inr (hsame.trans hcerts)⟩
  · rintro e c ⟨hprogress, hcurrent, hcerts⟩
    have htakes : Takes s { s with cgka := c } [] [a] :=
      ⟨⟨[], hprogress.evolves, by simp⟩, .nil, rfl, rfl, rfl⟩
    exact ⟨.of_evolves hprogress.evolves hcurrent rfl rfl, htakes, hcerts⟩

theorem onControlOp_advances (a : AuthorizedOp) :
    Advances [a] (fun _ => Steady) (onControlOp a) := fun s rng =>
  (onControlOp_spec a s rng).mono (fun _ _ h => h.1.moves) fun _ _ h => h.1

omit [Beekem] [Loro] [Postcard] [LawfulBeekem] in
theorem extend_nil (certs : CapabilityStore) : (certs.extend []).2 = certs := rfl

/-- The operations of a log are judged one by one, and leave the certificates
alone. -/
theorem handleLog_spec (now : UnixSeconds) (ops : List ControlOp) (effects : List Effect)
    (s : WorkspaceState) (rng : Rng) :
    Wp (handleLog now ops effects)
      (fun effects' p => ∃ l, effects' = effects ++ l ∧ Takes s p.1 l (ops.map .bare) ∧
        p.1.cgka.certs = s.cgka.certs)
      (fun _ _ => False) (s, rng) := by
  induction ops generalizing effects s rng with
  | nil => exact ⟨[], by simp, ⟨⟨[], .refl _, by simp⟩, .nil, rfl, rfl, rfl⟩, rfl⟩
  | cons op rest ih =>
      have hnext : ∀ (effects l : List Effect) (p : WorkspaceState × Rng),
          Takes s p.1 l [.bare op] → p.1.cgka.certs = s.cgka.certs →
          Wp (handleLog now rest (effects ++ l))
            (fun effects' p => ∃ l, effects' = effects ++ l ∧
              Takes s p.1 l ((op :: rest).map .bare) ∧ p.1.cgka.certs = s.cgka.certs)
            (fun _ _ => False) p := by
        intro effects l p htakes hcerts
        refine (ih (effects ++ l) p.1 p.2).mono ?_ fun _ _ => id
        rintro effects' p' ⟨l', rfl, htakes', hcerts'⟩
        exact ⟨l ++ l', by simp, htakes.trans htakes', hcerts'.trans hcerts⟩
      unfold handleLog
      rw [wp_bind, wp_attempt]
      refine (onControlOp_spec (.bare op) s rng).mono ?_ ?_
      · rintro more p ⟨htakes, hcerts⟩
        exact hnext effects more p htakes (hcerts.trans (extend_nil _))
      · rintro e p ⟨-, htakes, hcerts⟩
        have hsame : p.1.cgka.certs = s.cgka.certs := hcerts.elim id id
        simpa using hnext effects [] p htakes hsame

/-! ## Arriving certificates -/

theorem onCertsArrived_advances (certs : List Certificate) :
    Advances [] (fun _ => Steady) (onCertsArrived certs) := by
  intro s rng
  unfold onCertsArrived
  rw [wp_bind, wp_onCgka]
  unfold absorbCertificates
  rw [wp_bind, wp_get, wp_bind, wp_set, wp_pure]
  have hstill : Fails s { s with cgka := { s.cgka with certs := (s.cgka.certs.extend certs).2 } }
      [] True := .of_evolves (.of_extend s.cgka certs []) rfl rfl rfl
  have hmoves : ∀ {s' s'' : WorkspaceState} {l : List Effect}, Moves s s' [] [] ∧ Bumps s s' [] →
      Moves s' s'' l [] ∧ Bumps s' s'' l → Moves s s'' l [] ∧ Bumps s s'' l :=
    fun h h' => ⟨h.1.trans h'.1 (Or.inl rfl), h.2.trans h'.2⟩
  have habsorbed : Moves s _ [] [] ∧ Bumps s _ [] := ⟨hstill.moves rfl, hstill.bumps (by simp)⟩
  split_ifs
  · rw [← bind_assoc]
    refine (drainQueues_spec _ rng).seq ?_ ?_
    · rintro effects p ⟨hdrained, -⟩
      refine (runQuorumActions_spec p.1 p.2).seq ?_ fun _ _ => False.elim
      rintro performed p' ⟨l, rfl, hmoves', hbumps', -⟩
      obtain ⟨hmoved, hbumped⟩ := hmoves habsorbed hdrained.moves
      exact ⟨hmoved.trans hmoves' (Or.inl hdrained.silent.sent), hbumped.trans hbumps'⟩
    · rintro e p ⟨hunsteady, hmerged, -⟩
      exact hstill.after (hmerged.fails hunsteady)
  · refine (runQuorumActions_spec _ rng).mono ?_ fun _ _ => False.elim
    rintro effects p ⟨l, rfl, hmoves', hbumps', -⟩
    exact hmoves habsorbed ⟨hmoves', hbumps'⟩

end WorkspaceState

end IrohBeekem
