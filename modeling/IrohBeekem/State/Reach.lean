import IrohBeekem.Keys.Join
import IrohBeekem.State.Call

/-!
# What every run keeps

`Upright` is the invariant of the controller in every state a run reaches, whatever
was delivered to the node: the graph introduces the known members, the current
members are among them, and every certificate held verifies.
-/

set_option linter.unusedSectionVars false

namespace IrohBeekem

open Library CgkaController WorkspaceState

variable [Keyhive] [Beekem] [Loro] [Postcard]

omit [Loro] [Postcard] in
/-- The invariant of a controller in any run. -/
structure Upright (c : CgkaController) : Prop extends Tracked c where
  current : c.currentMembers ⊆ c.knownMembers
  verified : ∀ cert ∈ c.certs.certs, cert.verify = .ok ()

omit [Loro] [Postcard] in
theorem Upright.evolve {c c' : CgkaController} {l : List ControlOp} {o : List AuthorizedOp}
    (h : Upright c) (he : Evolves c c' l o) : Upright c' where
  toTracked := h.toTracked.evolve he
  current := he.current h.current
  verified := he.verified h.verified

omit [Beekem] [Loro] [Postcard] in
/-- A store that took in certificates from nothing holds only what verifies. -/
theorem verify_of_mem_new {founder : Bytes32} {bundle : List Certificate} {cert : Certificate}
    (h : cert ∈ ((CapabilityStore.new founder).extend bundle).2.certs) : cert.verify = .ok () := by
  refine (CapabilityStore.verify_of_mem_extend h).resolve_left fun hempty => ?_
  cases cert <;> exact absurd hempty List.not_mem_nil

variable [LawfulBeekem]

/-! ## Joining -/

omit [Loro] [Postcard] in
theorem replay_evolves (c : CgkaController) (ops : List ControlOp) (invited : Bool) :
    Wp (replay ops invited) (fun _ c' => ∃ added offered, Evolves c c' added offered)
      (fun _ _ => True) c := by
  induction ops generalizing c invited with
  | nil => exact ⟨[], [], .refl c⟩
  | cons op rest ih =>
      have hstep : ∀ (d : CgkaController) (flag : Bool), Evolves c d [] [] →
          Wp (merge (.bare op) >>= fun _ => replay rest flag)
            (fun _ c' => ∃ added offered, Evolves c c' added offered) (fun _ _ => True) d := by
        intro d flag hd
        refine (merge_progress d (.bare op)).seq ?_ fun _ _ _ => trivial
        rintro outcome d' ⟨hmerged, -⟩
        refine (ih d' flag).mono ?_ fun _ _ => id
        rintro invited' c' ⟨added, offered, hrest⟩
        exact ⟨_, _, (hd.trans hmerged.evolves).trans hrest⟩
      unfold replay
      rw [wp_bind, wp_get]
      dsimp only
      split
      · exact hstep c invited (.refl c)
      · next pk _ =>
          rw [wp_bind, wp_verdict]
          cases hg : Beekem.withNewOwner c.memberId pk c.shareSecret c.cgka with
          | error err => trivial
          | ok g =>
              have hgrows := LawfulBeekem.withNewOwner_spec _ _ _ _ _ hg
              dsimp only [Except.mapError]
              rw [wp_bind, wp_set]
              exact hstep _ true (.of_tree rfl rfl hgrows rfl rfl rfl (fun _ => Or.inl) id)

omit [Loro] [Postcard] in
theorem adopt_evolves (c : CgkaController) (ops : List ControlOp) (invited : Bool) :
    Wp (adopt ops invited) (fun _ c' => ∃ added offered, Evolves c c' added offered)
      (fun _ _ => True) c := by
  unfold adopt
  refine (replay_evolves c ops invited).seq ?_ fun _ _ _ => trivial
  rintro invited' c' ⟨added, offered, hreplay⟩
  split_ifs
  · refine (mergePending_merges c').seq ?_ fun _ _ _ => trivial
    rintro total c'' ⟨added', hmerges, -⟩
    rw [wp_bind, wp_get]
    split_ifs
    · trivial
    · exact ⟨_, _, hreplay.trans hmerges.progress.evolves⟩
  · trivial

omit [Loro] [Postcard] in
/-- A controller that joined evolved from the first operation of its log, an `Add` that who
it adds has issued. -/
theorem join_inv {treeId signer secret : Bytes32} {ops : List ControlOp}
    {certs : List Certificate} {c : CgkaController}
    (h : CgkaController.join treeId signer secret ops certs = .ok c) :
    ∃ init rest doc founderId pk detail g added offered, ops = init :: rest ∧
      init.payload = .add doc founderId pk [] detail ∧ init.issuer = founderId ∧
      graph g = {init} ∧ Beekem.initAddOp g = init ∧
      Evolves (joining signer secret founderId g certs) c added offered := by
  unfold CgkaController.join at h
  cases ops with
  | nil => exact absurd h (by simp)
  | cons init rest =>
      dsimp only at h
      cases hpayload : init.payload with
      | add doc founderId founderPk predecessors detail =>
          rw [hpayload] at h
          dsimp only at h
          split_ifs at h with hpreds hverify hissuer
          cases hg : Beekem.newFromInitAdd treeId founderId founderPk init with
          | error err =>
              rw [hg] at h
              exact absurd h (by simp)
          | ok g =>
              rw [hg] at h
              dsimp only at h
              obtain ⟨hgraph, hinit⟩ := LawfulBeekem.newFromInitAdd_spec _ _ _ _ _ hg
              have hadopt := adopt_evolves (joining signer secret founderId g certs) rest
                (decide (founderId = signer))
              unfold Wp at hadopt
              cases hrun : adopt rest (decide (founderId = signer))
                  (joining signer secret founderId g certs) with
              | error err d =>
                  rw [hrun] at h
                  exact absurd h (by simp)
              | ok u d =>
                  rw [hrun] at h hadopt
                  obtain ⟨added, offered, hevolves⟩ := hadopt
                  obtain rfl := Except.ok.inj h
                  rw [not_not] at hpreds hissuer
                  subst hpreds
                  exact ⟨init, rest, doc, founderId, founderPk, detail, g, added, offered, rfl,
                    hpayload, hissuer, hgraph, hinit, hevolves⟩
      | remove doc removed preds detail =>
          rw [hpayload] at h
          exact absurd h (by simp)
      | update doc preds detail =>
          rw [hpayload] at h
          exact absurd h (by simp)

omit [Loro] [Postcard] in
/-- Whatever log a controller joined from, it is upright. -/
theorem join_upright {treeId signer secret : Bytes32} {ops : List ControlOp}
    {certs : List Certificate} {c : CgkaController}
    (h : CgkaController.join treeId signer secret ops certs = .ok c) : Upright c := by
  obtain ⟨init, rest, doc, founderId, pk, detail, g, added, offered, -, hpayload, -, hgraph, -,
    hevolves⟩ := join_inv h
  have hstart : Upright (joining signer secret founderId g certs) := by
    refine ⟨⟨fun m => ?_, rfl⟩, Finset.Subset.refl _, fun cert hcert => ?_⟩
    · change m ∈ ({founderId} : Finset Bytes32) ↔ ∃ op ∈ graph g, _
      simp [hgraph, hpayload, CgkaOperation.added?, eq_comm]
    · exact verify_of_mem_new hcert
  exact hstart.evolve hevolves

/-! ## Runs -/

theorem Resumed.upright {s s' : WorkspaceState} (h : Resumed s s') (hs : Upright s.cgka) :
    Upright s'.cgka where
  known := by
    intro m
    rw [h.known, h.cgka]
    exact hs.known m
  signer := h.signer.trans h.memberId.symm
  current := by
    rw [h.current, h.known]
    exact hs.current
  verified := by
    rw [h.certs]
    exact fun _ => verify_of_mem_new

/-- In every state a run reaches, the controller is upright. -/
theorem Reachable.upright {s : WorkspaceState} (h : Reachable s) : Upright s.cgka := by
  induction h with
  | found hcreate hfound =>
      have hcoherent := Coherent.of_create hcreate rfl
      exact Upright.evolve ⟨hcoherent.toTracked, hcoherent.current, hcoherent.verified⟩
        (found_spec hfound).1
  | joined secret epoch hjoin => exact join_upright hjoin
  | @call s _ call rng ih =>
      refine Wp.after (P := fun p : WorkspaceState × Rng => Upright p.1.cgka)
        ((call.moves s rng).mono ?_ ?_)
      · intro effects p h
        obtain ⟨added, hevolves⟩ := h.accounted.evolves
        exact ih.evolve hevolves
      · intro err p h
        obtain ⟨added, hevolves, -⟩ := h.evolves
        exact ih.evolve hevolves
  | @restart s _ order rng ih =>
      refine Wp.after (P := fun p : WorkspaceState × Rng => Upright p.1.cgka)
        ((restart_spec order s rng).mono ?_ ?_)
      · exact fun _ p h => h.upright ih
      · exact fun _ p h => h ▸ ih

end IrohBeekem
