import IrohBeekem.State.Advance

/-!
# The handlers that change the membership

Removals are made one by one, on a member's request, by a quorum, or because a
user leaves; each has its grounds in the certificates at hand.  Additions come
with the binding they rest on.  The loops that perform several removals are
handled by induction over what is left to do.
-/

set_option linter.unusedSectionVars false

namespace IrohBeekem

open Library CgkaController

variable [Keyhive] [Beekem] [Loro] [Postcard] [LawfulBeekem]

omit [Beekem] [Loro] [Postcard] [LawfulBeekem] in
/-- What is ready to be performed was executed. -/
theorem CapabilityStore.isExecutedAction_of_executable {s : CapabilityStore} {digest : Bytes32}
    {action : AdminAction} (h : (digest, action) ∈ s.executable) :
    s.isExecutedAction action = true := by
  obtain ⟨found, hmem, hfound⟩ := List.mem_filterMap.mp h
  obtain ⟨signed, hsigned, heq⟩ := Option.map_eq_some_iff.mp hfound
  obtain ⟨rfl, rfl⟩ := Prod.mk.inj heq
  refine List.any_eq_true.mpr ⟨found, hmem, ?_⟩
  rw [hsigned]
  simp

omit [Beekem] [Loro] [Postcard] [LawfulBeekem] in
theorem memberFromBytes_ok {bytes member : Bytes32} (h : memberFromBytes bytes = .ok member) :
    member = bytes := by
  unfold memberFromBytes at h
  split_ifs at h
  exact (Except.ok.inj h).symm

namespace WorkspaceState

/-! ## Removals -/

/-- What retracting one leaf does, before its effects are collected. -/
theorem retract_spec (member : Bytes32) (s : WorkspaceState) (rng : Rng) :
    Wp (onCgka (CgkaController.removeMember member))
      (fun op p => ∃ c, p = ({ s with cgka := c }, rng) ∧ Progress s.cgka c op.toList [] ∧
        c.certs = s.cgka.certs ∧ (op = none → c.currentMembers = s.cgka.currentMembers) ∧
        ∀ o ∈ op, Minted s.cgka.signer s.cgka.cgka o ∧
          ∃ doc preds detail, o.payload = .remove doc member preds detail)
      (fun _ p => Fails s p.1 [] True ∧ p.1.cgka.certs = s.cgka.certs) (s, rng) := by
  rw [wp_onCgka]
  refine (removeMember_spec s.cgka member).mono ?_ ?_
  · rintro op c ⟨hprogress, hcerts, hcurrent, hop⟩
    exact ⟨c, rfl, hprogress, hcerts, hcurrent, hop⟩
  · rintro e c ⟨hprogress, hcerts, hcurrent⟩
    exact ⟨.of_evolves hprogress.evolves hcurrent rfl rfl, hcerts⟩

omit [Loro] [Postcard] [LawfulBeekem] in
/-- A removal the local member minted, with its grounds. -/
theorem emitted_of_removal {c : CgkaController} {op : ControlOp} {member : Bytes32}
    {proof : List Certificate} (hminted : Minted c.signer c.cgka op)
    (hop : ∃ doc preds detail, op.payload = .remove doc member preds detail)
    (hgrounds : c.signer = c.memberId → RemovalGrounds c.certs c.signer member)
    (hplaced : Placed c) :
    Emitted c.signer c.certs op proof := by
  obtain ⟨doc, preds, detail, hpayload⟩ := hop
  refine ⟨hminted.issuer, hplaced.introduced hminted, ?_⟩
  exact .remove doc member preds detail hpayload (hminted.issuer ▸ hgrounds hplaced.signer)

/-- A state that took in one removal and broadcasts it. -/
theorem moves_of_removal {s s' : WorkspaceState} {op : ControlOp} {member : Bytes32}
    {proof : List Certificate} {effects : List Effect}
    (hprogress : Progress s.cgka s'.cgka [op] []) (hcerts : s'.cgka.certs = s.cgka.certs)
    (hminted : Minted s.cgka.signer s.cgka.cgka op)
    (hop : ∃ doc preds detail, op.payload = .remove doc member preds detail)
    (hgrounds : s.cgka.signer = s.cgka.memberId →
      RemovalGrounds s.cgka.certs s.cgka.signer member)
    (hsent : sent effects = [(op, proof)]) : Moves s s' effects [] where
  accounted := by
    refine ⟨[op], hprogress.evolves, fun o ho => Or.inl ⟨proof, ?_⟩⟩
    rw [List.mem_singleton.mp ho, hsent]
    exact List.mem_singleton_self _
  emitted := by
    intro hplaced p hp
    rw [hsent] at hp
    rw [List.mem_singleton.mp hp, hcerts]
    exact emitted_of_removal hminted hop hgrounds hplaced

omit [LawfulBeekem] in
/-- A removal asks for a new capability. -/
theorem bumps_of_rotation {s s' : WorkspaceState} {op : ControlOp} {proof : List Certificate}
    {epoch : U32} (hticket : s'.namespaceTicket = s.namespaceTicket)
    (hepoch : s'.namespaceEpoch =
      { s.namespaceEpoch with epoch := satSucc s.namespaceEpoch.epoch })
    (hasked : epoch = satSucc s.namespaceEpoch.epoch) :
    Bumps s s' [.broadcastOp op proof, .rotateNamespace epoch] where
  ticket := hticket
  rises := by
    rw [hepoch, NamespaceEpoch.rank, NamespaceEpoch.rank, Prod.Lex.toLex_le_toLex]
    exact (le_satSucc s.namespaceEpoch.epoch).lt_or_eq.imp_right fun heq => ⟨heq, le_rfl⟩
  quiet := fun hquiet => absurd (hquiet (.rotateNamespace epoch) (by simp)) (by simp [Effect.aboutNamespace])
  rotates := by
    intro e he habout
    simp only [List.mem_cons, List.not_mem_nil, or_false] at he
    rcases he with rfl | rfl
    · exact absurd habout Bool.false_ne_true
    · exact ⟨epoch, rfl⟩
  asked := by
    intro epoch' he
    obtain rfl : epoch' = epoch := by simpa using he
    rw [hepoch]
    exact ⟨hasked.ge, hasked.le⟩

/-- A removal whose authorisation is decided. -/
theorem performRemoval_spec (member : Bytes32) (s : WorkspaceState) (rng : Rng)
    (hgrounds : s.cgka.certs.threshold ≤ defaultThreshold ∨
      s.cgka.certs.isExecutedAction (.removeMember member) = true) :
    Wp (performRemoval member)
      (fun effects p => (Moves s p.1 effects [] ∧ Bumps s p.1 effects) ∧
        p.1.cgka.certs = s.cgka.certs)
      (fun _ p => Fails s p.1 [] True ∧ p.1.cgka.certs = s.cgka.certs) (s, rng) := by
  have hrefl : Fails s s [] True := .of_evolves (.refl _) rfl rfl rfl
  unfold performRemoval
  rw [wp_bind, wp_self]
  -- the guard against stripping the last admin either fails or changes nothing
  have hguard : ∀ {k : Run (List Effect)} {user : Bytes32} {Q : List Effect → _ → Prop},
      Wp k Q (fun _ p => Fails s p.1 [] True ∧ p.1.cgka.certs = s.cgka.certs) (s, rng) →
      Wp (do requireNotLastAdmin user; k) Q
        (fun _ p => Fails s p.1 [] True ∧ p.1.cgka.certs = s.cgka.certs) (s, rng) := by
    intro k user Q hk
    refine (requireNotLastAdmin_spec user).seq ?_ ?_
    · rintro _ p rfl
      exact hk
    · rintro _ p rfl
      exact ⟨hrefl, rfl⟩
  dsimp only
  split_ifs
  on_goal 1 => refine hguard ?_
  all_goals
    refine (retract_spec member s rng).seq ?_ fun _ _ => id
    rintro op p ⟨c, rfl, hprogress, hcerts, -, hop⟩
    cases op with
    | none =>
        have haccounted : Accounted s { s with cgka := c } [] [] :=
          ⟨[], hprogress.evolves, by simp⟩
        exact ⟨⟨.of_silent haccounted rfl, .of_same rfl rfl (by simp)⟩, hcerts⟩
    | some op =>
        obtain ⟨hminted, hremove⟩ := hop op rfl
        exact ⟨⟨moves_of_removal hprogress hcerts hminted hremove
          (fun _ => Or.inr (Or.inr (Or.inr hgrounds))) rfl,
          bumps_of_rotation rfl rfl rfl⟩, hcerts⟩

theorem onRemoveMember_advances (member : Bytes32) :
    Advances [] (fun _ => True) (onRemoveMember member) := by
  intro s rng
  unfold onRemoveMember
  refine (requireQuorum_spec (.removeMember member)).seq ?_ ?_
  · rintro _ p ⟨rfl, -, hgrounds⟩
    have hgrounds' : s.cgka.certs.threshold ≤ defaultThreshold ∨
        s.cgka.certs.isExecutedAction (.removeMember member) = true := by
      refine hgrounds.imp_right ?_
      rintro ⟨digest, hmem⟩
      exact CapabilityStore.isExecutedAction_of_executable hmem
    exact (performRemoval_spec member s rng hgrounds').mono (fun _ _ h => h.1) fun _ _ h => h.1
  · rintro _ p rfl
    exact .of_evolves (.refl _) rfl rfl rfl

/-! ### What a quorum decided -/

/-- A loop of steps that keep the certificates: it adds to the effects it was given,
and does not fail. -/
def Appends (effects : List Effect) (s : WorkspaceState) (effects' : List Effect)
    (s' : WorkspaceState) : Prop :=
  ∃ l, effects' = effects ++ l ∧ Moves s s' l [] ∧ Bumps s s' l ∧ s'.cgka.certs = s.cgka.certs

omit [LawfulBeekem] in
theorem Appends.refl (effects : List Effect) (s : WorkspaceState) :
    Appends effects s effects s := ⟨[], by simp, .refl s, .refl s, rfl⟩

omit [LawfulBeekem] in
/-- A step before the rest of the loop. -/
theorem Appends.step {effects effects' l : List Effect} {s s' s'' : WorkspaceState}
    (h : Appends (effects ++ l) s' effects' s'') (hmoves : Moves s s' l [])
    (hbumps : Bumps s s' l) (hcerts : s'.cgka.certs = s.cgka.certs) :
    Appends effects s effects' s'' := by
  obtain ⟨l', rfl, hmoves', hbumps', hcerts'⟩ := h
  exact ⟨l ++ l', by simp, hmoves.trans hmoves' (Or.inr hcerts'), hbumps.trans hbumps',
    hcerts'.trans hcerts⟩

omit [LawfulBeekem] in
/-- A step that took nothing in and broadcast nothing. -/
theorem Appends.skip {effects effects' : List Effect} {s s' s'' : WorkspaceState}
    (h : Appends effects s' effects' s'') (hfails : Fails s s' [] True)
    (hcerts : s'.cgka.certs = s.cgka.certs) : Appends effects s effects' s'' := by
  have h' : Appends (effects ++ []) s' effects' s'' := by simpa using h
  exact h'.step (hfails.moves rfl) (hfails.bumps (by simp)) hcerts

theorem performActions_spec (pending : List (Bytes32 × AdminAction)) (effects : List Effect)
    (s : WorkspaceState) (rng : Rng)
    (hpending : ∀ entry ∈ pending, s.cgka.certs.isExecutedAction entry.2 = true) :
    Wp (performActions pending effects) (fun effects' p => Appends effects s effects' p.1)
      (fun _ _ => False) (s, rng) := by
  induction pending generalizing effects s rng with
  | nil => exact .refl effects s
  | cons entry rest ih =>
      obtain ⟨digest, action⟩ := entry
      have hrest : ∀ entry ∈ rest, s.cgka.certs.isExecutedAction entry.2 = true :=
        fun entry hentry => hpending entry (List.mem_cons_of_mem _ hentry)
      -- noting that an action was performed changes neither the membership nor the namespace
      have hdone : ∀ (effects : List Effect) (s' : WorkspaceState) (rng : Rng),
          s'.cgka.certs = s.cgka.certs →
          Wp (do
            update fun s => { s with executedHere := s.executedHere.insert digest }
            performActions rest effects)
            (fun effects' p => Appends effects s' effects' p.1) (fun _ _ => False) (s', rng) := by
        intro effects s' rng hcerts
        rw [wp_bind, wp_update]
        refine (ih effects _ rng ?_).mono ?_ fun _ _ => id
        · exact fun entry hentry => hcerts ▸ hrest entry hentry
        · intro effects' p h
          exact h.skip (.of_evolves (.refl _) rfl rfl rfl) rfl
      unfold performActions
      cases action with
      | setRole user role => exact hdone effects s rng rfl
      | removeMember member =>
          dsimp only
          cases hmember : memberFromBytes member with
          | error err => exact hdone effects s rng rfl
          | ok found =>
              obtain rfl := memberFromBytes_ok hmember
              dsimp only
              rw [wp_bind, wp_attempt]
              refine (performRemoval_spec found s rng
                (Or.inr (hpending _ List.mem_cons_self))).mono ?_ ?_
              · rintro produced p ⟨⟨hmoves, hbumps⟩, hcerts⟩
                refine (hdone (effects ++ produced) p.1 p.2 hcerts).mono ?_ fun _ _ => id
                exact fun effects' p' h => h.step hmoves hbumps hcerts
              · rintro err p ⟨hfails, hcerts⟩
                refine (ih effects p.1 p.2 ?_).mono ?_ fun _ _ => id
                · exact fun entry hentry => hcerts ▸ hrest entry hentry
                · exact fun effects' p' h => h.skip hfails hcerts

theorem runQuorumActions_spec (s : WorkspaceState) (rng : Rng) :
    Wp runQuorumActions (fun effects p => Appends [] s effects p.1) (fun _ _ => False)
      (s, rng) := by
  unfold runQuorumActions
  rw [wp_bind, wp_self]
  refine performActions_spec _ [] s rng fun entry hentry => ?_
  exact CapabilityStore.isExecutedAction_of_executable (List.mem_filter.mp hentry).1

/-! ### Leaving -/

omit [Loro] [Postcard] [LawfulBeekem] in
/-- How the library retracts leaves, told by who holds one: whoever holds none is
left alone, the last one to hold one stays, and anybody else goes. -/
structure Roster (leaves : Cgka → Finset Bytes32) : Prop where
  absent : ∀ member signer g, member ∉ leaves g →
    ∃ g', Beekem.remove member signer g = .ok none g' ∧ leaves g' = leaves g
  last : ∀ member signer g, leaves g = {member} →
    ∃ err g', Beekem.remove member signer g = .error err g'
  present : ∀ member signer g, member ∈ leaves g → leaves g ≠ {member} →
    ∃ op g', Beekem.remove member signer g = .ok (some op) g' ∧
      leaves g' = (leaves g).erase member

omit [Loro] [Postcard] [LawfulBeekem] in
/-- Nobody is stranded when these devices leave: somebody else holds a leaf, or there
is at most one to give up. -/
def Leavable (leaves : Cgka → Finset Bytes32) (devices : List Bytes32) (g : Cgka) : Prop :=
  (∃ m ∈ leaves g, m ∉ devices) ∨ (leaves g).card ≤ 1

/-- What a retraction says about who holds a leaf. -/
theorem retract_roster (member : Bytes32) (s : WorkspaceState) (rng : Rng) :
    Wp (onCgka (CgkaController.removeMember member))
      (fun op p => ∀ leaves, Roster leaves →
        op = none ∧ member ∉ leaves s.cgka.cgka ∧ leaves p.1.cgka.cgka = leaves s.cgka.cgka ∨
        op ≠ none ∧ member ∈ leaves s.cgka.cgka ∧ leaves s.cgka.cgka ≠ {member} ∧
          leaves p.1.cgka.cgka = (leaves s.cgka.cgka).erase member)
      (fun _ _ => ∀ leaves, Roster leaves → leaves s.cgka.cgka = {member}) (s, rng) := by
  rw [wp_onCgka]
  unfold CgkaController.removeMember CgkaController.onTree
  rw [wp_bind, wp_get, wp_bind, wp_zoom]
  have hcases : ∀ leaves, Roster leaves →
      (member ∉ leaves s.cgka.cgka ∧ ∃ g',
        Beekem.remove member s.cgka.signer s.cgka.cgka = .ok none g' ∧
          leaves g' = leaves s.cgka.cgka) ∨
      (leaves s.cgka.cgka = {member} ∧
        ∃ err g', Beekem.remove member s.cgka.signer s.cgka.cgka = .error err g') ∨
      (member ∈ leaves s.cgka.cgka ∧ leaves s.cgka.cgka ≠ {member} ∧
        ∃ op g', Beekem.remove member s.cgka.signer s.cgka.cgka = .ok (some op) g' ∧
          leaves g' = (leaves s.cgka.cgka).erase member) := by
    intro leaves hroster
    by_cases hmem : member ∈ leaves s.cgka.cgka
    · by_cases hlast : leaves s.cgka.cgka = {member}
      · exact Or.inr (Or.inl ⟨hlast, hroster.last _ _ _ hlast⟩)
      · exact Or.inr (Or.inr ⟨hmem, hlast, hroster.present _ _ _ hmem hlast⟩)
    · exact Or.inl ⟨hmem, hroster.absent _ _ _ hmem⟩
  unfold Wp
  cases hrun : Beekem.remove member s.cgka.signer s.cgka.cgka with
  | error err g =>
      intro leaves hroster
      have h := hcases leaves hroster
      simp only [hrun, reduceCtorEq, false_and, exists_false, false_or, and_false, or_false] at h
      exact h.1
  | ok op g =>
      have h := hcases
      simp only [hrun, EStateM.Result.ok.injEq, reduceCtorEq, exists_false, and_false,
        false_or] at h
      cases op with
      | none =>
          intro leaves hroster
          rcases h leaves hroster with ⟨hout, g', ⟨-, rfl⟩, hleaves⟩ | ⟨-, -, op, g', ⟨hop, -⟩, -⟩
          · exact Or.inl ⟨rfl, hout, hleaves⟩
          · exact absurd hop (by simp)
      | some op =>
          intro leaves hroster
          rcases h leaves hroster with ⟨-, g', ⟨hop, -⟩, -⟩ | ⟨hmem, hlast, op', g', ⟨-, rfl⟩, hleaves⟩
          · exact absurd hop (by simp)
          · exact Or.inr ⟨by simp, hmem, hlast, hleaves⟩

/-- How the removal of a user's devices fails: nobody else holds a leaf, and if there
was at most one then nothing was taken in. -/
structure Stranded (devices : List Bytes32) (s s' : WorkspaceState) : Prop where
  evolves : ∃ added, Evolves s.cgka s'.cgka added [] ∧ ∀ leaves, Roster leaves →
    (leaves s.cgka.cgka).card ≤ 1 →
      added = [] ∧ s'.cgka.currentMembers = s.cgka.currentMembers
  inside : ∀ leaves, Roster leaves → ∀ m ∈ leaves s.cgka.cgka, m ∈ devices
  namespaceEpoch : s'.namespaceEpoch = s.namespaceEpoch
  namespaceTicket : s'.namespaceTicket = s.namespaceTicket

omit [LawfulBeekem] in
theorem Stranded.fails {devices : List Bytes32} {s s' : WorkspaceState}
    (h : Stranded devices s s') :
    Fails s s' [] (∃ leaves, Roster leaves ∧ Leavable leaves devices s.cgka.cgka) := by
  obtain ⟨added, hevolves, hnil⟩ := h.evolves
  have hsafe : (∃ leaves, Roster leaves ∧ Leavable leaves devices s.cgka.cgka) →
      added = [] ∧ s'.cgka.currentMembers = s.cgka.currentMembers := by
    rintro ⟨leaves, hroster, ⟨m, hmem, hout⟩ | hcard⟩
    · exact absurd (h.inside leaves hroster m hmem) hout
    · exact hnil leaves hroster hcard
  exact ⟨⟨added, hevolves, fun hs => (hsafe hs).1⟩, fun hs => (hsafe hs).2, h.namespaceEpoch,
    h.namespaceTicket⟩

omit [LawfulBeekem] in
/-- A failure after one more device: it held no leaf, or it was not the last to. -/
theorem Stranded.step {member : Bytes32} {rest : List Bytes32} {s s' s'' : WorkspaceState}
    {added : List ControlOp} (h : Stranded rest s' s'')
    (hevolves : Evolves s.cgka s'.cgka added [])
    (hepoch : s'.namespaceEpoch = s.namespaceEpoch)
    (hticket : s'.namespaceTicket = s.namespaceTicket)
    (hleaves : ∀ leaves, Roster leaves →
      added = [] ∧ s'.cgka.currentMembers = s.cgka.currentMembers ∧
        leaves s'.cgka.cgka = leaves s.cgka.cgka ∨
      member ∈ leaves s.cgka.cgka ∧ leaves s.cgka.cgka ≠ {member} ∧
        leaves s'.cgka.cgka = (leaves s.cgka.cgka).erase member) : Stranded (member :: rest) s s'' where
  evolves := by
    obtain ⟨added', hevolves', hnil'⟩ := h.evolves
    refine ⟨added ++ added', hevolves.trans hevolves', fun leaves hroster hcard => ?_⟩
    rcases hleaves leaves hroster with ⟨rfl, hcurrent, hsame⟩ | ⟨hmem, hlast, -⟩
    · rw [← hsame] at hcard
      obtain ⟨rfl, hcurrent'⟩ := hnil' leaves hroster hcard
      exact ⟨rfl, hcurrent'.trans hcurrent⟩
    · exact absurd (Finset.card_le_one_iff_subset_singleton.mp hcard) fun ⟨m, hm⟩ => by
        have heq := Finset.mem_singleton.mp (hm hmem)
        exact hlast (Finset.Subset.antisymm (heq ▸ hm) (Finset.singleton_subset_iff.mpr hmem))
  inside := by
    intro leaves hroster m hm
    rcases hleaves leaves hroster with ⟨-, -, hsame⟩ | ⟨-, -, herase⟩
    · exact List.mem_cons_of_mem _ (h.inside leaves hroster m (hsame ▸ hm))
    · by_cases hmember : m = member
      · exact hmember ▸ List.mem_cons_self
      · refine List.mem_cons_of_mem _ (h.inside leaves hroster m ?_)
        rw [herase]
        exact Finset.mem_erase.mpr ⟨hmember, hm⟩
  namespaceEpoch := h.namespaceEpoch.trans hepoch
  namespaceTicket := h.namespaceTicket.trans hticket

theorem removeDevices_spec (devices : List Bytes32) (effects : List Effect) (s : WorkspaceState)
    (rng : Rng)
    (hgrounds : s.cgka.signer = s.cgka.memberId → ∀ device ∈ devices,
      RemovalGrounds s.cgka.certs s.cgka.signer device) :
    Wp (removeDevices devices effects) (fun effects' p => Appends effects s effects' p.1)
      (fun _ p => Stranded devices s p.1) (s, rng) := by
  induction devices generalizing effects s rng with
  | nil => exact .refl effects s
  | cons device rest ih =>
      have hrest : s.cgka.signer = s.cgka.memberId → ∀ device ∈ rest,
          RemovalGrounds s.cgka.certs s.cgka.signer device :=
        fun hself d hd => hgrounds hself d (List.mem_cons_of_mem _ hd)
      unfold removeDevices
      cases hdevice : memberFromBytes device with
      | error err =>
          refine (ih effects s rng hrest).mono (fun _ _ => id) fun _ _ h => ?_
          exact { h with inside := fun l hl m hm => List.mem_cons_of_mem _ (h.inside l hl m hm) }
      | ok member =>
          obtain rfl := memberFromBytes_ok hdevice
          dsimp only
          refine ((retract_spec member s rng).and (retract_roster member s rng)).seq ?_ ?_
          · rintro op p ⟨⟨c, rfl, hprogress, hcerts, hcurrent, hop⟩, hleaves⟩
            have hrest' : c.signer = c.memberId → ∀ device ∈ rest,
                RemovalGrounds c.certs c.signer device := by
              rw [hcerts, hprogress.evolves.signer, hprogress.evolves.memberId]
              exact hrest
            cases op with
            | none =>
                refine (ih effects { s with cgka := c } rng hrest').mono ?_ ?_
                · intro effects' p h
                  exact h.skip (.of_evolves hprogress.evolves (hcurrent rfl) rfl rfl) hcerts
                · intro e p h
                  refine h.step hprogress.evolves rfl rfl fun leaves hroster => Or.inl ?_
                  rcases hleaves leaves hroster with ⟨-, -, hsame⟩ | ⟨hnot, -⟩
                  · exact ⟨rfl, hcurrent rfl, hsame⟩
                  · exact absurd rfl hnot
            | some op =>
                obtain ⟨hminted, hremove⟩ := hop op rfl
                have hmoves : Moves s { s with cgka := c } [.broadcast op] [] :=
                  moves_of_removal hprogress hcerts hminted hremove
                    (fun hself => hgrounds hself member List.mem_cons_self) rfl
                refine (ih (effects ++ [.broadcast op]) { s with cgka := c } rng hrest').mono ?_ ?_
                · intro effects' p h
                  exact h.step hmoves (.of_same rfl rfl (by simp [Effect.broadcast,
                    Effect.aboutNamespace])) hcerts
                · intro e p h
                  refine h.step hprogress.evolves rfl rfl fun leaves hroster => Or.inr ?_
                  rcases hleaves leaves hroster with ⟨hnone, -⟩ | ⟨-, herase⟩
                  · exact absurd hnone (by simp)
                  · exact herase
          · rintro e p ⟨⟨hfails, -⟩, hlast⟩
            obtain ⟨added, hevolves, hnil⟩ := hfails.evolves
            refine ⟨⟨added, hevolves, fun _ _ _ => ⟨hnil trivial, hfails.current trivial⟩⟩, ?_,
              hfails.namespaceEpoch, hfails.namespaceTicket⟩
            intro leaves hroster m hm
            rw [hlast leaves hroster, Finset.mem_singleton] at hm
            exact hm ▸ List.mem_cons_self

omit [LawfulBeekem] in
/-- Whoever leaves has grounds for each of the removals. -/
theorem leavingDevices_grounds (s : WorkspaceState) :
    ∀ device ∈ s.leavingDevices, RemovalGrounds s.cgka.certs s.cgka.memberId device := by
  intro device hdevice
  unfold leavingDevices at hdevice
  dsimp only at hdevice
  split_ifs at hdevice
  · exact Or.inl (List.mem_singleton.mp hdevice)
  · obtain ⟨⟨found, user⟩, hentry, rfl⟩ := List.mem_map.mp hdevice
    obtain ⟨hmem, huser⟩ := List.mem_filter.mp hentry
    have howner : s.cgka.certs.userOf found = some user := BTreeMap.get?_eq_some.mpr hmem
    have hname : user = (s.capabilities.userOf s.memberId).getD s.memberId := by simpa using huser
    cases hself : s.cgka.certs.userOf s.cgka.memberId with
    | none =>
        refine Or.inr (Or.inr (Or.inl ⟨hself, ?_⟩))
        rw [howner, hname]
        simp [capabilities, memberId, hself]
    | some u =>
        refine Or.inr (Or.inl ⟨u, ?_, hself⟩)
        rw [howner, hname]
        simp [capabilities, memberId, hself]

theorem onLeave_advances :
    Advances [] (fun s => ∃ leaves, Roster leaves ∧
      Leavable leaves s.leavingDevices s.cgka.cgka) onLeave := by
  intro s rng
  unfold onLeave
  rw [wp_bind, wp_self]
  refine (requireNotLastAdmin_spec _).seq ?_ ?_
  · rintro _ p rfl
    have hgrounds : s.cgka.signer = s.cgka.memberId → ∀ device ∈ s.leavingDevices,
        RemovalGrounds s.cgka.certs s.cgka.signer device :=
      fun hself => hself ▸ leavingDevices_grounds s
    refine (removeDevices_spec s.leavingDevices [] s rng hgrounds).mono ?_ fun _ _ h => h.fails
    rintro effects p ⟨l, rfl, hmoves, hbumps, -⟩
    exact ⟨hmoves, hbumps⟩
  · rintro _ p rfl
    exact .of_evolves (.refl _) rfl rfl rfl

/-! ## Certificates -/

omit [LawfulBeekem] in
/-- Signing a payload adds to the certificates and to nothing else. -/
theorem certify_spec (p : Payload) (s : WorkspaceState) (rng : Rng) :
    Wp (onCgka (certify p))
      (fun cert q => (∃ certs, q = ({ s with cgka := { s.cgka with certs } }, rng)) ∧
        Evolves s.cgka q.1.cgka [] [] ∧ ∃ signature, cert = p.certificate s.cgka.signer signature)
      (fun _ q => q = (s, rng)) (s, rng) := by
  rw [wp_onCgka]
  refine ((certify_run s.cgka p).and (certify_evolves s.cgka p)).mono ?_ ?_
  · rintro cert c ⟨⟨hsign, isNew, certs, -, rfl⟩, hevolves⟩
    refine ⟨⟨certs, rfl⟩, hevolves, ?_⟩
    unfold Payload.sign at hsign
    cases htry : Keyhive.trySign s.cgka.signer p with
    | ok signature =>
        rw [htry] at hsign
        exact ⟨signature, (Except.ok.inj hsign).symm⟩
    | error message =>
        rw [htry] at hsign
        exact absurd hsign (by simp)
  · rintro e c ⟨rfl, -⟩
    rfl

omit [LawfulBeekem] in
theorem certify_still (p : Payload) : Still (onCgka (certify p)) := by
  intro s rng
  refine (certify_spec p s rng).mono ?_ ?_
  · rintro cert q ⟨⟨certs, rfl⟩, hevolves, -⟩
    exact .of_evolves hevolves rfl rfl rfl
  · rintro e q rfl
    exact .of_evolves (.refl _) rfl rfl rfl

omit [LawfulBeekem] in
theorem certifyRole_spec (user : Bytes32) (role : Role) (nonce : Bytes16) (s : WorkspaceState)
    (rng : Rng) :
    Wp (onCgka (certifyRole user role nonce))
      (fun _ q => (∃ certs, q = ({ s with cgka := { s.cgka with certs } }, rng)) ∧
        Evolves s.cgka q.1.cgka [] [])
      (fun _ q => q = (s, rng)) (s, rng) := by
  have hspec := certify_spec
    (.grant (.new user role (s.cgka.certs.nextSeq user) none nonce)) s rng
  rw [wp_onCgka] at hspec ⊢
  unfold certifyRole
  rw [wp_bind, wp_get]
  exact hspec.mono (fun _ _ h => ⟨h.1, h.2.1⟩) fun _ _ => id

omit [LawfulBeekem] in
theorem certifyRole_still (user : Bytes32) (role : Role) (nonce : Bytes16) :
    Still (onCgka (certifyRole user role nonce)) := by
  intro s rng
  have hspec := certify_still (.grant (.new user role (s.cgka.certs.nextSeq user) none nonce)) s rng
  rw [wp_onCgka] at hspec ⊢
  unfold certifyRole
  rw [wp_bind, wp_get]
  exact hspec

omit [LawfulBeekem] in
/-- A program that ends by returning effects that are silent. -/
theorem advances_pure {effects : List Effect} (h : Silent effects) {safe : Prop} :
    Advances [] (fun _ => safe) (pure effects) := by
  intro s rng
  have hrefl : Fails s s [] True := .of_evolves (.refl _) rfl rfl rfl
  exact ⟨hrefl.moves h.sent, hrefl.bumps h.quiet⟩

omit [LawfulBeekem] in
theorem silent_broadcastCerts (certs : List Certificate) : Silent [.broadcastCerts certs] :=
  ⟨rfl, by simp [Effect.aboutNamespace]⟩

theorem onSetRole_advances (user : Bytes32) (role : Role) :
    Advances [] (fun _ => True) (onSetRole user role) := by
  have hmint : Advances [] (fun _ => True) (do
      let nonce ← randomNonce
      let cert ← onCgka (certifyRole user role nonce)
      return [.broadcastCerts [cert]]) :=
    randomNonce_harmless.still.advances fun nonce =>
      (certifyRole_still user role nonce).advances fun cert =>
        advances_pure (silent_broadcastCerts [cert])
  have hguarded : Advances [] (fun _ => True) (do
      requireNotLastAdmin user
      let nonce ← randomNonce
      let cert ← onCgka (certifyRole user role nonce)
      return [.broadcastCerts [cert]]) :=
    (requireNotLastAdmin_harmless user).still.advances fun _ => hmint
  refine Harmless.self.still.advances fun s => ?_
  dsimp only
  split_ifs
  · exact requireAdmin_harmless.still.advances fun _ => hmint
  · exact requireAdmin_harmless.still.advances fun _ => hguarded
  · exact (requireQuorum_harmless _).still.advances fun _ => advances_pure .nil
  · exact (requireQuorum_harmless _).still.advances fun _ => hmint
  · exact (requireQuorum_harmless _).still.advances fun _ => hguarded

theorem onPropose_advances (action : AdminAction) (expires : Option U64) :
    Advances [] (fun _ => True) (onPropose action expires) :=
  requireAdmin_harmless.still.advances fun _ => Harmless.self.still.advances fun _ =>
    randomNonce_harmless.still.advances fun _ => (certify_still _).advances fun cert =>
      advances_pure (silent_broadcastCerts [cert])

theorem runQuorumActions_advances (before : List Effect) (h : Silent before) :
    Advances [] (fun _ => True) (do
      let performed ← runQuorumActions
      return before ++ performed) := by
  intro s rng
  refine (runQuorumActions_spec s rng).seq ?_ fun _ _ => False.elim
  rintro effects p ⟨l, rfl, hmoves, hbumps, hcerts⟩
  have hrefl : Fails s s [] True := .of_evolves (.refl _) rfl rfl rfl
  exact ⟨(hrefl.moves h.sent).trans hmoves (Or.inl h.sent), (hrefl.bumps h.quiet).trans hbumps⟩

theorem onApprove_advances (proposal : Bytes32) :
    Advances [] (fun _ => True) (onApprove proposal) :=
  requireAdmin_harmless.still.advances fun _ => randomNonce_harmless.still.advances fun _ =>
    (certify_still _).advances fun cert =>
      runQuorumActions_advances [.broadcastCerts [cert]] (silent_broadcastCerts [cert])

/-! ## Additions -/

section Records

variable {m m' : Manifest}

omit [Keyhive] [Beekem] [Postcard] [LawfulBeekem] in
theorem wp_call_ok {α : Type} {x : EStateM String LoroDoc α} {a : α}
    {Q : α → Manifest → Prop} {E : CoreError → Manifest → Prop} (h : x m = .ok a m') :
    Wp (Manifest.call x) Q E m ↔ Q a m' := by
  unfold Manifest.call Wp zoom
  rw [id_eq, h]

omit [Keyhive] [Postcard] [LawfulBeekem] in
/-- A record is written whole, and is then there. -/
theorem record_reliable (hsteady : Steady) (name key field value : String) :
    Wp (do
      Manifest.call (Loro.insertContainer name key)
      Manifest.call (Loro.insert (.nested name key) field value)
      modify Loro.commit)
      (fun _ m' => Loro.get m' (.root name) key = some .map) (fun _ _ => False) m := by
  obtain ⟨d, hcontainer, hmap⟩ := hsteady.insertsContainer name key m
  obtain ⟨d', hinsert, hkept⟩ := hsteady.inserts (.nested name key) field value d
  rw [wp_bind, wp_call_ok hcontainer, wp_bind, wp_call_ok hinsert, wp_modify]
  exact hsteady.commits d' name key (hkept name key (by simp) hmap)

omit [Keyhive] [Postcard] [LawfulBeekem] in
/-- A device that has a record takes an address. -/
theorem setDeviceEndpoint_reliable (hsteady : Steady) {member : Bytes32} (endpoint : Bytes32)
    (h : Loro.get m Manifest.devicesContainer (hex member.toBytes) = some .map) :
    Wp (Manifest.setDeviceEndpoint member endpoint) (fun _ _ => True) (fun _ _ => False) m := by
  unfold Manifest.setDeviceEndpoint
  rw [wp_bind, wp_get, h]
  dsimp only
  obtain ⟨d, hinsert, -⟩ := hsteady.inserts (.nested "devices" (hex member.toBytes)) "endpoint_id"
    (hex endpoint.toBytes) m
  rw [wp_bind, wp_call_ok hinsert]
  trivial

omit [Keyhive] [Postcard] [LawfulBeekem] in
theorem deviceRecords_reliable (hsteady : Steady) (member : Bytes32) (label : String)
    (endpoint : Option Bytes32) :
    Wp (deviceRecords member label endpoint) (fun _ _ => True) (fun _ _ => False) m := by
  unfold deviceRecords
  refine (record_reliable hsteady "devices" (hex member.toBytes) "label" label).seq ?_
    fun _ _ => id
  intro _ m' hmap
  cases endpoint with
  | none => trivial
  | some endpoint => exact setDeviceEndpoint_reliable hsteady endpoint hmap

omit [Keyhive] [Postcard] [LawfulBeekem] in
theorem userRecords_reliable (hsteady : Steady) (member : Bytes32) (displayName : String)
    (endpoint : Option Bytes32) :
    Wp (userRecords member displayName endpoint) (fun _ _ => True) (fun _ _ => False) m := by
  unfold userRecords
  refine (record_reliable hsteady "users" (hex member.toBytes) "display_name" displayName).seq ?_
    fun _ _ => id
  intro _ m' _
  exact deviceRecords_reliable hsteady member "first device" endpoint

end Records

/-- An addition leaves the tree able to key chunks. -/
theorem addMember_reliable (member key : Bytes32) (c : CgkaController) :
    Wp (CgkaController.addMember member key)
      (fun _ c' => Steady → Keyable c.cgka → Keyable c'.cgka) (fun _ _ => True) c := by
  unfold CgkaController.addMember CgkaController.onTree
  rw [wp_bind, wp_get, wp_bind, wp_zoom]
  unfold Wp
  cases hrun : Beekem.add member key c.signer c.cgka with
  | error err g => trivial
  | ok op g =>
      cases op with
      | none => exact fun hsteady hkeyable => hsteady.keyable_add _ _ _ _ _ _ hrun hkeyable
      | some op => exact fun hsteady hkeyable => hsteady.keyable_add _ _ _ _ _ _ hrun hkeyable

/-- Publishing the manifest after a step whose effects are at hand. -/
theorem publishManifest_after {s s' : WorkspaceState} {rng : Rng} {effect : Effect} {safe : Prop}
    (hmoves : Moves s s' [effect] []) (hbumps : Bumps s s' [effect])
    (hfails : ∀ p ops, Rekeyed s' p ops → (Steady → ops = []) →
      (Steady → ¬ Keyable s'.cgka.cgka) → Fails s p [] safe) :
    Wp (do
      let published ← publishManifest .current
      return effect :: published)
      (fun effects p => Moves s p.1 effects [] ∧ Bumps s p.1 effects)
      (fun _ p => Fails s p.1 [] safe) (s', rng) := by
  refine ((publishManifest_publishes .current s' rng).and
    (publishManifest_reliable s' rng)).seq ?_ ?_
  · rintro published p ⟨⟨ops, hrekeyed, hsent, hquiet⟩, -⟩
    have hbumps' : Bumps s' p.1 published :=
      .of_same hrekeyed.namespaceEpoch hrekeyed.namespaceTicket hquiet
    exact ⟨hmoves.trans (hrekeyed.moves hsent) (Or.inr hrekeyed.cgka.certs),
      hbumps.trans hbumps'⟩
  · rintro e p ⟨⟨ops, hrekeyed, hnil⟩, hkeyable⟩
    exact hfails p.1 ops hrekeyed hnil hkeyable

theorem admitLeaf_spec {member shareKey : Bytes32} {certs : List Certificate}
    {record : EStateM CoreError Manifest Unit} (s : WorkspaceState) (rng : Rng)
    (hbinding : ∃ signed, Certificate.binding signed ∈ certs ∧
      signed.issuer = s.cgka.signer ∧ signed.payload.device = member)
    (hrecord : Steady → ∀ m, Wp record (fun _ _ => True) (fun _ _ => False) m) :
    Wp (admitLeaf member shareKey certs record)
      (fun effects p => Moves s p.1 effects [] ∧ Bumps s p.1 effects)
      (fun _ p => Fails s p.1 [] (Steady ∧ Keyable s.cgka.cgka)) (s, rng) := by
  obtain ⟨signed, hmem, hissuer, rfl⟩ := hbinding
  unfold admitLeaf
  rw [wp_bind, wp_onCgka]
  refine ((addMember_spec s.cgka signed.payload.device shareKey).and
    (addMember_reliable signed.payload.device shareKey s.cgka)).mono ?_ ?_
  · rintro op c ⟨⟨hprogress, hcerts, hcurrent, hop⟩, hkeyable⟩
    cases op with
    | none =>
        have hstill : Fails s { s with cgka := c } [] True :=
          .of_evolves hprogress.evolves (hcurrent rfl) rfl rfl
        have hquiet : ∀ e ∈ [Effect.broadcastCerts certs], e.aboutNamespace = false := by
          simp [Effect.aboutNamespace]
        refine publishManifest_after (hstill.moves rfl) (hstill.bumps hquiet) ?_
        intro p ops hrekeyed hnil _
        exact hstill.after (hrekeyed.fails fun hsafe => hnil hsafe.1)
    | some op =>
        obtain ⟨hminted, hadded⟩ := hop op rfl
        -- the addition is in the tree from here on, so no later step may fail
        have hmoves : ∀ s' : WorkspaceState, s'.cgka = c →
            Moves s s' [.broadcastOp op certs] [] := by
          rintro s' rfl
          refine ⟨⟨[op], hprogress.evolves, ?_⟩, ?_⟩
          · intro o ho
            exact Or.inl ⟨certs, by simp [List.mem_singleton.mp ho, sent, Effect.sent?]⟩
          · intro hplaced p hp
            obtain rfl : p = (op, certs) := by simpa [sent, Effect.sent?] using hp
            exact ⟨hminted.issuer, hplaced.introduced hminted,
              .add signed hmem (hissuer.trans hminted.issuer.symm) hadded⟩
        have hlost : ∀ {s' p : WorkspaceState} {ops : List ControlOp}, Rekeyed s' p ops →
            s'.cgka = c → s'.namespaceEpoch = s.namespaceEpoch →
            s'.namespaceTicket = s.namespaceTicket → ¬ (Steady ∧ Keyable s.cgka.cgka) →
            Fails s p [] (Steady ∧ Keyable s.cgka.cgka) := by
          rintro s' p ops hrekeyed rfl hepoch hticket hunsafe
          exact .of_risky (hprogress.evolves.trans hrekeyed.cgka.progress.evolves)
            (hrekeyed.namespaceEpoch.trans hepoch) (hrekeyed.namespaceTicket.trans hticket) hunsafe
        have hquiet : ∀ e ∈ [Effect.broadcastOp op certs], e.aboutNamespace = false := by
          simp [Effect.aboutNamespace]
        dsimp only
        unfold onManifest
        rw [wp_bind, wp_zoom]
        unfold Wp
        cases hrun : record s.manifest with
        | ok u m =>
            refine publishManifest_after (hmoves _ rfl) (.of_same rfl rfl hquiet) ?_
            intro p ops hrekeyed _ hnot
            refine hlost hrekeyed rfl rfl rfl ?_
            exact fun hsafe => hnot hsafe.1 (hkeyable hsafe.1 hsafe.2)
        | error e m =>
            refine hlost (Rekeyed.refl _) rfl rfl rfl fun hsafe => ?_
            have hnever := hrecord hsafe.1 s.manifest
            unfold Wp at hnever
            rw [hrun] at hnever
            exact hnever
  · rintro e c ⟨⟨hprogress, hcerts, hcurrent⟩, -⟩
    exact .of_evolves hprogress.evolves hcurrent rfl rfl

/-- An admission after the certificates it rests on were minted. -/
theorem admitLeaf_after {s s' : WorkspaceState} {rng : Rng} {member user shareKey : Bytes32}
    {nonce : Bytes16} {signature : Bytes64} {rest : List Certificate}
    {record : EStateM CoreError Manifest Unit} (hstill : Fails s s' [] True)
    (hsigner : s'.cgka.signer = s.cgka.signer) (htree : s'.cgka.cgka = s.cgka.cgka)
    (hrecord : Steady → ∀ m, Wp record (fun _ _ => True) (fun _ _ => False) m) :
    Wp (admitLeaf member shareKey
        (Payload.certificate s.cgka.signer signature (.binding (.new member user nonce)) :: rest)
        record)
      (fun effects p => Moves s p.1 effects [] ∧ Bumps s p.1 effects)
      (fun _ p => Fails s p.1 [] (Steady ∧ Keyable s.cgka.cgka)) (s', rng) := by
  refine (admitLeaf_spec s' rng ⟨⟨.new member user nonce, s.cgka.signer, signature⟩,
    List.mem_cons_self, hsigner.symm, rfl⟩ hrecord).mono ?_ ?_
  · rintro effects p ⟨hmoves, hbumps⟩
    have hmoves' : Moves s s' [] [] := hstill.moves rfl
    have hbumps' : Bumps s s' [] := hstill.bumps (by simp)
    exact ⟨hmoves'.trans hmoves (Or.inl rfl), hbumps'.trans hbumps⟩
  · intro e p hfails
    rw [htree] at hfails
    exact hstill.after hfails

theorem onAddDevice_advances (member shareKey user : Bytes32) (label : String)
    (endpoint : Option Bytes32) :
    Advances [] (fun s => Steady ∧ Keyable s.cgka.cgka)
      (onAddDevice member shareKey user label endpoint) := by
  intro s rng
  unfold onAddDevice randomNonce
  rw [wp_bind, wp_bind, wp_get]
  dsimp only
  rw [wp_bind, wp_set, wp_pure]
  refine (certify_spec _ s _).seq ?_ ?_
  · rintro cert q ⟨⟨certs, rfl⟩, hevolves, signature, rfl⟩
    exact admitLeaf_after (.of_evolves hevolves rfl rfl rfl) rfl rfl fun hsteady m =>
      deviceRecords_reliable hsteady member label endpoint
  · rintro e q rfl
    exact .of_evolves (.refl _) rfl rfl rfl

theorem onAddUser_advances (member shareKey : Bytes32) (role : Role) (displayName : String)
    (endpoint : Option Bytes32) :
    Advances [] (fun s => Steady ∧ Keyable s.cgka.cgka)
      (onAddUser member shareKey role displayName endpoint) := by
  intro s rng
  have hrefl : ∀ safe, Fails s s [] safe := fun _ => .of_evolves (.refl _) rfl rfl rfl
  -- the two certificates and the leaf, once the quorum check has passed
  have hadmit : Wp (do
      let nonce ← randomNonce
      let binding ← onCgka (certifyDevice member member nonce)
      let nonce ← randomNonce
      let grant ← onCgka (certifyRole member role nonce)
      admitLeaf member shareKey [binding, grant] (userRecords member displayName endpoint))
      (fun effects p => Moves s p.1 effects [] ∧ Bumps s p.1 effects)
      (fun _ p => Fails s p.1 [] (Steady ∧ Keyable s.cgka.cgka)) (s, rng) := by
    unfold randomNonce
    rw [wp_bind, wp_bind, wp_get]
    dsimp only
    rw [wp_bind, wp_set, wp_pure]
    refine (certify_spec _ s _).seq ?_ ?_
    · rintro binding q ⟨⟨certs, rfl⟩, hevolves, signature, rfl⟩
      have hstill : Fails s { s with cgka := { s.cgka with certs } } [] True :=
        .of_evolves hevolves rfl rfl rfl
      rw [wp_bind, wp_bind, wp_get]
      dsimp only
      rw [wp_bind, wp_set, wp_pure]
      refine (certifyRole_spec member role _ { s with cgka := { s.cgka with certs } } _).seq ?_ ?_
      · rintro grant q ⟨⟨certs', rfl⟩, hevolves'⟩
        exact admitLeaf_after (hstill.after (.of_evolves hevolves' rfl rfl rfl)) rfl rfl
          fun hsteady m => userRecords_reliable hsteady member displayName endpoint
      · rintro e q rfl
        exact hstill.weaken fun _ => trivial
    · rintro e q rfl
      exact hrefl _
  unfold onAddUser
  rw [wp_bind, wp_self]
  dsimp only
  split_ifs
  · refine (requireQuorum_spec _).seq ?_ ?_
    · rintro _ p ⟨rfl, -⟩
      exact hadmit
    · rintro e p rfl
      exact hrefl _
  · exact hadmit

end WorkspaceState

end IrohBeekem
