import IrohBeekem.State.Call

/-!
# Who comes and who goes

Membership changes in three ways only: a call takes in an operation that was delivered
to the node, it mints one for a member it names, or a quorum's decision is carried out.
A `Mandate` says what a call may do by itself, and `Shift` relates the states before
and after it: the members are those the operations it took in leave, and each of these
was delivered or is within the mandate.  Unlike the operations a call broadcasts, this
holds of a failed call as well.
-/

set_option linter.unusedSectionVars false

namespace IrohBeekem

open Library CgkaController

variable [Keyhive] [Beekem] [Loro] [Postcard]

/-- The member an operation takes out. -/
def CgkaOperation.removed? {H : Type} : CgkaOperation H → Option Bytes32
  | .remove _ removed _ _ => some removed
  | _ => none

/-- The last-admin guard refuses to remove this device: it is all its user is certified
for, and the user is the one administrator there is. -/
def CapabilityStore.Refuses (certs : CapabilityStore) (member : Bytes32) : Prop :=
  let owner := (certs.userOf member).getD member
  (certs.devicesOf owner).length ≤ 1 ∧
    (certs.roleOf owner).any Role.canAdminister ∧ certs.adminCount ≤ 1

instance (certs : CapabilityStore) (member : Bytes32) : Decidable (certs.Refuses member) :=
  inferInstanceAs (Decidable (_ ∧ _))

/-- The last-admin guard refuses to let the local user go. -/
def WorkspaceState.LastAdmin (s : WorkspaceState) : Prop :=
  (s.capabilities.roleOf ((s.capabilities.userOf s.memberId).getD s.memberId)).any
    Role.canAdminister ∧ s.capabilities.adminCount ≤ 1

/-- What a call may do beside taking in what was delivered: which members it may take
out and bring in, and which proposals it may mark as carried out. -/
structure Mandate where
  removes : Bytes32 → Prop
  adds : Bytes32 → Prop
  marks : Bytes32 → Prop

def Mandate.Allows (own : Mandate) (op : ControlOp) : Prop :=
  (∀ m, op.payload.removed? = some m → own.removes m) ∧
    ∀ m, op.payload.added? = some m → own.adds m

/-- What a step does to the members, where these operations have been delivered and it
takes in some of those. -/
structure Shift (delivered taken : Set ControlOp) (own : Mandate) (s s' : WorkspaceState) :
    Prop where
  parked : ∀ a ∈ s'.cgka.parked, a.op ∈ delivered
  seats : ∃ added : List ControlOp, s'.cgka.currentMembers = added.foldl seat s.cgka.currentMembers ∧
    ∀ op ∈ added, op ∈ taken ∨ own.Allows op
  executed : ∀ digest ∈ s'.executedHere, digest ∈ s.executedHere ∨ own.marks digest

/-! ## Members after some operations -/

section Seats

variable {members : Finset Bytes32} {l : List ControlOp} {m : Bytes32}

theorem seat_of_removed {op : ControlOp} (h : op.payload.removed? = some m) :
    seat members op = members.erase m := by
  unfold seat
  cases hpayload : op.payload with
  | remove doc removed preds detail =>
      obtain rfl : removed = m := by simpa [hpayload, CgkaOperation.removed?] using h
      rfl
  | add doc added pk preds detail => simp [hpayload, CgkaOperation.removed?] at h
  | update doc preds detail => simp [hpayload, CgkaOperation.removed?] at h

theorem mem_seat {op : ControlOp} (h : m ∈ seat members op) :
    m ∈ members ∨ op.payload.added? = some m := by
  unfold seat at h
  cases hpayload : op.payload with
  | add doc added pk preds detail =>
      rw [hpayload] at h
      exact (Finset.mem_insert.mp h).symm.imp_right fun heq => by rw [heq]; rfl
  | remove doc removed preds detail =>
      rw [hpayload] at h
      exact Or.inl (Finset.mem_of_mem_erase h)
  | update doc preds detail =>
      rw [hpayload] at h
      exact Or.inl h

theorem not_mem_seat {op : ControlOp} (h : m ∉ seat members op) :
    m ∉ members ∨ op.payload.removed? = some m := by
  unfold seat at h
  cases hpayload : op.payload with
  | add doc added pk preds detail =>
      rw [hpayload] at h
      exact Or.inl fun hm => h (Finset.mem_insert_of_mem hm)
  | remove doc removed preds detail =>
      rw [hpayload] at h
      by_cases hm : m ∈ members
      · have heq : removed = m := by
          by_contra hne
          exact h (Finset.mem_erase.mpr ⟨Ne.symm hne, hm⟩)
        exact Or.inr (heq ▸ rfl)
      · exact Or.inl hm
  | update doc preds detail =>
      rw [hpayload] at h
      exact Or.inl h

theorem mem_foldl_seat (h : m ∈ l.foldl seat members) :
    m ∈ members ∨ ∃ op ∈ l, op.payload.added? = some m := by
  induction l generalizing members with
  | nil => exact Or.inl h
  | cons op rest ih =>
      rcases ih h with hm | ⟨op', hop', hadded⟩
      · exact (mem_seat hm).imp_right fun hadded => ⟨op, List.mem_cons_self, hadded⟩
      · exact Or.inr ⟨op', List.mem_cons_of_mem _ hop', hadded⟩

theorem not_mem_foldl_seat (h : m ∉ l.foldl seat members) :
    m ∉ members ∨ ∃ op ∈ l, op.payload.removed? = some m := by
  induction l generalizing members with
  | nil => exact Or.inl h
  | cons op rest ih =>
      rcases ih h with hm | ⟨op', hop', hremoved⟩
      · exact (not_mem_seat hm).imp_right fun hremoved => ⟨op, List.mem_cons_self, hremoved⟩
      · exact Or.inr ⟨op', List.mem_cons_of_mem _ hop', hremoved⟩

end Seats

namespace Shift

variable {delivered taken : Set ControlOp} {own : Mandate} {s s' s'' : WorkspaceState} {m : Bytes32}

/-- Whoever is gone was taken out by an operation that was delivered, or within the
mandate. -/
theorem departed (h : Shift delivered taken own s s') (hbefore : m ∈ s.cgka.currentMembers)
    (hafter : m ∉ s'.cgka.currentMembers) :
    (∃ op ∈ taken, op.payload.removed? = some m) ∨ own.removes m := by
  obtain ⟨added, hmembers, hadded⟩ := h.seats
  rw [hmembers] at hafter
  obtain ⟨op, hop, hremoved⟩ := (not_mem_foldl_seat hafter).resolve_left (not_not.mpr hbefore)
  exact (hadded op hop).imp (fun htaken => ⟨op, htaken, hremoved⟩)
    fun hallows => hallows.1 m hremoved

/-- Whoever is new was brought in by an operation that was delivered, or within the
mandate. -/
theorem entered (h : Shift delivered taken own s s') (hbefore : m ∉ s.cgka.currentMembers)
    (hafter : m ∈ s'.cgka.currentMembers) :
    (∃ op ∈ taken, op.payload.added? = some m) ∨ own.adds m := by
  obtain ⟨added, hmembers, hadded⟩ := h.seats
  rw [hmembers] at hafter
  obtain ⟨op, hop, hin⟩ := (mem_foldl_seat hafter).resolve_left hbefore
  exact (hadded op hop).imp (fun htaken => ⟨op, htaken, hin⟩)
    fun hallows => hallows.2 m hin

theorem of_same (hparked : ∀ a ∈ s'.cgka.parked, a.op ∈ delivered)
    (hcurrent : s'.cgka.currentMembers = s.cgka.currentMembers)
    (hexecuted : s'.executedHere = s.executedHere) : Shift delivered taken own s s' where
  parked := hparked
  seats := ⟨[], hcurrent, by simp⟩
  executed := fun _ hdigest => Or.inl (hexecuted ▸ hdigest)

theorem refl (hparked : ∀ a ∈ s.cgka.parked, a.op ∈ delivered) : Shift delivered taken own s s :=
  .of_same hparked rfl rfl

theorem trans (h : Shift delivered taken own s s') (h' : Shift delivered taken own s' s'') :
    Shift delivered taken own s s'' where
  parked := h'.parked
  seats := by
    obtain ⟨added, hmembers, hadded⟩ := h.seats
    obtain ⟨added', hmembers', hadded'⟩ := h'.seats
    refine ⟨added ++ added', by rw [hmembers', hmembers, List.foldl_append], fun op hop => ?_⟩
    exact (List.mem_append.mp hop).elim (hadded op) (hadded' op)
  executed := by
    intro digest hdigest
    rcases h'.executed digest hdigest with hdigest | hmarks
    · exact h.executed digest hdigest
    · exact Or.inr hmarks

/-- Operations taken in, each delivered or within the mandate. -/
theorem of_evolves {added : List ControlOp} {offered : List AuthorizedOp}
    (h : Evolves s.cgka s'.cgka added offered)
    (hparked : ∀ a ∈ s.cgka.parked, a.op ∈ delivered) (hoffered : ∀ a ∈ offered, a.op ∈ delivered)
    (hadded : ∀ op ∈ added, op ∈ taken ∨ own.Allows op)
    (hexecuted : s'.executedHere = s.executedHere) : Shift delivered taken own s s' where
  parked := fun a ha => (h.parked a ha).elim (hparked a) (hoffered a)
  seats := ⟨added, h.members, hadded⟩
  executed := fun _ hdigest => Or.inl (hexecuted ▸ hdigest)

theorem of_rekeyed {ops : List ControlOp} (h : Rekeyed s s' ops)
    (hparked : ∀ a ∈ s.cgka.parked, a.op ∈ delivered) : Shift delivered taken own s s' := by
  refine .of_same (fun a ha => ?_) h.cgka.current h.executedHere
  exact (h.cgka.progress.evolves.parked a ha).elim (hparked a) fun ha => absurd ha List.not_mem_nil

end Shift

namespace WorkspaceState

/-! ## Programs -/

/-- Every outcome of the program is such a step. -/
def Shifts {α : Type} (delivered taken : Set ControlOp) (own : Mandate) (x : Run α) : Prop :=
  ∀ s rng, (∀ a ∈ s.cgka.parked, a.op ∈ delivered) →
    Wp x (fun _ p => Shift delivered taken own s p.1) (fun _ p => Shift delivered taken own s p.1) (s, rng)

section Programs

variable {α β : Type} {delivered taken : Set ControlOp} {own : Mandate} {x : Run α} {f : α → Run β}

theorem Shifts.pure (a : α) : Shifts delivered taken own (pure a : Run α) :=
  fun _ _ hparked => .refl hparked

theorem Shifts.throw (e : CoreError) : Shifts delivered taken own (throw e : Run α) :=
  fun _ _ hparked => .refl hparked

theorem Shifts.bind (hx : Shifts delivered taken own x) (hf : ∀ a, Shifts delivered taken own (f a)) :
    Shifts delivered taken own (x >>= f) := by
  intro s rng hparked
  refine (hx s rng hparked).seq ?_ fun _ _ => id
  intro a p h
  exact (hf a p.1 p.2 h.parked).mono (fun _ _ h' => h.trans h') fun _ _ h' => h.trans h'

theorem Harmless.shifts (hx : Harmless x) : Shifts delivered taken own x := fun s rng hparked =>
  (hx s rng).mono (fun _ _ h => .of_rekeyed h hparked) fun _ _ h => .of_rekeyed h hparked

theorem Emits.shifts {out : α → List Effect} (hx : Emits out x) : Shifts delivered taken own x := by
  intro s rng hparked
  refine (hx s rng).mono ?_ ?_
  · rintro a p ⟨ops, h, -⟩
    exact .of_rekeyed h hparked
  · rintro e p ⟨ops, h, -⟩
    exact .of_rekeyed h hparked

theorem certify_shifts (p : Payload) : Shifts delivered taken own (onCgka (certify p)) := by
  intro s rng hparked
  refine (certify_spec p s rng).mono ?_ ?_
  · rintro cert q ⟨⟨certs, rfl⟩, -⟩
    exact .of_same hparked rfl rfl
  · rintro e q rfl
    exact .refl hparked

theorem certifyRole_shifts (user : Bytes32) (role : Role) (nonce : Bytes16) :
    Shifts delivered taken own (onCgka (certifyRole user role nonce)) := by
  intro s rng hparked
  refine (certifyRole_spec user role nonce s rng).mono ?_ ?_
  · rintro cert q ⟨⟨certs, rfl⟩, -⟩
    exact .of_same hparked rfl rfl
  · rintro e q rfl
    exact .refl hparked

variable [LawfulBeekem]

/-! ## Additions -/

theorem addMember_shifts {member : Bytes32} (shareKey : Bytes32) (hadds : own.adds member) :
    Shifts delivered taken own (onCgka (addMember member shareKey)) := by
  intro s rng hparked
  rw [wp_onCgka]
  refine (addMember_spec s.cgka member shareKey).mono ?_ ?_
  · rintro op c ⟨hprogress, -, -, hop⟩
    refine .of_evolves hprogress.evolves hparked (by simp) (fun o ho => Or.inr ?_) rfl
    obtain ⟨-, hadded⟩ := hop o (Option.mem_toList.mp ho)
    refine ⟨fun m hremoved => ?_, fun m hm => ?_⟩
    · cases hpayload : o.payload with
      | remove doc removed preds detail => simp [hpayload, CgkaOperation.added?] at hadded
      | add doc added pk preds detail => simp [hpayload, CgkaOperation.removed?] at hremoved
      | update doc preds detail => simp [hpayload, CgkaOperation.removed?] at hremoved
    · rw [Option.some.inj (hm.symm.trans hadded)]
      exact hadds
  · rintro e c ⟨hprogress, -, hcurrent⟩
    refine .of_same (fun a ha => ?_) hcurrent rfl
    exact (hprogress.evolves.parked a ha).elim (hparked a) fun ha => absurd ha List.not_mem_nil

theorem admitLeaf_shifts {member : Bytes32} (shareKey : Bytes32) (certs : List Certificate)
    (record : EStateM CoreError Manifest Unit) (hadds : own.adds member) :
    Shifts delivered taken own (admitLeaf member shareKey certs record) := by
  refine (addMember_shifts shareKey hadds).bind fun op => ?_
  cases op with
  | some op =>
      exact (Harmless.onManifest record).shifts.bind fun _ =>
        (publishManifest_publishes .current).shifts.bind fun _ => .pure _
  | none => exact (publishManifest_publishes .current).shifts.bind fun _ => .pure _

theorem onAddUser_shifts {member : Bytes32} (shareKey : Bytes32) (role : Role)
    (displayName : String) (endpoint : Option Bytes32) (hadds : own.adds member) :
    Shifts delivered taken own (onAddUser member shareKey role displayName endpoint) := by
  have hadmit : Shifts delivered taken own (do
      let nonce ← randomNonce
      let binding ← onCgka (certifyDevice member member nonce)
      let nonce ← randomNonce
      let grant ← onCgka (certifyRole member role nonce)
      admitLeaf member shareKey [binding, grant] (userRecords member displayName endpoint)) :=
    randomNonce_harmless.shifts.bind fun _ => (certify_shifts _).bind fun _ =>
      randomNonce_harmless.shifts.bind fun _ => (certifyRole_shifts member role _).bind fun _ =>
        admitLeaf_shifts shareKey _ _ hadds
  refine Harmless.self.shifts.bind fun s => ?_
  dsimp only
  split_ifs
  · exact (requireQuorum_harmless _).shifts.bind fun _ => hadmit
  · exact hadmit

theorem onAddDevice_shifts {member : Bytes32} (shareKey user : Bytes32) (label : String)
    (endpoint : Option Bytes32) (hadds : own.adds member) :
    Shifts delivered taken own (onAddDevice member shareKey user label endpoint) :=
  randomNonce_harmless.shifts.bind fun _ => (certify_shifts _).bind fun _ =>
    admitLeaf_shifts shareKey _ _ hadds

/-! ## Removals -/

theorem removeMember_shifts {member : Bytes32} (hremoves : own.removes member) :
    Shifts delivered taken own (onCgka (removeMember member)) := by
  intro s rng hparked
  rw [wp_onCgka]
  refine (removeMember_spec s.cgka member).mono ?_ ?_
  · rintro op c ⟨hprogress, -, -, hop⟩
    refine .of_evolves hprogress.evolves hparked (by simp) (fun o ho => Or.inr ?_) rfl
    obtain ⟨-, doc, preds, detail, hpayload⟩ := hop o (Option.mem_toList.mp ho)
    refine ⟨fun m hm => ?_, fun m hm => ?_⟩
    · obtain rfl : member = m := by simpa [hpayload, CgkaOperation.removed?] using hm
      exact hremoves
    · simp [hpayload, CgkaOperation.added?] at hm
  · rintro e c ⟨hprogress, -, hcurrent⟩
    refine .of_same (fun a ha => ?_) hcurrent rfl
    exact (hprogress.evolves.parked a ha).elim (hparked a) fun ha => absurd ha List.not_mem_nil

/-- A removal that was allowed is within the mandate unless the guard refuses it, and
leaves the certificates alone. -/
theorem performRemoval_shift (taken : Set ControlOp) {member : Bytes32} {certs : CapabilityStore}
    (hremoves : ¬ certs.Refuses member → own.removes member) (s : WorkspaceState) (rng : Rng)
    (hcerts : s.cgka.certs = certs) (hparked : ∀ a ∈ s.cgka.parked, a.op ∈ delivered) :
    Wp (performRemoval member)
      (fun _ p => Shift delivered taken own s p.1 ∧ p.1.cgka.certs = certs)
      (fun _ p => Shift delivered taken own s p.1 ∧ p.1.cgka.certs = certs) (s, rng) := by
  obtain rfl := hcerts
  unfold performRemoval requireNotLastAdmin
  rw [wp_bind, wp_self]
  dsimp only
  by_cases hguard : s.capabilities.Refuses member
  · rw [if_pos hguard.1, wp_bind, wp_bind, wp_self]
    dsimp only
    rw [if_pos hguard.2]
    exact ⟨.refl hparked, rfl⟩
  · have hshifts : Shifts delivered taken own (onCgka (removeMember member)) :=
      removeMember_shifts (hremoves hguard)
    split_ifs with hdevices
    on_goal 1 =>
      rw [wp_bind, wp_bind, wp_self]
      dsimp only
      rw [if_neg fun hlast => hguard ⟨hdevices, hlast⟩, wp_pure]
    all_goals
      refine ((hshifts s rng hparked).and (retract_spec member s rng)).seq ?_ ?_
      · rintro op p ⟨hshift, c, rfl, -, hsame, -⟩
        cases op with
        | none => exact ⟨hshift, hsame⟩
        | some op => exact ⟨hshift.trans (.of_same hshift.parked rfl rfl), hsame⟩
      · rintro e p ⟨hshift, -, hsame⟩
        exact ⟨hshift, hsame⟩

theorem performActions_shift {certs : CapabilityStore} (pending : List (Bytes32 × AdminAction))
    (effects : List Effect)
    (hremoves : ∀ digest m, (digest, .removeMember m) ∈ pending → ¬ certs.Refuses m →
      own.removes m)
    (hmarks : ∀ entry ∈ pending, own.marks entry.1) (s : WorkspaceState) (rng : Rng)
    (hcerts : s.cgka.certs = certs) (hparked : ∀ a ∈ s.cgka.parked, a.op ∈ delivered) :
    Wp (performActions pending effects)
      (fun _ p => Shift delivered taken own s p.1 ∧ p.1.cgka.certs = certs)
      (fun _ p => Shift delivered taken own s p.1 ∧ p.1.cgka.certs = certs) (s, rng) := by
  induction pending generalizing effects s rng with
  | nil => exact ⟨.refl hparked, hcerts⟩
  | cons entry rest ih =>
      obtain ⟨digest, action⟩ := entry
      have hrest : ∀ (effects : List Effect) (p : WorkspaceState × Rng),
          Shift delivered taken own s p.1 → p.1.cgka.certs = certs →
          Wp (performActions rest effects)
            (fun _ p => Shift delivered taken own s p.1 ∧ p.1.cgka.certs = certs)
            (fun _ p => Shift delivered taken own s p.1 ∧ p.1.cgka.certs = certs) p := by
        intro effects p hshift hsame
        refine (ih effects (fun d m hm => hremoves d m (List.mem_cons_of_mem _ hm))
          (fun e he => hmarks e (List.mem_cons_of_mem _ he)) p.1 p.2 hsame hshift.parked).mono ?_ ?_
        · exact fun _ _ h => ⟨hshift.trans h.1, h.2⟩
        · exact fun _ _ h => ⟨hshift.trans h.1, h.2⟩
      have hdone : ∀ {s' : WorkspaceState}, Shift delivered taken own s s' →
          Shift delivered taken own s { s' with executedHere := s'.executedHere.insert digest } := by
        intro s' hshift
        refine ⟨hshift.parked, hshift.seats, fun d hd => ?_⟩
        rcases BTreeSet.mem_insert.mp hd with rfl | hd
        · exact Or.inr (hmarks _ List.mem_cons_self)
        · exact hshift.executed d hd
      cases action with
      | setRole user role =>
          exact hrest effects _ (hdone (.refl hparked)) hcerts
      | removeMember member =>
          unfold performActions
          dsimp only
          cases hmember : memberFromBytes member with
          | error err => exact hrest effects _ (hdone (.refl hparked)) hcerts
          | ok found =>
              obtain rfl := memberFromBytes_ok hmember
              dsimp only
              rw [wp_bind, wp_attempt]
              refine (performRemoval_shift taken (hremoves digest found List.mem_cons_self) s rng
                hcerts hparked).mono ?_ ?_
              · rintro produced p ⟨hshift, hsame⟩
                exact hrest (effects ++ produced) _ (hdone hshift) hsame
              · rintro err p ⟨hshift, hsame⟩
                exact hrest effects p hshift hsame

/-- A removal that a quorum has decided on, has not been carried out, and the guard lets
through. -/
def QuorumTarget (s : WorkspaceState) (certs : CapabilityStore) (member : Bytes32) : Prop :=
  ∃ digest, (digest, .removeMember member) ∈ certs.executable ∧ digest ∉ s.executedHere ∧
    ¬ certs.Refuses member

/-- What a quorum pass may do. -/
def quorumMandate (s : WorkspaceState) (certs : CapabilityStore) : Mandate where
  removes := QuorumTarget s certs
  adds _ := False
  marks digest := ∃ action, (digest, action) ∈ certs.executable

theorem runQuorumActions_shift (s : WorkspaceState) (rng : Rng)
    (hparked : ∀ a ∈ s.cgka.parked, a.op ∈ delivered) :
    Wp runQuorumActions
      (fun _ p => Shift delivered taken (quorumMandate s s.cgka.certs) s p.1 ∧
        p.1.cgka.certs = s.cgka.certs)
      (fun _ p => Shift delivered taken (quorumMandate s s.cgka.certs) s p.1 ∧
        p.1.cgka.certs = s.cgka.certs) (s, rng) := by
  unfold runQuorumActions
  rw [wp_bind, wp_self]
  refine performActions_shift _ [] ?_ ?_ s rng rfl hparked
  · intro digest m hmem hguard
    obtain ⟨hexecutable, hnew⟩ := List.mem_filter.mp hmem
    refine ⟨digest, hexecutable, fun hdigest => ?_, hguard⟩
    rw [BTreeSet.contains_iff.mpr hdigest] at hnew
    exact absurd hnew (by simp)
  · exact fun entry hmem => ⟨entry.2, (List.mem_filter.mp hmem).1⟩

/-- A quorum pass after a step that marked nothing as carried out. -/
theorem runQuorumActions_shift_after {s s₁ : WorkspaceState}
    (hshift : ∀ own, Shift delivered taken own s s₁) (hexecuted : s₁.executedHere = s.executedHere)
    (rng : Rng) :
    Wp runQuorumActions
      (fun _ p => Shift delivered taken (quorumMandate s p.1.cgka.certs) s p.1 ∧
        p.1.cgka.certs = s₁.cgka.certs)
      (fun _ p => Shift delivered taken (quorumMandate s p.1.cgka.certs) s p.1 ∧
        p.1.cgka.certs = s₁.cgka.certs) (s₁, rng) := by
  have hmandate : quorumMandate s₁ s₁.cgka.certs = quorumMandate s s₁.cgka.certs := by
    unfold quorumMandate QuorumTarget
    rw [hexecuted]
  have hafter : ∀ p : WorkspaceState × Rng,
      Shift delivered taken (quorumMandate s₁ s₁.cgka.certs) s₁ p.1 ∧ p.1.cgka.certs = s₁.cgka.certs →
      Shift delivered taken (quorumMandate s p.1.cgka.certs) s p.1 ∧
        p.1.cgka.certs = s₁.cgka.certs := by
    rintro p ⟨hpassed, hkept⟩
    rw [hkept]
    exact ⟨(hshift _).trans (hmandate ▸ hpassed), rfl⟩
  exact (runQuorumActions_shift s₁ rng (hshift (quorumMandate s s₁.cgka.certs)).parked).mono
    (fun _ p => hafter p) fun _ p => hafter p

theorem removeDevices_shift (devices : List Bytes32) (effects : List Effect)
    (hremoves : ∀ device ∈ devices, own.removes device) (s : WorkspaceState) (rng : Rng)
    (hparked : ∀ a ∈ s.cgka.parked, a.op ∈ delivered) :
    Wp (removeDevices devices effects)
      (fun _ p => Shift delivered taken own s p.1 ∧ p.1.cgka.certs = s.cgka.certs)
      (fun _ p => Shift delivered taken own s p.1 ∧ p.1.cgka.certs = s.cgka.certs) (s, rng) := by
  induction devices generalizing effects s rng with
  | nil => exact ⟨.refl hparked, rfl⟩
  | cons device rest ih =>
      have hrest := fun effects => ih effects fun d hd => hremoves d (List.mem_cons_of_mem _ hd)
      unfold removeDevices
      cases hmember : memberFromBytes device with
      | error err => exact hrest effects s rng hparked
      | ok member =>
          obtain rfl := memberFromBytes_ok hmember
          have hshifts : Shifts delivered taken own (onCgka (removeMember member)) :=
            removeMember_shifts (hremoves member List.mem_cons_self)
          refine ((hshifts s rng hparked).and (retract_spec member s rng)).seq ?_ ?_
          · rintro op p ⟨hshift, c, rfl, -, hsame, -⟩
            have hnext : ∀ effects, Wp (removeDevices rest effects)
                (fun _ p => Shift delivered taken own s p.1 ∧ p.1.cgka.certs = s.cgka.certs)
                (fun _ p => Shift delivered taken own s p.1 ∧ p.1.cgka.certs = s.cgka.certs)
                ({ s with cgka := c }, rng) := by
              intro effects
              refine (hrest effects _ rng hshift.parked).mono ?_ ?_
              · exact fun _ _ h => ⟨hshift.trans h.1, h.2.trans hsame⟩
              · exact fun _ _ h => ⟨hshift.trans h.1, h.2.trans hsame⟩
            cases op with
            | none => exact hnext effects
            | some op => exact hnext _
          · rintro e p ⟨hshift, -, hsame⟩
            exact ⟨hshift, hsame⟩

/-- Leaving is within the mandate unless the guard refuses it. -/
theorem onLeave_shift (taken : Set ControlOp) (s : WorkspaceState) (rng : Rng)
    (hremoves : ¬ s.LastAdmin → ∀ device ∈ s.leavingDevices, own.removes device)
    (hparked : ∀ a ∈ s.cgka.parked, a.op ∈ delivered) :
    Wp onLeave (fun _ p => Shift delivered taken own s p.1 ∧ p.1.cgka.certs = s.cgka.certs)
      (fun _ p => Shift delivered taken own s p.1 ∧ p.1.cgka.certs = s.cgka.certs) (s, rng) := by
  unfold onLeave requireNotLastAdmin
  rw [wp_bind, wp_self, wp_bind, wp_bind, wp_self]
  dsimp only
  split_ifs with hlast
  · exact ⟨.refl hparked, rfl⟩
  · exact removeDevices_shift _ [] (hremoves hlast) s rng hparked

/-! ## Roles and quorum -/

theorem onSetRole_shifts (user : Bytes32) (role : Role) :
    Shifts delivered taken own (onSetRole user role) := by
  have hmint : Shifts delivered taken own (do
      let nonce ← randomNonce
      let cert ← onCgka (certifyRole user role nonce)
      return [Effect.broadcastCerts [cert]]) :=
    randomNonce_harmless.shifts.bind fun nonce =>
      (certifyRole_shifts user role nonce).bind fun _ => .pure _
  have hguarded : Shifts delivered taken own (do
      requireNotLastAdmin user
      let nonce ← randomNonce
      let cert ← onCgka (certifyRole user role nonce)
      return [Effect.broadcastCerts [cert]]) :=
    (requireNotLastAdmin_harmless user).shifts.bind fun _ => hmint
  refine Harmless.self.shifts.bind fun s => ?_
  dsimp only
  split_ifs
  · exact requireAdmin_harmless.shifts.bind fun _ => hmint
  · exact requireAdmin_harmless.shifts.bind fun _ => hguarded
  · exact (requireQuorum_harmless _).shifts.bind fun _ => .pure _
  · exact (requireQuorum_harmless _).shifts.bind fun _ => hmint
  · exact (requireQuorum_harmless _).shifts.bind fun _ => hguarded

theorem onPropose_shifts (action : AdminAction) (expires : Option U64) :
    Shifts delivered taken own (onPropose action expires) :=
  requireAdmin_harmless.shifts.bind fun _ => Harmless.self.shifts.bind fun _ =>
    randomNonce_harmless.shifts.bind fun _ => (certify_shifts _).bind fun _ => .pure _

/-- What is approved may complete a quorum, under the certificates held then. -/
theorem onApprove_shift (taken : Set ControlOp) (proposal : Bytes32) (s : WorkspaceState)
    (rng : Rng)
    (hparked : ∀ a ∈ s.cgka.parked, a.op ∈ delivered) :
    Wp (onApprove proposal)
      (fun _ p => Shift delivered taken (quorumMandate s p.1.cgka.certs) s p.1)
      (fun _ p => Shift delivered taken (quorumMandate s p.1.cgka.certs) s p.1) (s, rng) := by
  unfold onApprove
  refine requireAdmin_spec.seq ?_ ?_
  · rintro _ p ⟨rfl, -⟩
    unfold randomNonce
    rw [wp_bind, wp_bind, wp_get]
    dsimp only
    rw [wp_bind, wp_set, wp_pure]
    refine (certify_spec _ s _).seq ?_ ?_
    · rintro cert q ⟨⟨certs, rfl⟩, -⟩
      have hcertified : ∀ own, Shift delivered taken own s { s with cgka := { s.cgka with certs } } :=
        fun own => .of_same hparked rfl rfl
      refine (runQuorumActions_shift_after hcertified rfl _).seq ?_ ?_
      · exact fun _ _ h => h.1
      · exact fun _ _ h => h.1
    · rintro e q rfl
      exact .refl hparked
  · rintro e p rfl
    exact .refl hparked

/-! ## Arrivals -/

/-- What was waiting or has just arrived is delivered. -/
theorem Takes.shift {s s' : WorkspaceState} {effects : List Effect} {offered : List AuthorizedOp}
    (h : Takes s s' effects offered) (htaken : delivered ⊆ taken)
    (hparked : ∀ a ∈ s.cgka.parked, a.op ∈ delivered) (hoffered : ∀ a ∈ offered, a.op ∈ delivered) : Shift delivered taken own s s' := by
  obtain ⟨added, hevolves, hadded⟩ := h.accounted
  refine .of_evolves hevolves hparked hoffered (fun op hop => Or.inl ?_) h.executedHere
  rcases hadded op hop with ⟨proof, hsent⟩ | ⟨a, ha | ha, rfl⟩
  · rw [h.silent.sent] at hsent
    exact absurd hsent List.not_mem_nil
  · exact htaken (hparked a ha)
  · exact htaken (hoffered a ha)

theorem onControlOp_shifts (a : AuthorizedOp) (htaken : delivered ⊆ taken) (ha : a.op ∈ delivered) :
    Shifts delivered taken own (onControlOp a) := by
  have hoffered : ∀ b ∈ [a], b.op ∈ delivered := fun b hb => List.mem_singleton.mp hb ▸ ha
  intro s rng hparked
  refine (onControlOp_spec a s rng).mono ?_ ?_
  · exact fun _ _ h => h.1.shift htaken hparked hoffered
  · exact fun _ _ h => h.2.1.shift htaken hparked hoffered

/-- Arriving certificates may complete a quorum, under what the node then holds. -/
theorem onCertsArrived_shift (certs : List Certificate) (s : WorkspaceState) (rng : Rng)
    (htaken : delivered ⊆ taken) (hparked : ∀ a ∈ s.cgka.parked, a.op ∈ delivered) :
    Wp (onCertsArrived certs)
      (fun _ p => Shift delivered taken (quorumMandate s p.1.cgka.certs) s p.1 ∧
        p.1.cgka.certs = (s.cgka.certs.extend certs).2)
      (fun _ p => Shift delivered taken (quorumMandate s p.1.cgka.certs) s p.1 ∧
        p.1.cgka.certs = (s.cgka.certs.extend certs).2) (s, rng) := by
  unfold onCertsArrived
  rw [wp_bind, wp_onCgka]
  unfold absorbCertificates
  rw [wp_bind, wp_get, wp_bind, wp_set, wp_pure]
  -- the state with the certificates in it
  generalize hs₁ : ({ s with cgka := { s.cgka with certs := (s.cgka.certs.extend certs).2 } } :
    WorkspaceState) = s₁
  have hcerts : s₁.cgka.certs = (s.cgka.certs.extend certs).2 := by rw [← hs₁]
  have hexecuted : s₁.executedHere = s.executedHere := by rw [← hs₁]
  have habsorbed : ∀ own, Shift delivered taken own s s₁ :=
    fun own => .of_same (hs₁ ▸ hparked) (by rw [← hs₁]) hexecuted
  split_ifs
  · rw [← bind_assoc]
    refine (drainQueues_spec s₁ rng).seq ?_ ?_
    · rintro effects p ⟨hdrained, hkept⟩
      have hshift : ∀ own, Shift delivered taken own s p.1 := fun own =>
        (habsorbed own).trans (hdrained.shift htaken (habsorbed own).parked (by simp))
      refine (runQuorumActions_shift_after hshift (hdrained.executedHere.trans hexecuted) p.2).seq
        ?_ ?_
      · exact fun _ _ h => ⟨h.1, h.2.trans (hkept.trans hcerts)⟩
      · exact fun _ _ h => ⟨h.1, h.2.trans (hkept.trans hcerts)⟩
    · rintro e p ⟨-, hmerged, hkept⟩
      have hshift := habsorbed (quorumMandate s p.1.cgka.certs)
      exact ⟨hshift.trans (hmerged.shift htaken hshift.parked (by simp)), hkept.trans hcerts⟩
  · refine (runQuorumActions_shift_after habsorbed hexecuted rng).mono ?_ ?_
    · exact fun _ _ h => ⟨h.1, h.2.trans hcerts⟩
    · exact fun _ _ h => ⟨h.1, h.2.trans hcerts⟩

/-! ## The namespace -/

theorem encryptKeyed_shifts (plaintext : Bytes) (preds : List Bytes32) (keying : Keying) :
    Shifts delivered taken own (encryptKeyed plaintext preds keying) := by
  intro s rng hparked
  refine (encryptKeyed_spec plaintext preds keying s rng).mono ?_ ?_
  · rintro r p ⟨hrekeyed, -⟩
    exact .of_rekeyed hrekeyed hparked
  · rintro e p ⟨ops, hrekeyed, -⟩
    exact .of_rekeyed hrekeyed hparked

/-- A change that leaves the controller and what was carried out alone. -/
theorem Shifts.update {h : WorkspaceState → WorkspaceState} (hcgka : ∀ s, (h s).cgka = s.cgka)
    (hexecuted : ∀ s, (h s).executedHere = s.executedHere) :
    Shifts delivered taken own (WorkspaceState.update h) := by
  intro s rng hparked
  refine .of_same ?_ ?_ (hexecuted s)
  · rw [hcgka]
    exact hparked
  · rw [hcgka]

theorem republishNamespace_shifts (keying : Keying) :
    Shifts delivered taken own (republishNamespace keying) := by
  refine Harmless.self.shifts.bind fun s => ?_
  dsimp only
  split_ifs
  · exact .pure _
  · exact (encryptKeyed_shifts _ _ keying).bind fun _ => Harmless.self.shifts.bind fun _ => .pure _

theorem onNamespaceMinted_shifts (epoch : U32) (ticket : Bytes) :
    Shifts delivered taken own (onNamespaceMinted epoch ticket) := by
  refine Harmless.self.shifts.bind fun s => ?_
  dsimp only
  split_ifs
  · exact .pure _
  · exact (encryptKeyed_shifts ticket [] .fresh).bind fun _ =>
      Shifts.bind (.update (fun _ => rfl) fun _ => rfl) fun _ => .pure _

theorem onNamespaceArrived_shifts (epoch : U32) (chunk : Chunk OpHash) :
    Shifts delivered taken own (onNamespaceArrived epoch chunk) := by
  refine (decrypt_harmless chunk).shifts.bind fun outcome => ?_
  cases outcome with
  | awaitingOp => exact .pure _
  | unreachable => exact .pure _
  | plaintext ticket =>
      refine Harmless.self.shifts.bind fun s => ?_
      split_ifs
      · exact .pure _
      · exact Shifts.bind (.update (fun _ => rfl) fun _ => rfl) fun _ => .pure _

theorem onRepairRequested_shifts (requester : Bytes32) :
    Shifts delivered taken own (onRepairRequested requester .namespace_) := by
  refine Harmless.self.shifts.bind fun s => ?_
  split_ifs
  · refine (republishNamespace_shifts .fresh).bind fun effects => ?_
    split_ifs
    · exact Shifts.bind (.update (fun _ => rfl) fun _ => rfl) fun _ => .pure _
    · exact .pure _
  · exact .throw _

end Programs

end WorkspaceState

/-! ## Every call -/

/-- The operations a call finds delivered: those that wait, and those it brings. -/
def Call.delivered (call : Call) (s : WorkspaceState) : Set ControlOp :=
  { op | ∃ a, (a ∈ s.cgka.parked ∨ a ∈ call.offered) ∧ a.op = op }

/-- The calls that take in what was delivered. -/
def Call.takesIn : Call → Bool
  | .handle (.controlOp _) _ => true
  | .handle (.certsArrived _) _ => true
  | .onControl (.op _ _) _ => true
  | .onControl (.certs _) _ => true
  | .onControl (.log _ _) _ => true
  | _ => false

/-- The operations a call may take in. -/
def Call.taken (call : Call) (s : WorkspaceState) : Set ControlOp :=
  { op | call.takesIn = true ∧ op ∈ call.delivered s }

/-- The calls that carry out what quorums have decided. -/
def Call.runsQuorum : Call → Bool
  | .handle (.certsArrived _) _ => true
  | .handle (.approve _) _ => true
  | .onControl (.certs _) _ => true
  | .onControl (.log _ _) _ => true
  | _ => false

/-- The members a call names for removal that its guard lets through. -/
def Call.removes (call : Call) (s : WorkspaceState) (member : Bytes32) : Prop :=
  match call with
  | .handle (.removeMember target) _ => member = target ∧ ¬ s.capabilities.Refuses member
  | .handle .leave _ => member ∈ s.leavingDevices ∧ ¬ s.LastAdmin
  | _ => False

/-- The members a call names for admission. -/
def Call.adds : Call → Bytes32 → Prop
  | .handle (.addUser member _ _ _ _) _, m => m = member
  | .handle (.addDevice member _ _ _ _) _, m => m = member
  | _, _ => False

/-- What a call may do by itself, where these are the certificates it leaves. -/
def Call.mandate (call : Call) (s : WorkspaceState) (certs : CapabilityStore) : Mandate where
  removes m := call.removes s m ∨ call.runsQuorum = true ∧ s.QuorumTarget certs m
  adds := call.adds
  marks digest := call.runsQuorum = true ∧ ∃ action, (digest, action) ∈ certs.executable

/-- What a call may leave behind, as far as the members go. -/
def Call.Shifted (call : Call) (s s' : WorkspaceState) : Prop :=
  Shift (call.delivered s) (call.taken s) (call.mandate s s'.cgka.certs) s s'

section Calls

open WorkspaceState

variable [LawfulBeekem] {call : Call} {s : WorkspaceState} {rng : Rng} {α : Type}

theorem Mandate.Allows.mono {own own' : Mandate} {op : ControlOp} (h : own.Allows op)
    (hremoves : ∀ m, own.removes m → own'.removes m) (hadds : ∀ m, own.adds m → own'.adds m) :
    own'.Allows op :=
  ⟨fun m hm => hremoves m (h.1 m hm), fun m hm => hadds m (h.2 m hm)⟩

theorem Shift.mono {delivered taken : Set ControlOp} {own own' : Mandate} {s' : WorkspaceState}
    (h : Shift delivered taken own s s') (hremoves : ∀ m, own.removes m → own'.removes m)
    (hadds : ∀ m, own.adds m → own'.adds m) (hmarks : ∀ d, own.marks d → own'.marks d) :
    Shift delivered taken own' s s' where
  parked := h.parked
  seats := by
    obtain ⟨added, hmembers, hadded⟩ := h.seats
    exact ⟨added, hmembers, fun op hop => (hadded op hop).imp_right fun h =>
      h.mono hremoves hadds⟩
  executed := fun d hd => (h.executed d hd).imp_right (hmarks d)

theorem Call.parked_delivered (call : Call) (s : WorkspaceState) :
    ∀ a ∈ s.cgka.parked, a.op ∈ call.delivered s :=
  fun a ha => ⟨a, Or.inl ha, rfl⟩

theorem Call.delivered_subset (h : call.takesIn = true) (s : WorkspaceState) :
    call.delivered s ⊆ call.taken s :=
  fun _ hop => ⟨h, hop⟩

/-- What a quorum pass may do, the call that runs it may. -/
theorem Shift.shifted {s' : WorkspaceState}
    (h : Shift (call.delivered s) (call.taken s) (s.quorumMandate s'.cgka.certs) s s')
    (hcall : call.runsQuorum = true) : call.Shifted s s' :=
  h.mono (fun _ hm => Or.inr ⟨hcall, hm⟩) (fun _ => False.elim) fun _ hd => ⟨hcall, hd⟩

/-- A program that is such a step whatever certificates it leaves. -/
theorem WorkspaceState.Shifts.shifted {x : Run α}
    (h : ∀ certs, Shifts (call.delivered s) (call.taken s) (call.mandate s certs) x) :
    Wp x (fun _ p => call.Shifted s p.1) (fun _ p => call.Shifted s p.1) (s, rng) := by
  refine wp_of_run ?_ ?_
  · exact fun a p hrun => (h p.1.cgka.certs s rng (call.parked_delivered s)).of_ok hrun
  · exact fun e p hrun => (h p.1.cgka.certs s rng (call.parked_delivered s)).of_error hrun

theorem onRemoveMember_shifted (member : Bytes32) (now : UnixSeconds) (s : WorkspaceState)
    (rng : Rng) :
    Wp (handle (.removeMember member) now)
      (fun _ p => Call.Shifted (.handle (.removeMember member) now) s p.1 ∧
        p.1.cgka.certs = s.cgka.certs)
      (fun _ p => Call.Shifted (.handle (.removeMember member) now) s p.1 ∧
        p.1.cgka.certs = s.cgka.certs) (s, rng) := by
  have hparked := Call.parked_delivered (.handle (.removeMember member) now) s
  refine (requireQuorum_spec (.removeMember member)).seq ?_ ?_
  · rintro _ p ⟨rfl, -⟩
    have hremoves : ¬ s.cgka.certs.Refuses member →
        (Call.mandate (.handle (.removeMember member) now) s s.cgka.certs).removes member :=
      fun hguard => Or.inl ⟨rfl, hguard⟩
    refine (performRemoval_shift
      (Call.taken (.handle (.removeMember member) now) s) hremoves s rng rfl hparked).mono ?_ ?_
    all_goals
      rintro _ p ⟨hshift, hsame⟩
      refine ⟨?_, hsame⟩
      unfold Call.Shifted
      rw [hsame]
      exact hshift
  · rintro e p rfl
    exact ⟨.refl hparked, rfl⟩

theorem onLeave_shifted (now : UnixSeconds) (s : WorkspaceState) (rng : Rng) :
    Wp (handle .leave now)
      (fun _ p => Call.Shifted (.handle .leave now) s p.1 ∧ p.1.cgka.certs = s.cgka.certs)
      (fun _ p => Call.Shifted (.handle .leave now) s p.1 ∧ p.1.cgka.certs = s.cgka.certs)
      (s, rng) := by
  have hremoves : ∀ certs, ¬ s.LastAdmin → ∀ device ∈ s.leavingDevices,
      (Call.mandate (.handle .leave now) s certs).removes device :=
    fun _ hguard device hdevice => Or.inl ⟨hdevice, hguard⟩
  have hspec := fun certs => onLeave_shift (Call.taken (.handle .leave now) s) s rng
    (hremoves certs) (Call.parked_delivered (.handle .leave now) s)
  refine wp_of_run (fun a p hrun => ?_) fun e p hrun => ?_
  · exact (hspec p.1.cgka.certs).of_ok hrun
  · exact (hspec p.1.cgka.certs).of_error hrun

theorem handle_shifted (event : Event) (now : UnixSeconds) (s : WorkspaceState) (rng : Rng) :
    Wp (handle event now) (fun _ p => Call.Shifted (.handle event now) s p.1)
      (fun _ p => Call.Shifted (.handle event now) s p.1) (s, rng) := by
  have hparked := Call.parked_delivered (.handle event now) s
  by_cases hpublishes : event.publishes = true
  · exact Shifts.shifted fun _ => (handle_publishes event now hpublishes).shifts
  · cases event with
    | controlOp op =>
        exact Shifts.shifted fun _ => onControlOp_shifts op (Call.delivered_subset rfl s) ⟨op, Or.inr List.mem_cons_self, rfl⟩
    | certsArrived certs =>
        refine (onCertsArrived_shift certs s rng (Call.delivered_subset rfl s) hparked).mono ?_ ?_
        · exact fun _ _ h => h.1.shifted rfl
        · exact fun _ _ h => h.1.shifted rfl
    | addUser member shareKey role displayName endpoint =>
        exact Shifts.shifted fun _ => requireAdmin_harmless.shifts.bind fun _ =>
          onAddUser_shifts shareKey role displayName endpoint rfl
    | addDevice member shareKey user label endpoint =>
        exact Shifts.shifted fun _ => (requireMayAddDeviceTo_harmless user).shifts.bind fun _ =>
          onAddDevice_shifts shareKey user label endpoint rfl
    | removeMember member =>
        exact (onRemoveMember_shifted member now s rng).mono (fun _ _ h => h.1) fun _ _ h => h.1
    | leave => exact (onLeave_shifted now s rng).mono (fun _ _ h => h.1) fun _ _ h => h.1
    | propose action expires => exact Shifts.shifted fun _ => onPropose_shifts action expires
    | approve proposal =>
        refine (onApprove_shift (Call.taken (.handle (.approve proposal) now) s) proposal s rng
          hparked).mono ?_ ?_
        · exact fun _ _ h => h.shifted rfl
        · exact fun _ _ h => h.shifted rfl
    | setRole user role => exact Shifts.shifted fun _ => onSetRole_shifts user role
    | namespaceMinted epoch ticket =>
        exact Shifts.shifted fun _ => onNamespaceMinted_shifts epoch ticket
    | namespaceArrived epoch chunk =>
        exact Shifts.shifted fun _ => onNamespaceArrived_shifts epoch chunk
    | resyncNamespace => exact Shifts.shifted fun _ => republishNamespace_shifts .current
    | repairRequested requester target epoch =>
        cases target with
        | namespace_ => exact Shifts.shifted fun _ => onRepairRequested_shifts requester
        | _ => exact absurd rfl hpublishes
    | _ => exact absurd rfl hpublishes

omit [LawfulBeekem] in
theorem refuseOversized_spec (ops certs : Nat) (p : WorkspaceState × Rng) :
    Wp (refuseOversized ops certs) (fun _ p' => p' = p) (fun _ p' => p' = p) p := by
  unfold refuseOversized
  split_ifs
  · rfl
  · rfl

theorem onControl_certs_shifted (certs : List Certificate) (now : UnixSeconds)
    (s : WorkspaceState) (rng : Rng) :
    Wp (onControl (.certs certs) now)
      (fun _ p => Call.Shifted (.onControl (.certs certs) now) s p.1)
      (fun _ p => Call.Shifted (.onControl (.certs certs) now) s p.1) (s, rng) := by
  have hparked := Call.parked_delivered (.onControl (.certs certs) now) s
  refine (refuseOversized_spec 0 certs.length (s, rng)).seq ?_ ?_
  · rintro _ p rfl
    refine (onCertsArrived_shift certs s rng (Call.delivered_subset rfl s) hparked).mono ?_ ?_
    · exact fun _ _ h => h.1.shifted rfl
    · exact fun _ _ h => h.1.shifted rfl
  · rintro e p rfl
    exact .refl hparked

/-- A log: its certificates first, and the operations leave these alone. -/
theorem onControl_log_shifted (ops : List ControlOp) (certs : List Certificate)
    (now : UnixSeconds) (s : WorkspaceState) (rng : Rng) :
    Wp (onControl (.log ops certs) now)
      (fun _ p => Call.Shifted (.onControl (.log ops certs) now) s p.1)
      (fun _ p => Call.Shifted (.onControl (.log ops certs) now) s p.1) (s, rng) := by
  have hparked := Call.parked_delivered (.onControl (.log ops certs) now) s
  have hoffered : ∀ a ∈ ops.map AuthorizedOp.bare,
      a.op ∈ Call.delivered (.onControl (.log ops certs) now) s :=
    fun a ha => ⟨a, Or.inr ha, rfl⟩
  refine (refuseOversized_spec ops.length certs.length (s, rng)).seq ?_ ?_
  · rintro _ p rfl
    refine (onCertsArrived_shift certs s rng (Call.delivered_subset rfl s) hparked).seq ?_ ?_
    · rintro effects p ⟨hshift, -⟩
      refine (handleLog_spec now ops effects p.1 p.2).mono ?_ fun _ _ => False.elim
      rintro effects' p' ⟨l, -, htakes, hsame⟩
      refine Shift.shifted ?_ rfl
      rw [hsame]
      exact hshift.trans (htakes.shift (Call.delivered_subset rfl s) hshift.parked hoffered)
    · exact fun _ _ h => h.1.shifted rfl
  · rintro e p rfl
    exact .refl hparked

/-- What any call does to the members, whether or not it fails. -/
theorem Call.shifted (call : Call) (s : WorkspaceState) (rng : Rng) :
    Wp call.run (fun _ p => call.Shifted s p.1) (fun _ p => call.Shifted s p.1) (s, rng) := by
  cases call with
  | handle event now => exact handle_shifted event now s rng
  | onControl msg now =>
      cases msg with
      | op op proof =>
          exact Shifts.shifted fun _ =>
            onControlOp_shifts ⟨op, proof⟩ (Call.delivered_subset rfl s) ⟨_, Or.inr List.mem_cons_self, rfl⟩
      | certs certs => exact onControl_certs_shifted certs now s rng
      | log ops certs => exact onControl_log_shifted ops certs now s rng
      | announce key => exact Shifts.shifted fun _ => .pure []
      | namespace_ epoch chunk =>
          exact Shifts.shifted fun _ => onNamespaceArrived_shifts epoch chunk
      | repair member target epoch =>
          refine Shifts.shifted fun _ => (verdict_harmless _).shifts.bind fun requester => ?_
          by_cases htarget : target = .namespace_
          · rw [htarget]
            exact onRepairRequested_shifts requester
          · exact (onRepairRequested_publishes requester htarget).shifts
  | checkpoint name message now =>
      exact Shifts.shifted fun _ => (checkpoint_emits name message now).effects.shifts
  | restoreCheckpoint digest now =>
      exact Shifts.shifted fun _ => (restoreCheckpoint_emits digest now).effects.shifts
  | addAssetVersion doc content assetMeta now =>
      exact Shifts.shifted fun _ => (addAssetVersion_publishes doc content assetMeta now).shifts
  | revertAsset doc content now =>
      exact Shifts.shifted fun _ => (revertAsset_publishes doc content now).shifts
  | sealAssetKey asset => exact Shifts.shifted fun _ => (sealAssetKey_emits asset).effects.shifts
  | openAssetKey keyChunk =>
      exact Shifts.shifted fun _ => (openAssetKey_harmless keyChunk).shifts.bind fun _ => .pure []
  | resealAssetKey requester asset keyChunk =>
      exact Shifts.shifted fun _ => (resealAssetKey_publishes requester asset keyChunk).shifts

end Calls

/-! ## Turns -/

/-- The devices a turn may take out. -/
def Turn.removes (s : WorkspaceState) (m : Bytes32) : Turn → Prop
  | .call made rng =>
      (∃ op ∈ made.taken s, op.payload.removed? = some m) ∨
        (made.mandate s (after made.run (s, rng)).1.cgka.certs).removes m
  | .restart _ _ => False

/-- The devices a turn may bring in. -/
def Turn.adds (s : WorkspaceState) (m : Bytes32) : Turn → Prop
  | .call made _ => (∃ op ∈ made.taken s, op.payload.added? = some m) ∨ made.adds m
  | .restart _ _ => False

section Turns

variable [LawfulBeekem] {turn : Turn} {s : WorkspaceState} {m : Bytes32}

theorem Call.shifted_after (call : Call) (s : WorkspaceState) (rng : Rng) :
    call.Shifted s (after call.run (s, rng)).1 :=
  Wp.after (P := fun p : WorkspaceState × Rng => call.Shifted s p.1) (call.shifted s rng)

omit [LawfulBeekem] in
theorem Turn.restart_spec (order : HashOrder) (rng : Rng) (s : WorkspaceState) :
    (Turn.restart order rng).take s = s ∨ Resumed s ((Turn.restart order rng).take s) :=
  Wp.after (P := fun p : WorkspaceState × Rng => p.1 = s ∨ Resumed s p.1)
    ((IrohBeekem.restart_spec order s rng).mono (fun _ _ => Or.inr) fun _ _ => Or.inl)

omit [LawfulBeekem] in
theorem Turn.restart_current (order : HashOrder) (rng : Rng) (s : WorkspaceState) :
    ((Turn.restart order rng).take s).cgka.currentMembers = s.cgka.currentMembers := by
  rcases Turn.restart_spec order rng s with hsame | hresumed
  · rw [hsame]
  · exact hresumed.current

theorem Turn.departed (hbefore : m ∈ s.cgka.currentMembers)
    (hafter : m ∉ (turn.take s).cgka.currentMembers) : turn.removes s m := by
  cases turn with
  | call made rng => exact (made.shifted_after s rng).departed hbefore hafter
  | restart order rng =>
      rw [Turn.restart_current order rng s] at hafter
      exact hafter hbefore

theorem Turn.entered (hbefore : m ∉ s.cgka.currentMembers)
    (hafter : m ∈ (turn.take s).cgka.currentMembers) : turn.adds s m := by
  cases turn with
  | call made rng => exact (made.shifted_after s rng).entered hbefore hafter
  | restart order rng =>
      rw [Turn.restart_current order rng s] at hafter
      exact hbefore hafter

end Turns

/-- The runs of a node that begin so and take only such turns. -/
def runsFrom (init : WorkspaceState → Prop) (ok : Turn → WorkspaceState → Prop) :
    Chart WorkspaceState Turn Unit where
  init s _ := init s
  step := Turn.take
  note _ _ _ := ()
  ok turn s _ := ok turn s

end IrohBeekem
