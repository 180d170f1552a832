import IrohBeekem.Keys.Company
import IrohBeekem.State.Decisions
import IrohBeekem.State.Quorum
import IrohBeekem.State.Replicas

/-!
# Replaying a log

A log brings certificates, which are taken in first, and operations, which are handled one
by one; that one of them is refused does not keep the rest from being judged.

`onControl_log_independent` compares the replay with the one that is left when operations
that are not taken in are struck from the log and from the queue, wherever they stand: the
graph is the same at the end.  This asks for two things.  The retry of the queue that new
certificates bring about must not fail, since its failure ends the replay before any
operation of the log is looked at.  And the queue must not be full when an operation that
comes before its predecessors is parked, since it would push another one out.
-/

set_option linter.unusedSectionVars false

namespace IrohBeekem

open Library CgkaController WorkspaceState

variable [Keyhive] [Beekem] [Loro] [Postcard]

namespace WorkspaceState

/-! ## Two nodes abreast -/

/-- The second node is the first without the junk in the queue of its controller, as far as
the replay of a log goes. -/
structure Abreast {V : Type} (view : Cgka → V) (junk : ControlOp → Bool)
    (p q : WorkspaceState × Rng) : Prop where
  cgka : Beside view junk p.1.cgka q.1.cgka
  executedHere : q.1.executedHere = p.1.executedHere
  namespaceEpoch : q.1.namespaceEpoch = p.1.namespaceEpoch

variable {V : Type} {view : Cgka → V} {junk : ControlOp → Bool}
variable {p q : WorkspaceState × Rng}

theorem Abreast.capabilities (h : Abreast view junk p q) :
    q.1.capabilities = p.1.capabilities := h.cgka.certs

/-- What two programs read of the two nodes, they read off the states they are in. -/
theorem mirrors_self {α : Type} {rel : WorkspaceState × Rng → WorkspaceState × Rng → Prop}
    {f g : WorkspaceState → Run α} (h : Mirrors rel (f p.1) p (g q.1) q) :
    Mirrors rel (self >>= f) p (self >>= g) q := h

theorem mirrors_update {rel : WorkspaceState × Rng → WorkspaceState × Rng → Prop}
    {f g : WorkspaceState → WorkspaceState} (h : rel (f p.1, p.2) (g q.1, q.2)) :
    Mirrors rel (update f) p (update g) q := ⟨rfl, h⟩

theorem requireNotLastAdmin_abreast (h : Abreast view junk p q) (user : Bytes32) :
    Mirrors (Abreast view junk) (requireNotLastAdmin user) p (requireNotLastAdmin user) q := by
  refine mirrors_self ?_
  rw [h.capabilities]
  split_ifs
  · exact .throw _ h
  · exact .pure _ h

/-! ## Quorum actions -/

theorem removeMember_beside (hview : Governs view) {c d : CgkaController}
    (h : Beside view junk c d) (member : Bytes32) :
    Mirrors (Beside view junk) (CgkaController.removeMember member) c
      (CgkaController.removeMember member) d := by
  unfold CgkaController.removeMember
  refine .read ?_
  dsimp only
  rw [h.signer]
  have htree : Mirrors (Beside view junk) (onTree (Beekem.remove member c.signer)) c
      (onTree (Beekem.remove member c.signer)) d := by
    unfold onTree
    exact .zoom (hview.remove member c.signer h.view) fun g g' hsame => h.tree hsame
  refine htree.bind fun op c₁ d₁ h₁ => ?_
  split_ifs
  · have herased : Beside view junk
        { c₁ with currentMembers := c₁.currentMembers.erase member }
        { d₁ with currentMembers := d₁.currentMembers.erase member } :=
      ⟨h₁.view, h₁.signer, h₁.certs, h₁.known, h₁.parked, h₁.bounded⟩
    exact Mirrors.bind ⟨rfl, herased⟩ fun _ _ _ h' => .pure _ h'
  · exact .pure _ h₁

theorem performRemoval_abreast (hview : Governs view) (h : Abreast view junk p q)
    (member : Bytes32) :
    Mirrors (Abreast view junk) (performRemoval member) p (performRemoval member) q := by
  have hremove : ∀ {p q : WorkspaceState × Rng}, Abreast view junk p q →
      Mirrors (Abreast view junk) (onCgka (CgkaController.removeMember member)) p
        (onCgka (CgkaController.removeMember member)) q := by
    intro p q h
    unfold onCgka
    exact .zoom (removeMember_beside hview h.cgka member) fun c d hsame =>
      ⟨hsame, h.executedHere, h.namespaceEpoch⟩
  unfold performRemoval
  refine mirrors_self ?_
  rw [h.capabilities]
  dsimp only
  split_ifs
  on_goal 1 => refine (requireNotLastAdmin_abreast h _).bind fun _ p q h => ?_
  all_goals
    refine (hremove h).bind fun op p₁ q₁ h₁ => ?_
    cases op with
    | none => exact .pure _ h₁
    | some op =>
        have hepoch := h₁.namespaceEpoch
        refine Mirrors.bind (mirrors_update ⟨h₁.cgka, h₁.executedHere, ?_⟩) fun _ p₂ q₂ h₂ => ?_
        · dsimp only
          rw [hepoch]
        · refine mirrors_self ?_
          unfold quorumProof
          rw [h₂.capabilities, h₂.namespaceEpoch]
          exact .pure _ h₂

theorem performActions_abreast (hview : Governs view) (pending : List (Bytes32 × AdminAction))
    (effects : List Effect) (h : Abreast view junk p q) :
    Mirrors (Abreast view junk) (performActions pending effects) p
      (performActions pending effects) q := by
  induction pending generalizing effects p q with
  | nil => exact .pure _ h
  | cons entry rest ih =>
      obtain ⟨digest, action⟩ := entry
      have hdone : ∀ {p q : WorkspaceState × Rng} (effects : List Effect), Abreast view junk p q →
          Mirrors (Abreast view junk) (do
            update fun s => { s with executedHere := s.executedHere.insert digest }
            performActions rest effects) p
            (do
              update fun s => { s with executedHere := s.executedHere.insert digest }
              performActions rest effects) q := by
        intro p q effects h
        refine Mirrors.bind (mirrors_update ⟨h.cgka, ?_, h.namespaceEpoch⟩) fun _ _ _ h' =>
          ih effects h'
        dsimp only
        rw [h.executedHere]
      unfold performActions
      cases action with
      | setRole user role => exact hdone effects h
      | removeMember member =>
          dsimp only
          cases memberFromBytes member with
          | error err => exact hdone effects h
          | ok member =>
              refine (performRemoval_abreast hview h member).attempt.bind fun r _ _ h' => ?_
              cases r with
              | ok produced => exact hdone _ h'
              | error err => exact ih _ h'

theorem runQuorumActions_abreast (hview : Governs view) (h : Abreast view junk p q) :
    Mirrors (Abreast view junk) runQuorumActions p runQuorumActions q := by
  refine mirrors_self ?_
  rw [h.capabilities, h.executedHere]
  exact performActions_abreast hview _ _ h

/-- A run of two programs, one after the other. -/
theorem run_bind {α β : Type} {x : Run α} {f : α → Run β} {a : α} {b : β}
    {p p' p'' : WorkspaceState × Rng} (hx : x p = .ok a p') (hf : f a p' = .ok b p'') :
    (x >>= f) p = .ok b p'' := by
  change EStateM.bind x f p = _
  unfold EStateM.bind
  rw [hx]
  exact hf

/-! ## The steps of a replay -/

/-- What is compared of two nodes. -/
def compared (view : Cgka → V) (p : WorkspaceState × Rng) :=
  (view p.1.cgka.cgka, p.1.cgka.signer, p.1.cgka.certs, p.1.cgka.knownMembers, p.1.cgka.parked,
    p.1.executedHere, p.1.namespaceEpoch)

theorem Abreast.of_compared {p' q' : WorkspaceState × Rng} (h : Abreast view junk p q)
    (hp : compared view p' = compared view p) (hq : compared view q' = compared view q) :
    Abreast view junk p' q' := by
  simp only [compared, Prod.mk.injEq] at hp hq
  obtain ⟨hview, hsigner, hcerts, hknown, hparked, hexecuted, hepoch⟩ := hp
  obtain ⟨hview', hsigner', hcerts', hknown', hparked', hexecuted', hepoch'⟩ := hq
  refine ⟨⟨?_, ?_, ?_, ?_, ?_, ?_⟩, ?_, ?_⟩
  · rw [hview', hview, h.cgka.view]
  · rw [hsigner', hsigner, h.cgka.signer]
  · rw [hcerts', hcerts, h.cgka.certs]
  · rw [hknown', hknown, h.cgka.known]
  · rw [hparked', hparked, h.cgka.parked]
  · rw [hparked]
    exact h.cgka.bounded
  · rw [hexecuted', hexecuted, h.executedHere]
  · rw [hepoch', hepoch, h.namespaceEpoch]

/-- Decrypting shows in nothing that is compared. -/
theorem decrypt_keeps (hview : Governs view) (chunk : Chunk OpHash) :
    Keeps (fun c : CgkaController => (view c.cgka, c.signer, c.certs, c.knownMembers, c.parked))
      (CgkaController.decrypt chunk) := by
  have htree : Keeps
      (fun c : CgkaController => (view c.cgka, c.signer, c.certs, c.knownMembers, c.parked))
      (onTree (Beekem.decryptionKeyFor chunk)) := by
    intro c
    unfold onTree
    rw [wp_zoom]
    refine (hview.decryptionKeyFor chunk c.cgka).mono ?_ ?_
    · intro key g hg
      dsimp only
      rw [hg]
    · intro e g hg
      dsimp only
      rw [hg]
  unfold CgkaController.decrypt
  refine htree.attempt.bind fun outcome => ?_
  cases outcome with
  | error e => exact Keeps.get.bind fun c => .ite (.pure _) (.pure _)
  | ok key =>
      dsimp only
      cases Beekem.tryDecrypt chunk key with
      | none => exact .throw _
      | some plaintext => exact .pure _

variable [LawfulBeekem]

theorem drainPending_compared (hview : Governs view) (p : WorkspaceState × Rng) :
    Wp drainPending (fun _ p' => compared view p' = compared view p) (fun _ _ => False) p := by
  refine ((drainPending_spec p.1 p.2).and
    (drainPending_controller (decrypt_keeps hview) p)).mono ?_ fun _ _ h => h.1
  rintro effects p' ⟨⟨hrekeyed, -⟩, hkeeps⟩
  simp only [Prod.mk.injEq] at hkeeps
  obtain ⟨hview, hsigner, hcerts, hknown, hparked⟩ := hkeeps
  unfold compared
  rw [hview, hsigner, hcerts, hknown, hparked, hrekeyed.executedHere, hrekeyed.namespaceEpoch]

/-- An operation of a log does to the node what it does to the controller. -/
theorem handle_controlOp_compared (hview : Governs view) (op : ControlOp) (now : UnixSeconds)
    (p : WorkspaceState × Rng) :
    compared view (after (handle (.controlOp (.bare op)) now) p) =
      compared view ({ p.1 with cgka := heard op p.1.cgka }, p.2) := by
  refine Wp.after (P := fun p' => compared view p' =
    compared view ({ p.1 with cgka := heard op p.1.cgka }, p.2)) ?_
  change Wp (onControlOp (.bare op)) _ _ p
  unfold onControlOp
  obtain ⟨s, rng⟩ := p
  rw [wp_bind, wp_onCgka]
  refine wp_of_run (fun outcome c hrun => ?_) fun e c hrun => ?_
  · cases outcome with
    | applied =>
        have hheard : heard op s.cgka = after mergePending c := by
          unfold heard
          rw [hrun]
        dsimp only
        rw [wp_bind, wp_onCgka, hheard]
        refine wp_of_run (fun total c' hpending => ?_) fun e c' hpending => ?_
        · have hafter : after mergePending c = c' := by
            unfold after
            rw [hpending]
          rw [hafter]
          refine (drainPending_compared hview _).seq ?_ fun _ _ => False.elim
          rintro effects p' hp'
          rw [wp_bind, wp_self]
          exact hp'
        · have hafter : after mergePending c = c' := by
            unfold after
            rw [hpending]
          rw [hafter]
    | duplicate =>
        have hheard : heard op s.cgka = c := by
          unfold heard
          rw [hrun]
        rw [hheard]
        exact rfl
    | deferred =>
        have hheard : heard op s.cgka = c := by
          unfold heard
          rw [hrun]
        rw [hheard]
        exact rfl
  · have hheard : heard op s.cgka = c := by
      unfold heard
      rw [hrun]
    rw [hheard]

/-- Before its pass, the handler of certificates does to the node what they do to the
controller. -/
theorem absorb_compared (hview : Governs view) {certs : List Certificate}
    (hretry : Retries certs p.1.cgka) :
    Wp (absorb certs)
      (fun _ p' => compared view p' =
        compared view ({ p.1 with cgka := gathered certs p.1.cgka }, p.2))
      (fun _ _ => False) p := by
  obtain ⟨s, rng⟩ := p
  unfold absorb
  rw [wp_bind, wp_onCgka]
  unfold absorbCertificates
  rw [wp_bind, wp_get, wp_bind, wp_set, wp_pure]
  unfold gathered
  dsimp only
  split_ifs with hnew
  · obtain ⟨total, hrun⟩ := run_of_succeeds (hretry hnew)
    have hpending : Wp mergePending (fun _ c => c = after mergePending (extended certs s.cgka))
        (fun _ _ => False) (extended certs s.cgka) := by
      unfold Wp
      rw [hrun]
    rw [wp_bind, wp_onCgka]
    refine hpending.mono ?_ fun _ _ => False.elim
    rintro total c rfl
    exact drainPending_compared hview _
  · have hsame : (s.cgka.certs.extend certs).2 = s.cgka.certs := by
      unfold CapabilityStore.extend at hnew ⊢
      dsimp only at hnew ⊢
      rw [if_neg hnew]
    rw [hsame]
    exact rfl

/-- A pass takes nothing out of the graph, leaves the certificates alone and does not fail. -/
theorem runQuorumActions_grows (p : WorkspaceState × Rng) :
    ∃ effects p', runQuorumActions p = .ok effects p' ∧
      (∀ op ∈ graph p.1.cgka.cgka, op ∈ graph p'.1.cgka.cgka) ∧
      p'.1.cgka.certs = p.1.cgka.certs := by
  obtain ⟨effects, p', hrun, l, -, hmoves, -, hcerts⟩ :=
    (runQuorumActions_spec p.1 p.2).exists_ok
  obtain ⟨added, hevolves, -⟩ := hmoves.accounted
  refine ⟨effects, p', hrun, fun op hop => ?_, hcerts⟩
  exact (hevolves.tree.mem_graph op).mpr (Or.inl hop)

/-- Both nodes take in the certificates of a log. -/
theorem onCertsArrived_abreast (hview : Governs view) (h : Abreast view junk p q)
    {certs : List Certificate} (hretry : Retries certs p.1.cgka) :
    ∃ effects p', onCertsArrived certs p = .ok effects p' ∧
      p'.1.cgka.certs = (p.1.cgka.certs.extend certs).2 ∧
      ((∀ op, junk op = true → op ∉ graph p'.1.cgka.cgka) →
        ∃ effects' q', onCertsArrived certs q = .ok effects' q' ∧ Abreast view junk p' q') := by
  obtain ⟨first, p₁, habsorb, hp₁⟩ := (absorb_compared hview hretry).exists_ok
  obtain ⟨performed, p', hpass, hgrows, hcerts⟩ := runQuorumActions_grows p₁
  have hgathered : p₁.1.cgka.certs = (gathered certs p.1.cgka).certs := by
    simp only [compared, Prod.mk.injEq] at hp₁
    exact hp₁.2.2.1
  refine ⟨first ++ performed, p', ?_, ?_, fun hout => ?_⟩
  · rw [onCertsArrived_eq]
    exact run_bind habsorb (run_bind hpass rfl)
  · rw [hcerts, hgathered, certs_gathered]
  · have hout₁ : ∀ op, junk op = true → op ∉ graph (gathered certs p.1.cgka).cgka := by
      intro op hjunk hmem
      refine hout op hjunk (hgrows op ?_)
      rw [hview.graph (Prod.mk.inj hp₁).1]
      exact hmem
    obtain ⟨hboth, hretries⟩ := h.cgka.gathered hview hout₁
    obtain ⟨second, q₁, habsorb', hq₁⟩ := (absorb_compared hview (hretries hretry)).exists_ok
    have habreast : Abreast view junk ({ p.1 with cgka := gathered certs p.1.cgka }, p.2)
        ({ q.1 with cgka := gathered certs q.1.cgka }, q.2) :=
      ⟨hboth, h.executedHere, h.namespaceEpoch⟩
    have hmirrors := runQuorumActions_abreast hview (habreast.of_compared hp₁ hq₁)
    rcases hmirrors.cases with ⟨same, p₂, q', hpass', hpass'', hend⟩ | ⟨e, p₂, q', hfails, -, -⟩
    · obtain ⟨rfl, rfl⟩ := EStateM.Result.ok.inj (hpass.symm.trans hpass')
      refine ⟨second ++ performed, q', ?_, hend⟩
      rw [onCertsArrived_eq]
      exact run_bind habsorb' (run_bind hpass'' rfl)
    · exact absurd (hpass.symm.trans hfails) (by simp)

/-! ## The loop over the operations -/

/-- The states a log's operations lead to. -/
def replayed (now : UnixSeconds) : List ControlOp → WorkspaceState × Rng → WorkspaceState × Rng
  | [], p => p
  | op :: rest, p => replayed now rest (after (handle (.controlOp (.bare op)) now) p)

omit [LawfulBeekem] in
theorem handleLog_run (now : UnixSeconds) (ops : List ControlOp) (effects : List Effect)
    (p : WorkspaceState × Rng) :
    ∃ effects', handleLog now ops effects p = .ok effects' (replayed now ops p) := by
  induction ops generalizing effects p with
  | nil => exact ⟨effects, rfl⟩
  | cons op rest ih =>
      have hrun : ∃ more, handleLog now (op :: rest) effects p =
          handleLog now rest more (after (handle (.controlOp (.bare op)) now) p) := by
        conv => enter [1, more, 1]; unfold handleLog
        change ∃ more, EStateM.bind _ _ p = _
        unfold EStateM.bind attempt after
        cases handle (.controlOp (.bare op)) now p with
        | ok produced p' => exact ⟨_, rfl⟩
        | error e p' => exact ⟨_, rfl⟩
      obtain ⟨more, hrun⟩ := hrun
      rw [hrun]
      exact ih more _

/-- Whenever an operation of the log is parked, the queue has a place for it. -/
def RoomForLog (now : UnixSeconds) : List ControlOp → WorkspaceState × Rng → Prop
  | [], _ => True
  | op :: rest, p =>
      (verifyOp op = true → p.1.cgka.RoomFor op) ∧
        RoomForLog now rest (after (handle (.controlOp (.bare op)) now) p)

theorem graph_after_handle (hview : Governs view) (op : ControlOp) (now : UnixSeconds)
    (p : WorkspaceState × Rng) :
    graph (after (handle (.controlOp (.bare op)) now) p).1.cgka.cgka =
      graph (heard op p.1.cgka).cgka :=
  hview.graph (Prod.mk.inj (handle_controlOp_compared hview op now p)).1

theorem graph_replayed (hview : Governs view) (now : UnixSeconds) (ops : List ControlOp)
    (p : WorkspaceState × Rng) :
    ∀ op ∈ graph p.1.cgka.cgka, op ∈ graph (replayed now ops p).1.cgka.cgka := by
  induction ops generalizing p with
  | nil => exact fun _ => id
  | cons first rest ih =>
      intro op hop
      refine ih _ op ?_
      rw [graph_after_handle hview]
      exact graph_heard first p.1.cgka op hop

/-- Both nodes replay the operations, the second one without the junk. -/
theorem replayed_abreast (hview : Governs view) (now : UnixSeconds) (ops : List ControlOp)
    (h : Abreast view junk p q) (hroom : RoomForLog now ops p)
    (hout : ∀ op, junk op = true → op ∉ graph (replayed now ops p).1.cgka.cgka) :
    Abreast view junk (replayed now ops p) (replayed now (ops.filter fun op => ! junk op) q) := by
  induction ops generalizing p q with
  | nil => exact h
  | cons op rest ih =>
      obtain ⟨hplace, hrest⟩ := hroom
      have hheard : ∀ o, junk o = true → o ∉ graph (heard op p.1.cgka).cgka := by
        intro o hjunk hmem
        refine hout o hjunk (graph_replayed hview now rest _ o ?_)
        rw [graph_after_handle hview]
        exact hmem
      have hp := handle_controlOp_compared hview op now p
      cases hjunk : junk op with
      | false =>
          rw [List.filter_cons_of_pos (by simp [hjunk])]
          have hboth : Abreast view junk ({ p.1 with cgka := heard op p.1.cgka }, p.2)
              ({ q.1 with cgka := heard op q.1.cgka }, q.2) :=
            ⟨h.cgka.heard hview hjunk hplace hheard, h.executedHere, h.namespaceEpoch⟩
          have hq := handle_controlOp_compared hview op now q
          exact ih (hboth.of_compared hp hq) hrest hout
      | true =>
          rw [List.filter_cons_of_neg (by simp [hjunk])]
          have hskipped : Abreast view junk ({ p.1 with cgka := heard op p.1.cgka }, p.2) q :=
            ⟨h.cgka.heard_skip hview hjunk hplace (hheard op hjunk), h.executedHere,
              h.namespaceEpoch⟩
          exact ih (hskipped.of_compared hp rfl) hrest hout

theorem certs_replayed (hview : Governs view) (now : UnixSeconds) (ops : List ControlOp)
    (p : WorkspaceState × Rng) : (replayed now ops p).1.cgka.certs = p.1.cgka.certs := by
  induction ops generalizing p with
  | nil => rfl
  | cons op rest ih =>
      have hstep := handle_controlOp_compared hview op now p
      simp only [compared, Prod.mk.injEq] at hstep
      calc (replayed now (op :: rest) p).1.cgka.certs
          = (after (handle (.controlOp (.bare op)) now) p).1.cgka.certs := ih _
        _ = (heard op p.1.cgka).certs := hstep.2.2.1
        _ = p.1.cgka.certs := certs_heard op p.1.cgka

/-! ## A log -/

/-- A log that is refused for its size. -/
def Oversized (ops : List ControlOp) (certs : List Certificate) : Prop :=
  maxLogOps < ops.length ∨ maxLogCerts < certs.length

omit [LawfulBeekem] in
theorem onControl_log_run {ops : List ControlOp} {certs : List Certificate} (now : UnixSeconds)
    (hsize : ¬ Oversized ops certs) {effects : List Effect} {p' : WorkspaceState × Rng}
    (hcerts : onCertsArrived certs p = .ok effects p') :
    ∃ effects', onControl (.log ops certs) now p = .ok effects' (replayed now ops p') := by
  obtain ⟨effects', hlog⟩ := handleLog_run now ops effects p'
  have hfits : refuseOversized ops.length certs.length p = .ok () p := by
    unfold refuseOversized
    unfold Oversized at hsize
    rw [if_neg hsize]
    rfl
  exact ⟨effects', run_bind hfits (run_bind hcerts hlog)⟩

/-- The node without these operations in the queue of its controller. -/
def without (junk : ControlOp → Bool) (s : WorkspaceState) : WorkspaceState :=
  { s with cgka := { s.cgka with parked := s.cgka.parked.filter fun a => ! junk a.op } }

/-- The replay judges each operation of the log by itself.  A log that is too large changes
nothing.  Of any other, the certificates that verify are held afterwards; and when any
operations that are not in the graph afterwards are struck from the log and from the queue,
the replay leads to the same graph. -/
structure JudgesEach (s : WorkspaceState) (rng : Rng) (ops : List ControlOp)
    (certs : List Certificate) (now : UnixSeconds) : Prop where
  oversized : Oversized ops certs →
    ∃ err, onControl (.log ops certs) now (s, rng) = .error err (s, rng)
  absorbed : ¬ Oversized ops certs → ∀ cert ∈ certs, cert.verify = .ok () →
    ∃ held ∈ (after (onControl (.log ops certs) now) (s, rng)).1.capabilities.certs,
      held.kind = cert.kind ∧ held.digest = cert.digest
  independent : ¬ Oversized ops certs → ∀ junk : ControlOp → Bool,
    (∀ op, junk op = true →
      op ∉ graph (after (onControl (.log ops certs) now) (s, rng)).1.cgka.cgka) →
    graph (after (onControl (.log (ops.filter fun op => ! junk op) certs) now)
        (s.without junk, rng)).1.cgka.cgka =
      graph (after (onControl (.log ops certs) now) (s, rng)).1.cgka.cgka

/-- What the replay of a log that is not too large asks for: the queue is within its bound,
the retry that the certificates bring about does not fail, and no operation of the log is
parked in a full queue. -/
structure Replayable (s : WorkspaceState) (rng : Rng) (ops : List ControlOp)
    (certs : List Certificate) (now : UnixSeconds) : Prop where
  bounded : s.cgka.parked.length ≤ maxParkedOps
  retries : Retries certs s.cgka
  room : RoomForLog now ops (after (handle (.certsArrived certs) now) (s, rng))

/-- Whether an operation of a log ends up in the graph does not depend on those that do not,
in the log or in the queue. -/
theorem onControl_log_independent (hview : Governs view) (s : WorkspaceState) (rng : Rng)
    (ops : List ControlOp) (certs : List Certificate) (now : UnixSeconds)
    (h : ¬ Oversized ops certs → Replayable s rng ops certs now) :
    JudgesEach s rng ops certs now := by
  have hstart : ∀ junk : ControlOp → Bool, s.cgka.parked.length ≤ maxParkedOps →
      Abreast view junk (s, rng) (s.without junk, rng) := fun junk hbounded =>
    ⟨⟨rfl, rfl, rfl, rfl, rfl, hbounded⟩, rfl, rfl⟩
  refine ⟨fun hover => ?_, fun hsize cert hmem hverify => ?_, fun hsize junk hout => ?_⟩
  · refine ⟨.incompleteLog (ops.length + certs.length), ?_⟩
    change EStateM.bind (refuseOversized ops.length certs.length) _ (s, rng) = _
    unfold EStateM.bind refuseOversized
    unfold Oversized at hover
    rw [if_pos hover]
    rfl
  · obtain ⟨hbounded, hretries, -⟩ := h hsize
    obtain ⟨effects, p', hrun, hcerts, -⟩ :=
      onCertsArrived_abreast hview (hstart (fun _ => false) hbounded) hretries
    obtain ⟨effects', hlog⟩ := onControl_log_run now hsize hrun
    have hafter : after (onControl (.log ops certs) now) (s, rng) = replayed now ops p' := by
      unfold after
      rw [hlog]
    rw [hafter]
    change ∃ held ∈ (replayed now ops p').1.cgka.certs.certs, _
    rw [certs_replayed hview, hcerts, CapabilityStore.extend_certs]
    exact Certificates.stageAll_taken s.cgka.certs.certs hmem hverify
  · obtain ⟨hbounded, hretries, hroom⟩ := h hsize
    obtain ⟨effects, p', hrun, -, hboth⟩ :=
      onCertsArrived_abreast hview (hstart junk hbounded) hretries
    obtain ⟨effects', hlog⟩ := onControl_log_run now hsize hrun
    have hafter : after (onControl (.log ops certs) now) (s, rng) = replayed now ops p' := by
      unfold after
      rw [hlog]
    have hreached : after (handle (.certsArrived certs) now) (s, rng) = p' := by
      change after (onCertsArrived certs) (s, rng) = p'
      unfold after
      rw [hrun]
    rw [hafter] at hout ⊢
    rw [hreached] at hroom
    have hearly : ∀ op, junk op = true → op ∉ graph p'.1.cgka.cgka := fun op hjunk hmem =>
      hout op hjunk (graph_replayed hview now ops p' op hmem)
    obtain ⟨others, q', hrun', habreast⟩ := hboth hearly
    have hsize' : ¬ Oversized (ops.filter fun op => ! junk op) certs := by
      have hfewer := List.length_filter_le (fun op => ! junk op) ops
      unfold Oversized at hsize ⊢
      omega
    obtain ⟨others', hlog'⟩ := onControl_log_run now hsize' hrun'
    have hafter' : after (onControl (.log (ops.filter fun op => ! junk op) certs) now)
        (s.without junk, rng) = replayed now (ops.filter fun op => ! junk op) q' := by
      unfold after
      rw [hlog']
    rw [hafter']
    exact hview.graph (replayed_abreast hview now ops habreast hroom hout).cgka.view

end WorkspaceState

end IrohBeekem

namespace IrohBeekem

open Library CgkaController WorkspaceState

section Samples

local instance replayedKeyhive : Keyhive := transparentKeyhive

local instance replayedLoro : Loro := listLoro

local instance replayedPostcard : Postcard := blankPostcard

private theorem decryptionKeyFor_reads (chunk : Chunk OpId) :
    Keeps id (ListCgka.decryptionKeyFor chunk) := by
  intro g
  unfold Wp ListCgka.decryptionKeyFor
  split_ifs
  · rfl
  · rfl

private theorem merge_fails {op : Signed (CgkaOperation OpId)} {g g' : ListCgka} {err : CgkaError}
    (h : ListCgka.mergeConcurrentOperation op g = .error err g') : g' = g := by
  unfold ListCgka.mergeConcurrentOperation at h
  split_ifs at h
  exact (EStateM.Result.error.inj h).2.symm

/-- A tree that shows everything, where what fails leaves it as it was and a decryption only
reads it. -/
theorem governs_id [Beekem]
    (hfails : ∀ {op : ControlOp} {g g' : Cgka} {err : CgkaError},
      Beekem.mergeConcurrentOperation op g = .error err g' → g' = g)
    (hreads : ∀ chunk, Keeps (id : Cgka → Cgka) (Beekem.decryptionKeyFor chunk)) :
    Governs (id : Cgka → Cgka) where
  graph := by
    rintro g g' rfl
    rfl
  merge_failed := hfails
  decryptionKeyFor := hreads
  merge := by
    rintro op g g' rfl
    exact ⟨rfl, rfl⟩
  remove := by
    rintro member signer g g' rfl
    exact ⟨rfl, rfl⟩

section Listed

local instance replayedBeekem : Beekem := listBeekem

local instance replayedLawful : LawfulBeekem := listBeekem_live.toLawfulBeekem

private theorem governs_list : Governs (id : Cgka → Cgka) :=
  governs_id merge_fails decryptionKeyFor_reads

/-- An update of nobody's, and one of user `2`'s. -/
def strangersUpdate : ControlOp := ⟨.update 1 [OpId.of rootedFounder.cgka.init] 5, 8, (8, 0)⟩

def viewersUpdate : ControlOp := ⟨.update 1 [OpId.of rootedFounder.cgka.init] 6, 2, (2, 0)⟩

/-- The founder replays a log with both of them. -/
theorem onControl_log_independent_viewer :
    JudgesEach admittedViewer.1 admittedViewer.2 [strangersUpdate, viewersUpdate] [] 0 := by
  refine onControl_log_independent governs_list _ _ _ _ 0 fun _ => ⟨?_, ?_, ?_⟩
  · decide +kernel
  · exact fun h => absurd h (by decide +kernel)
  · exact ⟨fun _ => Or.inl (by decide +kernel), fun _ => Or.inl (by decide +kernel), trivial⟩

end Listed

section Stubborn

/-- The updates the tree fails on. -/
def ListCgka.failsOn (op : Signed (CgkaOperation OpId)) : Bool :=
  match op.payload with
  | .update _ _ detail => detail = 5
  | _ => false

local instance stubbornBeekem : Beekem := listBeekemMerging fun op g =>
  if ListCgka.failsOn op then .error (.other 5) g else ListCgka.mergeConcurrentOperation op g

local instance stubbornLawful : LawfulBeekem := by
  refine listBeekemMerging_lawful fun op g => ?_
  have hlist := listBeekem_live.mergeConcurrentOperation_spec op g
  unfold Wp at hlist ⊢
  dsimp only at hlist ⊢
  split_ifs
  · exact @Grows.refl listBeekem g
  · exact hlist

private theorem governs_stubborn : Governs (id : Cgka → Cgka) := by
  refine governs_id (fun {op g g' err} h => ?_) decryptionKeyFor_reads
  change (if ListCgka.failsOn op then EStateM.Result.error (.other 5) g
    else ListCgka.mergeConcurrentOperation op g) = _ at h
  split_ifs at h
  · exact (EStateM.Result.error.inj h).2.symm
  · exact merge_fails h

/-- The founder over this tree. -/
def stubbornFounder : CgkaController :=
  match CgkaController.create 1 1 (0 : Nat) with
  | (.ok c, _) => c
  | (.error _, _) => ⟨ListCgka.new 1 1 0 1, 1, 1, 0, 0, ∅, ∅, .new 1, [], 0⟩

def stubbornWorkspace : WorkspaceState :=
  match WorkspaceState.found stubbornFounder 9 1 with
  | .ok s => s
  | .error _ => joined stubbornFounder 9 0

/-- User `2` joins and is removed again. -/
def joinedAndGone : List Call :=
  [.handle (.addUser 2 102 .viewer "second" none) 0, .handle (.removeMember 2) 0]

/-- The removal that comes of it. -/
def removalOfViewer : ControlOp :=
  (runAll joinedAndGone (stubbornWorkspace, (1 : Nat))).1.cgka.cgka.log.headD
    stubbornFounder.cgka.init

/-- An update the tree fails on, and one it takes in; both follow the removal. -/
def failingUpdate : ControlOp := ⟨.update 1 [OpId.of removalOfViewer] 5, 2, (2, 0)⟩

def soundUpdate : ControlOp := ⟨.update 1 [OpId.of removalOfViewer] 6, 2, (2, 0)⟩

/-- The founder hears of the first one before it makes the removal. -/
@[irreducible] def waitingOnRemoval : WorkspaceState × Rng :=
  runAll [.handle (.addUser 2 102 .viewer "second" none) 0,
    .handle (.controlOp (.bare failingUpdate)) 0, .handle (.removeMember 2) 0]
    (stubbornWorkspace, (1 : Nat))

def newBinding : Certificate := Payload.signedBy (.binding (DeviceBinding.new 7 7 4)) 1

private theorem waitingOnRemoval_reachable : Reachable waitingOnRemoval.1 := by
  have hfounder : CgkaController.create 1 1 (0 : Nat) = (.ok stubbornFounder, (1 : Nat)) := rfl
  have hfound : (WorkspaceState.found stubbornFounder 9 1).toOption.isSome = true := by
    decide +kernel
  have hworkspace : WorkspaceState.found stubbornFounder 9 1 = .ok stubbornWorkspace := by
    unfold stubbornWorkspace
    cases hrun : WorkspaceState.found stubbornFounder 9 1 with
    | ok s => rfl
    | error err =>
        rw [hrun] at hfound
        exact absurd hfound (by simp [Except.toOption])
  unfold waitingOnRemoval
  exact (Reachable.found hfounder hworkspace).calls _

/-- The failure of an operation in the queue keeps the one in the log out of the graph. -/
theorem replay_cut_short :
    LawfulBeekem ∧ Governs (id : Cgka → Cgka) ∧
      ¬ ∀ (s : WorkspaceState) (rng : Rng) (ops : List ControlOp) (certs : List Certificate)
        (now : UnixSeconds), Reachable s → JudgesEach s rng ops certs now := by
  refine ⟨stubbornLawful, governs_stubborn, fun h => ?_⟩
  have hsize : ¬ Oversized [soundUpdate] [newBinding] := by
    unfold Oversized
    decide
  have hjudges := (h _ waitingOnRemoval.2 [soundUpdate] [newBinding] 0
    waitingOnRemoval_reachable).independent hsize fun op => decide (op = failingUpdate)
  have hkept : failingUpdate ∉ (after (onControl (.log [soundUpdate] [newBinding]) 0)
      waitingOnRemoval).1.cgka.cgka.log := by decide +kernel
  have hwithout : soundUpdate ∈ (after (onControl (.log ([soundUpdate].filter fun op =>
      ! decide (op = failingUpdate)) [newBinding]) 0)
      (waitingOnRemoval.1.without fun op => decide (op = failingUpdate),
        waitingOnRemoval.2)).1.cgka.cgka.log := by decide +kernel
  have hwith : soundUpdate ∉ (after (onControl (.log [soundUpdate] [newBinding]) 0)
      waitingOnRemoval).1.cgka.cgka.log := by decide +kernel
  have hsame := hjudges fun op hop hmem => hkept (of_decide_eq_true hop ▸ hmem)
  exact hwith (hsame.subset hwithout)

end Stubborn

end Samples

end IrohBeekem
