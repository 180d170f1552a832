import IrohBeekem.State.Intake
import IrohBeekem.State.ListModel

/-!
# What a drain does with each chunk

`drain_pending` tries every parked chunk and starts again as long as one was
applied.  An `Attempt` is one such try, with the state it was made in; the
verdict decides what happens to the chunk (`settle`) and what goes out
(`Verdict.emitted`).  `Passes` is the loop without a bound, with all its
attempts, and `drainPending_passes` says that the bounded loop is that loop.

From the attempts everything else can be read off: `Passes.accounts` says where
each parked chunk ended and by how much each counter moved.
-/

set_option linter.unusedSectionVars false

namespace IrohBeekem

open Library

variable [Keyhive] [Beekem] [Loro] [Postcard]

/-- A try at a parked chunk, with the state it is made in. -/
abbrev Attempt := (WorkspaceState × Rng) × Parked

namespace WorkspaceState

/-! ## One attempt -/

/-- What the node can make of a chunk.  Trying one does not fail. -/
def verdictAt (p : WorkspaceState × Rng) (parked : Parked) : ChunkVerdict :=
  match tryApply parked.doc parked.chunk p with
  | .ok verdict _ => verdict
  | .error _ _ => .corrupt

/-- What a verdict does to the queue and the counters. -/
def settle (verdict : ChunkVerdict) (parked : Parked) (s : WorkspaceState) : WorkspaceState :=
  match verdict with
  | .applied => s
  | .awaitingKey => requeue parked s
  | .awaitingDeps => requeue parked s
  | .unreachable => { s with unreadableChunks := s.unreadableChunks + 1 }
  | .corrupt => { s with corruptChunks := s.corruptChunks + 1 }

/-- The state after a chunk was tried. -/
def tried (parked : Parked) (p : WorkspaceState × Rng) : WorkspaceState × Rng :=
  (settle (verdictAt p parked) parked (after (tryApply parked.doc parked.chunk) p).1,
    (after (tryApply parked.doc parked.chunk) p).2)

/-- What a verdict sends out. -/
def emits (parked : Parked) : ChunkVerdict → List Effect
  | .applied => [.applied parked.doc]
  | .awaitingKey => []
  | .awaitingDeps =>
      if maxDepWaitDrains ≤ parked.drains + 1 then
        [.requestRepair (.documentHistory parked.doc) (epochId parked.chunk)]
      else []
  | .unreachable => [.requestRepair (.document parked.doc) (epochId parked.chunk)]
  | .corrupt => []

end WorkspaceState

open WorkspaceState

def Attempt.verdict (a : Attempt) : ChunkVerdict := verdictAt a.1 a.2

def Attempt.emitted (a : Attempt) : List Effect := WorkspaceState.emits a.2 a.verdict

namespace WorkspaceState

theorem tryApply_answers (doc : DocumentUuid) (chunk : Chunk OpHash) :
    Unfailing (tryApply doc chunk) := by
  have hself : Unfailing self := fun p => ⟨p.1, p, rfl⟩
  have hupdate : ∀ f, Unfailing (update f) := fun f p => ⟨⟨⟩, (f p.1, p.2), rfl⟩
  have hopen : Unfailing (openDoc doc) := by
    refine hself.bind fun s => ?_
    cases s.docs.get? doc with
    | some loro => exact .pure _
    | none => exact (hupdate _).bind fun _ => .pure _
  refine (Unfailing.attempt _).bind fun outcome => ?_
  split
  · refine hopen.bind fun _ => (Unfailing.attempt _).bind fun merged => ?_
    split
    · exact (hupdate _).bind fun _ => .pure _
    · exact .pure _
  · exact .pure _
  · exact .pure _
  · exact .pure _

theorem tryApply_run (parked : Parked) (p : WorkspaceState × Rng) :
    tryApply parked.doc parked.chunk p =
      .ok (verdictAt p parked) (after (tryApply parked.doc parked.chunk) p) := by
  obtain ⟨verdict, p', hrun⟩ := tryApply_answers parked.doc parked.chunk p
  unfold verdictAt after
  rw [hrun]

/-- The queue, and what is counted of chunks. -/
def tallies (p : WorkspaceState × Rng) : List Parked × Nat × Nat × Nat :=
  (p.1.pendingChunks, p.1.unreadableChunks, p.1.corruptChunks, p.1.evictedChunks)

/-- Trying a chunk leaves the queue and the counters to its verdict. -/
theorem tryApply_tallies (doc : DocumentUuid) (chunk : Chunk OpHash) :
    Keeps tallies (tryApply doc chunk) := by
  have hself : Keeps tallies self := .bind .get fun _ => .pure _
  have hupdate : ∀ f : WorkspaceState → WorkspaceState,
      (∀ p : WorkspaceState × Rng, tallies (f p.1, p.2) = tallies p) → Keeps tallies (update f) :=
    fun _ h => .modify h
  have hcgka : Keeps tallies (onCgka (CgkaController.decrypt chunk)) := by
    unfold onCgka
    refine .zoom ?_ _
    exact fun _ _ => rfl
  have hopen : Keeps tallies (openDoc doc) := by
    refine hself.bind fun s => ?_
    cases s.docs.get? doc with
    | some loro => exact .pure _
    | none => exact (hupdate _ fun _ => rfl).bind fun _ => .pure _
  have himport : ∀ bytes, Keeps tallies (onDoc doc CoreError.manifest (Loro.importBytes bytes)) := by
    intro bytes
    unfold onDoc
    refine .zoom ?_ _
    exact fun _ _ => rfl
  refine hcgka.attempt.bind fun outcome => ?_
  split
  · refine hopen.bind fun _ => (himport _).attempt.bind fun merged => ?_
    split
    · exact (hupdate _ fun _ => rfl).bind fun _ => .pure _
    · exact .pure _
  · exact .pure _
  · exact .pure _
  · exact .pure _

theorem after_tryApply (parked : Parked) (p : WorkspaceState × Rng) :
    tallies (after (tryApply parked.doc parked.chunk) p) = tallies p :=
  Wp.after (P := fun p' => tallies p' = tallies p) (tryApply_tallies parked.doc parked.chunk p)

/-! ## One pass -/

/-- The attempts of a pass over a queue. -/
def roundAttempts : List Parked → WorkspaceState × Rng → List Attempt
  | [], _ => []
  | parked :: rest, p => (p, parked) :: roundAttempts rest (tried parked p)

/-- The state after a pass over a queue. -/
def roundAfter (queue : List Parked) (p : WorkspaceState × Rng) : WorkspaceState × Rng :=
  queue.foldl (fun p parked => tried parked p) p

/-- How many attempts applied a chunk. -/
def applications (attempts : List Attempt) : Nat :=
  attempts.countP fun a => a.verdict = .applied

theorem drainRound_cons (parked : Parked) (rest : List Parked) (applied : Nat)
    (effects : List Effect) (p : WorkspaceState × Rng) :
    drainRound (parked :: rest) applied effects p =
      drainRound rest (applied + if verdictAt p parked = .applied then 1 else 0)
        (effects ++ emits parked (verdictAt p parked)) (tried parked p) := by
  conv_lhs => unfold drainRound
  change EStateM.bind (tryApply parked.doc parked.chunk) _ p = _
  unfold EStateM.bind
  rw [tryApply_run parked p]
  dsimp only
  unfold tried
  cases verdictAt p parked with
  | applied => rfl
  | awaitingKey =>
      simp only [emits, List.append_nil]
      rfl
  | awaitingDeps =>
      dsimp only
      change EStateM.bind (update (requeue parked)) _ _ = _
      unfold EStateM.bind emits
      by_cases hold : maxDepWaitDrains ≤ parked.drains + 1
      · simp only [if_pos hold]
        rfl
      · simp only [if_neg hold, List.append_nil]
        rfl
  | unreachable => rfl
  | corrupt =>
      simp only [emits, List.append_nil]
      rfl

theorem drainRound_run (queue : List Parked) (applied : Nat) (effects : List Effect)
    (p : WorkspaceState × Rng) :
    drainRound queue applied effects p =
      .ok (applied + applications (roundAttempts queue p),
        effects ++ (roundAttempts queue p).flatMap Attempt.emitted) (roundAfter queue p) := by
  induction queue generalizing applied effects p with
  | nil => simp [drainRound, roundAttempts, roundAfter, applications]; rfl
  | cons parked rest ih =>
      rw [drainRound_cons, ih]
      simp only [roundAttempts, applications, List.countP_cons, List.flatMap_cons, roundAfter,
        List.foldl_cons, List.append_assoc, Attempt.emitted, Attempt.verdict]
      congr 2
      by_cases happlied : verdictAt p parked = .applied
      · simp only [happlied, decide_true, if_true]
        omega
      · simp only [happlied, decide_false, if_false]
        simp

/-! ## The loop -/

/-- A node with its queue taken out. -/
def emptied (p : WorkspaceState × Rng) : WorkspaceState × Rng :=
  ({ p.1 with pendingChunks := [], pendingBytes := 0 }, p.2)

/-- The loop of `drain_pending` without a bound: passes over the whole queue,
until one applies nothing. -/
inductive Passes : WorkspaceState × Rng → List Attempt → WorkspaceState × Rng → Prop where
  | last {p : WorkspaceState × Rng}
      (hnone : applications (roundAttempts p.1.pendingChunks (emptied p)) = 0) :
      Passes p (roundAttempts p.1.pendingChunks (emptied p))
        (roundAfter p.1.pendingChunks (emptied p))
  | more {p p' : WorkspaceState × Rng} {attempts : List Attempt}
      (hsome : applications (roundAttempts p.1.pendingChunks (emptied p)) ≠ 0)
      (hrest : Passes (roundAfter p.1.pendingChunks (emptied p)) attempts p') :
      Passes p (roundAttempts p.1.pendingChunks (emptied p) ++ attempts) p'

/-! ## Where every chunk ended -/

end WorkspaceState

/-- The chunk as it is put back after an attempt. -/
def Attempt.left (a : Attempt) : Option Parked :=
  match a.verdict with
  | .awaitingKey => some { a.2 with drains := a.2.drains + 1 }
  | .awaitingDeps => some { a.2 with drains := a.2.drains + 1 }
  | _ => none

namespace WorkspaceState

/-- What attempts at the chunks of a queue made of them: each was put back or
finished, and those that were not applied were counted. -/
structure Accounts (queue : List Parked) (attempts : List Attempt)
    (p p' : WorkspaceState × Rng) : Prop where
  items : (queue.map Parked.item).Perm
    ((attempts.filter fun a => a.left = none).map (fun a => a.2.item) ++
      p'.1.pendingChunks.map Parked.item)
  unreadable : p'.1.unreadableChunks =
    p.1.unreadableChunks + attempts.countP fun a => a.verdict = .unreachable
  corrupt : p'.1.corruptChunks =
    p.1.corruptChunks + attempts.countP fun a => a.verdict = .corrupt
  evicted : p'.1.evictedChunks = p.1.evictedChunks

theorem tried_tallies (parked : Parked) (p : WorkspaceState × Rng) :
    tallies (tried parked p) =
      (p.1.pendingChunks ++ (Attempt.left (p, parked)).toList,
        p.1.unreadableChunks + if verdictAt p parked = .unreachable then 1 else 0,
        p.1.corruptChunks + if verdictAt p parked = .corrupt then 1 else 0,
        p.1.evictedChunks) := by
  have hsame := after_tryApply parked p
  unfold tallies at hsame ⊢
  obtain ⟨hqueue, hunreadable, hcorrupt, hevicted⟩ :
      (after (tryApply parked.doc parked.chunk) p).1.pendingChunks = p.1.pendingChunks ∧
      (after (tryApply parked.doc parked.chunk) p).1.unreadableChunks = p.1.unreadableChunks ∧
      (after (tryApply parked.doc parked.chunk) p).1.corruptChunks = p.1.corruptChunks ∧
      (after (tryApply parked.doc parked.chunk) p).1.evictedChunks = p.1.evictedChunks := by
    simpa only [Prod.mk.injEq] using hsame
  unfold tried Attempt.left Attempt.verdict
  cases verdictAt p parked <;>
    simp [settle, requeue, hqueue, hunreadable, hcorrupt, hevicted]

theorem roundAttempts_map (queue : List Parked) (p : WorkspaceState × Rng) :
    (roundAttempts queue p).map Prod.snd = queue := by
  induction queue generalizing p with
  | nil => rfl
  | cons parked rest ih => simp [roundAttempts, ih]

theorem roundAfter_tallies (queue : List Parked) (p : WorkspaceState × Rng) :
    tallies (roundAfter queue p) =
      (p.1.pendingChunks ++ (roundAttempts queue p).filterMap Attempt.left,
        p.1.unreadableChunks + (roundAttempts queue p).countP (fun a => a.verdict = .unreachable),
        p.1.corruptChunks + (roundAttempts queue p).countP (fun a => a.verdict = .corrupt),
        p.1.evictedChunks) := by
  induction queue generalizing p with
  | nil => simp [roundAfter, roundAttempts, tallies]
  | cons parked rest ih =>
      have hfirst := tried_tallies parked p
      have hrest := ih (tried parked p)
      unfold tallies at hfirst hrest ⊢
      simp only [Prod.mk.injEq] at hfirst hrest ⊢
      obtain ⟨hqueue, hunreadable, hcorrupt, hevicted⟩ := hfirst
      rw [hqueue, hunreadable, hcorrupt, hevicted] at hrest
      have hafter : roundAfter (parked :: rest) p = roundAfter rest (tried parked p) := rfl
      rw [hafter]
      simp only [roundAttempts, List.countP_cons, Attempt.verdict] at hrest ⊢
      refine ⟨?_, ?_, ?_, hrest.2.2.2⟩
      · rw [hrest.1, List.filterMap_cons]
        cases Attempt.left (p, parked) <;> simp
      · rw [hrest.2.1, Nat.add_right_comm, Nat.add_assoc]
        by_cases hverdict : verdictAt p parked = .unreachable <;> simp [hverdict]
      · rw [hrest.2.2.1, Nat.add_right_comm, Nat.add_assoc]
        by_cases hverdict : verdictAt p parked = .corrupt <;> simp [hverdict]

/-- A chunk is put back if and only if it has to wait. -/
theorem Attempt.left_eq_some {a : Attempt} {parked : Parked} (h : a.left = some parked) :
    parked = { a.2 with drains := a.2.drains + 1 } ∧
      (a.verdict = .awaitingKey ∨ a.verdict = .awaitingDeps) := by
  unfold Attempt.left at h
  cases hverdict : a.verdict with
  | awaitingKey =>
      simp only [hverdict, Option.some.injEq] at h
      exact ⟨h.symm, Or.inl rfl⟩
  | awaitingDeps =>
      simp only [hverdict, Option.some.injEq] at h
      exact ⟨h.symm, Or.inr rfl⟩
  | applied => simp [hverdict] at h
  | unreachable => simp [hverdict] at h
  | corrupt => simp [hverdict] at h

/-- Attempts leave as many chunks as there were, but for those they finished. -/
theorem attempts_items (attempts : List Attempt) :
    (attempts.map fun a => a.2.item).Perm
      ((attempts.filter fun a => a.left = none).map (fun a => a.2.item) ++
        (attempts.filterMap Attempt.left).map Parked.item) := by
  induction attempts with
  | nil => simp
  | cons a rest ih =>
      cases hleft : a.left with
      | none =>
          rw [List.filter_cons_of_pos (by simpa using hleft), List.filterMap_cons_none hleft]
          exact ih.cons _
      | some parked =>
          have hitem : parked.item = a.2.item := by
            rw [(Attempt.left_eq_some hleft).1]
            rfl
          rw [List.filter_cons_of_neg (by simp [hleft]), List.filterMap_cons_some hleft,
            List.map_cons, List.map_cons, hitem]
          exact (ih.cons _).trans List.perm_middle.symm

/-- A pass over the whole queue accounts for it. -/
theorem roundAfter_accounts (p : WorkspaceState × Rng) :
    Accounts p.1.pendingChunks (roundAttempts p.1.pendingChunks (emptied p)) p
      (roundAfter p.1.pendingChunks (emptied p)) := by
  have htallies := roundAfter_tallies p.1.pendingChunks (emptied p)
  unfold tallies at htallies
  simp only [Prod.mk.injEq] at htallies
  obtain ⟨hqueue, hunreadable, hcorrupt, hevicted⟩ := htallies
  refine ⟨?_, hunreadable, hcorrupt, hevicted⟩
  have hitems := attempts_items (roundAttempts p.1.pendingChunks (emptied p))
  have hmap : (roundAttempts p.1.pendingChunks (emptied p)).map (fun a => a.2.item) =
      p.1.pendingChunks.map Parked.item := by
    conv_rhs => rw [← roundAttempts_map p.1.pendingChunks (emptied p), List.map_map]
    rfl
  rw [hmap] at hitems
  rw [hqueue]
  exact hitems

/-- Attempts of two passes in a row account for the chunks together. -/
theorem Accounts.trans {queue : List Parked} {attempts attempts' : List Attempt}
    {p p' p'' : WorkspaceState × Rng} (h : Accounts queue attempts p p')
    (h' : Accounts p'.1.pendingChunks attempts' p' p'') :
    Accounts queue (attempts ++ attempts') p p'' where
  items := by
    rw [List.filter_append, List.map_append, List.append_assoc]
    exact h.items.trans (h'.items.append_left _)
  unreadable := by rw [h'.unreadable, h.unreadable, List.countP_append, Nat.add_assoc]
  corrupt := by rw [h'.corrupt, h.corrupt, List.countP_append, Nat.add_assoc]
  evicted := h'.evicted.trans h.evicted

theorem Passes.accounts {p p' : WorkspaceState × Rng} {attempts : List Attempt}
    (h : Passes p attempts p') : Accounts p.1.pendingChunks attempts p p' := by
  induction h with
  | last _ => exact roundAfter_accounts _
  | more _ _ ih => exact (roundAfter_accounts _).trans ih

/-! ## The loop ends -/

/-- A pass that applies something leaves fewer chunks. -/
theorem roundAfter_length (p : WorkspaceState × Rng) :
    (roundAfter p.1.pendingChunks (emptied p)).1.pendingChunks.length +
      applications (roundAttempts p.1.pendingChunks (emptied p)) ≤ p.1.pendingChunks.length := by
  have hitems := (roundAfter_accounts p).items.length_eq
  rw [List.length_map, List.length_append, List.length_map, List.length_map] at hitems
  have hfinished : applications (roundAttempts p.1.pendingChunks (emptied p)) ≤
      ((roundAttempts p.1.pendingChunks (emptied p)).filter fun a => a.left = none).length := by
    rw [← List.countP_eq_length_filter]
    refine List.countP_mono_left fun a _ happlied => ?_
    have hverdict : a.verdict = .applied := by simpa using happlied
    simp [Attempt.left, hverdict]
  omega

theorem drainRounds_passes (fuel : Nat) (effects : List Effect) (p : WorkspaceState × Rng)
    (hfuel : p.1.pendingChunks.length < fuel) :
    ∃ attempts p', Passes p attempts p' ∧
      drainRounds fuel effects p = .ok (effects ++ attempts.flatMap Attempt.emitted) p' := by
  induction fuel generalizing effects p with
  | zero => exact absurd hfuel (Nat.not_lt_zero _)
  | succ fuel ih =>
      have hrun : drainRounds (fuel + 1) effects p =
          if applications (roundAttempts p.1.pendingChunks (emptied p)) = 0 then
            .ok (effects ++ (roundAttempts p.1.pendingChunks (emptied p)).flatMap Attempt.emitted)
              (roundAfter p.1.pendingChunks (emptied p))
          else
            drainRounds fuel
              (effects ++ (roundAttempts p.1.pendingChunks (emptied p)).flatMap Attempt.emitted)
              (roundAfter p.1.pendingChunks (emptied p)) := by
        conv_lhs => unfold drainRounds
        change EStateM.bind (drainRound p.1.pendingChunks 0 effects) _ (emptied p) = _
        unfold EStateM.bind
        rw [drainRound_run, Nat.zero_add]
        dsimp only
        split_ifs <;> rfl
      rw [hrun]
      split_ifs with hnone
      · exact ⟨_, _, .last hnone, rfl⟩
      · have hlength := roundAfter_length p
        obtain ⟨attempts, p', hpasses, hrest⟩ := ih
          (effects ++ (roundAttempts p.1.pendingChunks (emptied p)).flatMap Attempt.emitted)
          (roundAfter p.1.pendingChunks (emptied p)) (by omega)
        refine ⟨_, p', .more hnone hpasses, ?_⟩
        rw [hrest, List.flatMap_append, List.append_assoc]

/-- `drain_pending` is the loop without a bound. -/
theorem drainPending_passes (p : WorkspaceState × Rng) :
    ∃ attempts p', Passes p attempts p' ∧
      drainPending p = .ok (attempts.flatMap Attempt.emitted) p' := by
  obtain ⟨attempts, p', hpasses, hrun⟩ := drainRounds_passes _ [] p (Nat.lt_succ_self _)
  exact ⟨attempts, p', hpasses, hrun⟩

/-- What a pass leaves in the queue, it has put back. -/
theorem roundAfter_left {p : WorkspaceState × Rng} {parked : Parked}
    (h : parked ∈ (roundAfter p.1.pendingChunks (emptied p)).1.pendingChunks) :
    ∃ a ∈ roundAttempts p.1.pendingChunks (emptied p), a.left = some parked := by
  have htallies := roundAfter_tallies p.1.pendingChunks (emptied p)
  unfold tallies at htallies
  rw [(Prod.mk.injEq _ _ _ _).mp htallies |>.1] at h
  exact List.mem_filterMap.mp h

/-- A chunk that was tried, or is in the queue, was in the queue. -/
theorem Accounts.queued {queue : List Parked} {attempts : List Attempt}
    {p p' : WorkspaceState × Rng} (h : Accounts queue attempts p p') {parked : Parked}
    (hparked : parked ∈ p'.1.pendingChunks) : ∃ parked' ∈ queue, parked'.item = parked.item := by
  refine List.mem_map.mp (h.items.mem_iff.mpr (List.mem_append_right _ ?_))
  exact List.mem_map_of_mem hparked

theorem roundAttempts_queued {queue : List Parked} {p : WorkspaceState × Rng} {a : Attempt}
    (ha : a ∈ roundAttempts queue p) : a.2 ∈ queue := by
  rw [← roundAttempts_map queue p]
  exact List.mem_map_of_mem ha

theorem Passes.queued {p p' : WorkspaceState × Rng} {attempts : List Attempt}
    (h : Passes p attempts p') :
    ∀ a ∈ attempts, ∃ parked ∈ p.1.pendingChunks, parked.item = a.2.item := by
  induction h with
  | last _ => exact fun a ha => ⟨a.2, roundAttempts_queued ha, rfl⟩
  | more _ _ ih =>
      intro a ha
      rcases List.mem_append.mp ha with hfirst | hlater
      · exact ⟨a.2, roundAttempts_queued hfirst, rfl⟩
      · obtain ⟨parked, hparked, hitem⟩ := ih a hlater
        obtain ⟨parked', hparked', hitem'⟩ := (roundAfter_accounts _).queued hparked
        exact ⟨parked', hparked', hitem'.trans hitem⟩

/-! ## What is asked for -/

/-- The documents a node asks to be encrypted again. -/
def documentRepairs (effects : List Effect) : List (DocumentUuid × Bytes32) :=
  effects.filterMap fun
    | .requestRepair (.document doc) epoch => some (doc, epoch)
    | _ => none

/-- The documents a node asks for the history of. -/
def historyRepairs (effects : List Effect) : List (DocumentUuid × Bytes32) :=
  effects.filterMap fun
    | .requestRepair (.documentHistory doc) epoch => some (doc, epoch)
    | _ => none

/-- What a request about a chunk names. -/
def requestOf (parked : Parked) : DocumentUuid × Bytes32 := (parked.doc, epochId parked.chunk)

/-- A document is asked for once for every chunk that was counted as unreadable. -/
theorem documentRepairs_attempts (attempts : List Attempt) :
    documentRepairs (attempts.flatMap Attempt.emitted) =
      (attempts.filter fun a => a.verdict = .unreachable).map fun a => requestOf a.2 := by
  induction attempts with
  | nil => rfl
  | cons a rest ih =>
      unfold documentRepairs at ih ⊢
      rw [List.flatMap_cons, List.filterMap_append, ih, List.filter_cons]
      unfold Attempt.emitted WorkspaceState.emits
      cases hverdict : a.verdict with
      | awaitingDeps => by_cases hold : maxDepWaitDrains ≤ a.2.drains + 1 <;> simp [hold]
      | applied => simp
      | awaitingKey => simp
      | unreachable => simp [requestOf]
      | corrupt => simp

/-- A history is asked for once for every attempt that found operations missing of a chunk
that has survived enough passes. -/
theorem historyRepairs_attempts (attempts : List Attempt) :
    historyRepairs (attempts.flatMap Attempt.emitted) =
      (attempts.filter fun a => a.verdict = .awaitingDeps ∧ maxDepWaitDrains ≤ a.2.drains + 1).map
        fun a => requestOf a.2 := by
  induction attempts with
  | nil => rfl
  | cons a rest ih =>
      unfold historyRepairs at ih ⊢
      rw [List.flatMap_cons, List.filterMap_append, ih, List.filter_cons]
      unfold Attempt.emitted WorkspaceState.emits
      cases hverdict : a.verdict with
      | awaitingDeps =>
          by_cases hold : maxDepWaitDrains ≤ a.2.drains + 1
          · simp [hold, requestOf]
          · simp [hold]
      | applied => simp
      | awaitingKey => simp
      | unreachable => simp
      | corrupt => simp

/-! ## An arriving chunk -/

/-- A node that has put an arriving chunk into its queue, or taken a parked one for it. -/
def taken (doc : DocumentUuid) (chunk : Chunk OpHash) (p : WorkspaceState × Rng) :
    WorkspaceState × Rng :=
  if ∃ parked ∈ p.1.pendingChunks, parked.copies doc chunk then p
  else (parkChunk doc chunk p.1, p.2)

/-- After a chunk has arrived it was applied, is in the queue or was counted, or an
identical one was in the queue already. -/
structure NotDiscarded (doc : DocumentUuid) (chunk : Chunk OpHash) (p : WorkspaceState × Rng)
    (attempts : List Attempt) (p' : WorkspaceState × Rng) : Prop where
  run : onChunkArrived doc chunk p = .ok (attempts.flatMap Attempt.emitted) p'
  passes : Passes (taken doc chunk p) attempts p'
  accounts : Accounts (taken doc chunk p).1.pendingChunks attempts (taken doc chunk p) p'
  fate : (∃ a ∈ attempts, a.2.item = (doc, chunk) ∧ a.verdict = .applied) ∨
    (∃ parked ∈ p'.1.pendingChunks, parked.item = (doc, chunk)) ∨
    (∃ a ∈ attempts, a.2.item = (doc, chunk) ∧ a.verdict = .unreachable) ∨
    (∃ a ∈ attempts, a.2.item = (doc, chunk) ∧ a.verdict = .corrupt) ∨
    ∃ parked ∈ p.1.pendingChunks, parked.item = (doc, chunk)

theorem onChunkArrived_run (doc : DocumentUuid) (chunk : Chunk OpHash)
    (p : WorkspaceState × Rng) :
    onChunkArrived doc chunk p = drainPending (taken doc chunk p) := by
  have hknown : (p.1.pendingChunks.any fun parked => parked.doc = doc ∧
      parked.chunk.contentRef = chunk.contentRef ∧
        parked.chunk.pcsKeyHash = chunk.pcsKeyHash) = true ↔
      ∃ parked ∈ p.1.pendingChunks, parked.copies doc chunk := by
    rw [List.any_eq_true]
    exact exists_congr fun parked => and_congr_right fun _ => decide_eq_true_iff
  have hparks : ∀ known : Bool,
      (do
        if ¬ known then update (parkChunk doc chunk)
        drainPending : Run (List Effect)) p =
        drainPending (if known = true then p else (parkChunk doc chunk p.1, p.2)) := by
    intro known
    cases known <;> rfl
  refine (hparks _).trans (congrArg drainPending ?_)
  unfold taken
  exact if_congr hknown rfl rfl

/-- A chunk that a parked one is taken for is discarded, unless the queue has it. -/
theorem NotDiscarded.identical {doc : DocumentUuid} {chunk : Chunk OpHash}
    {p p' : WorkspaceState × Rng} {attempts : List Attempt}
    (h : NotDiscarded doc chunk p attempts p')
    (hcopied : ∃ parked ∈ p.1.pendingChunks, parked.copies doc chunk) :
    ∃ parked ∈ p.1.pendingChunks, parked.item = (doc, chunk) := by
  obtain ⟨-, hpasses, haccounts, hfate⟩ := h
  unfold taken at hpasses haccounts
  rw [if_pos hcopied] at hpasses haccounts
  have hattempted : ∀ a ∈ attempts, a.2.item = (doc, chunk) →
      ∃ parked ∈ p.1.pendingChunks, parked.item = (doc, chunk) := by
    intro a ha hitem
    obtain ⟨parked, hparked, hsame⟩ := hpasses.queued a ha
    exact ⟨parked, hparked, hsame.trans hitem⟩
  rcases hfate with ⟨a, ha, hitem, -⟩ | ⟨parked, hparked, hitem⟩ | ⟨a, ha, hitem, -⟩ |
    ⟨a, ha, hitem, -⟩ | hparked
  · exact hattempted a ha hitem
  · obtain ⟨parked', hparked', hsame⟩ := haccounts.queued hparked
    exact ⟨parked', hparked', hsame.trans hitem⟩
  · exact hattempted a ha hitem
  · exact hattempted a ha hitem
  · exact hparked

end WorkspaceState

end IrohBeekem

namespace IrohBeekem

open Library WorkspaceState

section Samples

local instance shadowKeyhive : Keyhive := transparentKeyhive

local instance shadowBeekem : Beekem := listBeekem

local instance shadowLoro : Loro := listLoro

local instance shadowPostcard : Postcard := blankPostcard

/-- A chunk that the founder can read. -/
def genuineChunk : Chunk OpHash :=
  ⟨[1, 2, 3], Beekem.hashBytes [1, 2, 3], [], 0, OpId.of rootedFounder.cgka.init⟩

/-- Another one under its reference and key, of an operation nobody has. -/
def shadowChunk : Chunk OpHash := { genuineChunk with ciphertext := [9], pcsUpdateOpHash := OpId.nil }

/-- The founder waits for that operation. -/
@[irreducible] def shadowedNode : WorkspaceState :=
  Turn.take (.call (.handle (.chunkArrived 5 shadowChunk) 0) (0 : Nat)) (sampleWorkspace 1)

end Samples

end IrohBeekem
