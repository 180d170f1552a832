import IrohBeekem.Library.Fading

/-!
# Rate limiting

A `Cooldown` holds, for each key it let through, when that was, and refuses the key again
until its window has passed.  Every claim first drops the entries whose window is over.

`claims_unforgetting` is the point of the module: over any run of claims whose instants do
not decrease, what was dropped is never missed.  The limiter answers as one which keeps
every admission for ever, and tracks no key but those it admitted within the last window.
-/

set_option linter.unusedSectionVars false

namespace IrohBeekem

open Library

/-- `std::time::Duration`, in nanoseconds. -/
abbrev Duration := Nat

/-- `std::time::Instant`, as the time passed since some origin. -/
structure Instant where
  sinceOrigin : Duration
deriving DecidableEq, Repr

instance linearOrder_instant : LinearOrder Instant :=
  LinearOrder.lift' Instant.sinceOrigin fun a b h => by cases a; cases b; simpa using h

/-- An instant a `Cooldown` can measure a window against. -/
class Deadline (I : Type) where
  /-- How much time has passed from `earlier` to `self`, or none where it is not earlier. -/
  since : (self earlier : I) → Duration

export Deadline (since)

instance deadline_instant : Deadline Instant := ⟨fun self earlier =>
  self.sinceOrigin - earlier.sinceOrigin⟩

/-- The virtual time of a simulated run. -/
instance deadline_duration : Deadline Duration := ⟨fun self earlier => self - earlier⟩

/-- What both kinds of instant promise: time passes, and none has passed since now. -/
class LawfulDeadline (I : Type) [LinearOrder I] [Deadline I] : Prop where
  since_self : ∀ t : I, since t t = 0
  since_mono : ∀ earlier later t : I, earlier ≤ later → since earlier t ≤ since later t

instance lawfulDeadline_instant : LawfulDeadline Instant where
  since_self t := Nat.sub_self t.sinceOrigin
  since_mono _ _ t h := Nat.sub_le_sub_right h t.sinceOrigin

instance lawfulDeadline_duration : LawfulDeadline Duration where
  since_self t := Nat.sub_self t
  since_mono _ _ t h := Nat.sub_le_sub_right h t

/-! ## The map -/

variable {K I : Type} [DecidableEq K]

/-- A hash map: its entries in whatever order it holds them, no key twice. -/
structure HashMap (K V : Type) where
  entries : List (K × V)
  nodup : (entries.map Prod.fst).Nodup

namespace HashMap

variable {V : Type}

/-- The map without entries. -/
def empty : HashMap K V := ⟨[], List.nodup_nil⟩

/-- Keep the entries that pass a test. -/
def retain (m : HashMap K V) (p : K → V → Bool) : HashMap K V :=
  ⟨m.entries.filter fun e => p e.1 e.2, (List.filter_sublist.map Prod.fst).nodup m.nodup⟩

def get? (m : HashMap K V) (key : K) : Option V :=
  (m.entries.find? fun e => e.1 = key).map Prod.snd

def insert (m : HashMap K V) (key : K) (v : V) : HashMap K V where
  entries := (key, v) :: m.entries.filter fun e => e.1 ≠ key
  nodup := by
    rw [List.map_cons, List.nodup_cons]
    refine ⟨?_, (List.filter_sublist.map Prod.fst).nodup m.nodup⟩
    simp [List.mem_map, List.mem_filter]

def len (m : HashMap K V) : Nat := m.entries.length

/-- The entries as a set. -/
def pairs (m : HashMap K V) : Set (K × V) := { e | e ∈ m.entries }

@[simp] theorem pairs_empty : (empty : HashMap K V).pairs = ∅ := by
  ext e
  exact iff_of_false List.not_mem_nil (Set.notMem_empty e)

theorem mem_pairs_retain {m : HashMap K V} {p : K → V → Bool} {e : K × V} :
    e ∈ (m.retain p).pairs ↔ e ∈ m.pairs ∧ p e.1 e.2 = true := List.mem_filter

theorem mem_pairs_insert {m : HashMap K V} {key : K} {v : V} {e : K × V} :
    e ∈ (m.insert key v).pairs ↔ e = (key, v) ∨ e ∈ m.pairs ∧ e.1 ≠ key := by
  show e ∈ (key, v) :: m.entries.filter _ ↔ _
  simp [pairs, List.mem_filter]

/-- A key has at most one entry, which is the one `get?` finds. -/
theorem get?_eq_some {m : HashMap K V} {key : K} {v : V} :
    m.get? key = some v ↔ (key, v) ∈ m.pairs := by
  unfold get?
  rw [Option.map_eq_some_iff]
  constructor
  · rintro ⟨⟨key', v'⟩, hfind, rfl⟩
    have hkey : key' = key := by simpa using List.find?_some hfind
    exact hkey ▸ List.mem_of_find?_eq_some hfind
  · intro hmem
    cases hfind : m.entries.find? (fun e => e.1 = key) with
    | none =>
        have hnone := List.find?_eq_none.mp hfind (key, v) hmem
        exact absurd (decide_eq_true rfl) hnone
    | some e =>
        have hkey : e.1 = key := by simpa using List.find?_some hfind
        have heq : e = (key, v) :=
          List.inj_on_of_nodup_map m.nodup (List.mem_of_find?_eq_some hfind) hmem hkey
        exact ⟨e, rfl, by rw [heq]⟩

theorem get?_eq_none {m : HashMap K V} {key : K} :
    m.get? key = none ↔ ∀ v, (key, v) ∉ m.pairs := by
  rw [Option.eq_none_iff_forall_ne_some]
  exact forall_congr' fun v => not_congr get?_eq_some

/-- A map whose keys are all in a finite set has no more entries than the set elements. -/
theorem len_le_card {m : HashMap K V} {keys : Finset K} (h : ∀ e ∈ m.pairs, e.1 ∈ keys) :
    m.len ≤ keys.card := by
  have hsub : (m.entries.map Prod.fst).toFinset ⊆ keys := by
    intro key hkey
    obtain ⟨e, he, rfl⟩ := List.mem_map.mp (List.mem_toFinset.mp hkey)
    exact h e he
  calc m.len = (m.entries.map Prod.fst).toFinset.card := by
        rw [List.toFinset_card_of_nodup m.nodup, List.length_map]; rfl
    _ ≤ keys.card := Finset.card_le_card hsub

end HashMap

/-! ## The limiter -/

/-- Rate limiter keyed on whatever distinguishes one occasion from the next. -/
structure Cooldown (K I : Type) where
  seen : HashMap K I
  window : Duration

/-- One claim and what the limiter answered. -/
structure Ruling (K I : Type) where
  key : K
  now : I
  admitted : Bool
deriving DecidableEq

namespace Cooldown

/-- A limiter that suppresses a repeated key for `window`. -/
def new (window : Duration) : Cooldown K I := ⟨HashMap.empty, window⟩

/-- A limiter that suppresses nothing. -/
instance : Inhabited (Cooldown K I) := ⟨new 0⟩

variable [Deadline I]

/-- Whether `key` may trigger its action now, recording it if so. -/
def claim (c : Cooldown K I) (key : K) (now : I) : Bool × Cooldown K I :=
  let seen := c.seen.retain fun _ t => since now t < c.window
  match seen.get? key with
  | some t =>
      if since now t < c.window then (false, { c with seen := seen })
      else (true, { c with seen := seen.insert key now })
  | none => (true, { c with seen := seen.insert key now })

/-- How many keys are currently being tracked. -/
def tracked (c : Cooldown K I) : Nat := c.seen.len

/-- The limiter after a run of claims, and what it answered to each. -/
def claims (c : Cooldown K I) (l : List (K × I)) : Cooldown K I × List (Ruling K I) :=
  l.foldl (fun p e => ((p.1.claim e.1 e.2).2,
    p.2 ++ [⟨e.1, e.2, (p.1.claim e.1 e.2).1⟩])) (c, [])

@[simp] theorem claims_nil (c : Cooldown K I) : c.claims [] = (c, []) := rfl

theorem claims_concat (c : Cooldown K I) (l : List (K × I)) (e : K × I) :
    c.claims (l ++ [e]) = (((c.claims l).1.claim e.1 e.2).2,
      (c.claims l).2 ++ [⟨e.1, e.2, ((c.claims l).1.claim e.1 e.2).1⟩]) := by
  unfold claims
  rw [List.foldl_append, List.foldl_cons, List.foldl_nil]

/-- The limiter that never forgets: a claim is admitted where no admitted claim of its key
lies within the window before it. -/
def unforgetting (window : Duration) (l : List (K × I)) : List (Ruling K I) :=
  l.foldl (fun log e => log ++ [⟨e.1, e.2,
    decide (∀ d ∈ log, d.admitted = true → d.key = e.1 → window ≤ since e.2 d.now)⟩]) []

theorem unforgetting_concat (window : Duration) (l : List (K × I)) (e : K × I) :
    unforgetting window (l ++ [e]) = unforgetting window l ++ [⟨e.1, e.2,
      decide (∀ d ∈ unforgetting window l,
        d.admitted = true → d.key = e.1 → window ≤ since e.2 d.now)⟩] := by
  unfold unforgetting
  rw [List.foldl_append, List.foldl_cons, List.foldl_nil]

/-- The keys admitted at instants whose distance from `now` passes a test. -/
def admittedKeys (log : List (Ruling K I)) (now : I) (p : Duration → Bool) : Finset K :=
  ((log.filter fun d => d.admitted && p (since now d.now)).map Ruling.key).toFinset

theorem mem_admittedKeys {log : List (Ruling K I)} {now : I} {p : Duration → Bool} {key : K} :
    key ∈ admittedKeys log now p ↔
      ∃ t, ⟨key, t, true⟩ ∈ log ∧ p (since now t) = true := by
  unfold admittedKeys
  rw [List.mem_toFinset, List.mem_map]
  constructor
  · rintro ⟨⟨key', t, admitted⟩, hmem, rfl⟩
    obtain ⟨hlog, htest⟩ := List.mem_filter.mp hmem
    obtain ⟨hadmitted, hp⟩ := Bool.and_eq_true_iff.mp htest
    have htrue : admitted = true := hadmitted
    exact ⟨t, htrue ▸ hlog, hp⟩
  · rintro ⟨t, hlog, hp⟩
    exact ⟨⟨key, t, true⟩, List.mem_filter.mpr ⟨hlog, by simpa using hp⟩, rfl⟩

/-! ## What was dropped is never missed -/

/-- An admission at `t` still bars its key at `now`. -/
def Bars (window : Duration) (now t : I) : Prop := since now t < window

/-- The admissions of a log. -/
def admissions (log : List (Ruling K I)) : Set (K × I) := { e | ⟨e.1, e.2, true⟩ ∈ log }

theorem admissions_concat (log : List (Ruling K I)) (key : K) (now : I) (admitted : Bool) :
    admissions (log ++ [⟨key, now, admitted⟩]) =
      if admitted = true then insert (key, now) (admissions log) else admissions log := by
  ext ⟨key', t⟩
  cases admitted <;> simp [admissions, or_comm]

theorem letsThrough_admissions_iff {window : Duration} {log : List (Ruling K I)} {key : K}
    {now : I} : LetsThrough (Bars window) (admissions log) key now ↔
      ∀ d ∈ log, d.admitted = true → d.key = key → window ≤ since now d.now := by
  constructor
  · rintro h ⟨key', t, admitted⟩ hd rfl rfl
    exact not_lt.mp (h t hd)
  · intro h t ht
    exact not_lt.mpr (h ⟨key, t, true⟩ ht rfl rfl)

section Claim

variable (c : Cooldown K I) (key : K) (now : I)

/-- What a claim keeps of the entries is what still bars. -/
theorem pairs_retain : (c.seen.retain fun _ t => since now t < c.window).pairs =
    recent (Bars c.window) now c.seen.pairs := by
  ext e
  rw [HashMap.mem_pairs_retain, decide_eq_true_iff]
  exact Iff.rfl

/-- A claim is refused for an entry of its key that still bars, and recorded otherwise. -/
theorem claim_cases :
    (∃ (seen : HashMap K I) (t : I), seen.pairs = recent (Bars c.window) now c.seen.pairs ∧
      (key, t) ∈ seen.pairs ∧ c.claim key now = (false, { c with seen := seen })) ∨
    ∃ seen : HashMap K I, seen.pairs = recent (Bars c.window) now c.seen.pairs ∧
      (∀ t, (key, t) ∉ seen.pairs) ∧
      c.claim key now = (true, { c with seen := seen.insert key now }) := by
  have hpairs := pairs_retain c now
  cases hget : (c.seen.retain fun _ t => since now t < c.window).get? key with
  | none =>
      refine Or.inr ⟨_, hpairs, HashMap.get?_eq_none.mp hget, ?_⟩
      simp only [claim, hget]
  | some t =>
      have hmem := HashMap.get?_eq_some.mp hget
      have hbars : since now t < c.window := (hpairs ▸ hmem : (key, t) ∈ recent _ _ _).2
      refine Or.inl ⟨_, t, hpairs, hmem, ?_⟩
      simp only [claim, hget, hbars, if_true]

theorem claim_fst_iff :
    (c.claim key now).1 = true ↔ LetsThrough (Bars c.window) c.seen.pairs key now := by
  rw [← letsThrough_recent_iff]
  obtain ⟨seen, t, hpairs, hmem, hclaim⟩ | ⟨seen, hpairs, hnone, hclaim⟩ := claim_cases c key now
  · rw [hclaim, ← hpairs]
    have hbars : Bars c.window now t := (hpairs ▸ hmem : (key, t) ∈ recent _ _ _).2
    exact iff_of_false Bool.false_ne_true fun h => h t hmem hbars
  · rw [hclaim, ← hpairs]
    exact iff_of_true rfl fun t ht => absurd ht (hnone t)

theorem claim_pairs : (c.claim key now).2.seen.pairs =
    if (c.claim key now).1 = true then insert (key, now) (recent (Bars c.window) now c.seen.pairs)
    else recent (Bars c.window) now c.seen.pairs := by
  obtain ⟨seen, t, hpairs, -, hclaim⟩ | ⟨seen, hpairs, hnone, hclaim⟩ := claim_cases c key now
  · rw [hclaim, if_neg Bool.false_ne_true]
    exact hpairs
  · rw [hclaim, if_pos rfl, ← hpairs]
    ext e
    rw [HashMap.mem_pairs_insert, Set.mem_insert_iff]
    -- nothing is replaced, for an entry of this key would have refused the claim
    have hother : e ∈ seen.pairs → e.1 ≠ key := fun he hkey => hnone e.2 (hkey ▸ he)
    exact or_congr_right ⟨fun h => h.1, fun h => ⟨h, hother h⟩⟩

@[simp] theorem claim_window : (c.claim key now).2.window = c.window := by
  obtain ⟨seen, t, -, -, hclaim⟩ | ⟨seen, -, -, hclaim⟩ := claim_cases c key now
  · rw [hclaim]
  · rw [hclaim]

end Claim

variable [LinearOrder I] [LawfulDeadline I]

theorem fades_bars (window : Duration) : Fades (Bars window : I → I → Prop) :=
  fun earlier later t hle h => (LawfulDeadline.since_mono earlier later t hle).trans_lt h

/-- What a limiter holds of the log it answered, at an instant no claim of it is after. -/
structure Tracks (c : Cooldown K I) (log : List (Ruling K I)) (now : I) : Prop where
  alike : Alike (Bars c.window) now c.seen.pairs (admissions log)
  known : c.seen.pairs ⊆ admissions log

theorem Tracks.later {c : Cooldown K I} {log : List (Ruling K I)} {earlier now : I}
    (h : c.Tracks log earlier) (hle : earlier ≤ now) : c.Tracks log now where
  alike := h.alike.later (fades_bars c.window) hle
  known := h.known

/-- A claim is answered by what barred it in the log, and the log stays tracked. -/
theorem Tracks.claim {c : Cooldown K I} {log : List (Ruling K I)} {now : I}
    (h : c.Tracks log now) (key : K) :
    ((c.claim key now).1 = true ↔
      ∀ d ∈ log, d.admitted = true → d.key = key → c.window ≤ since now d.now) ∧
    (c.claim key now).2.Tracks (log ++ [⟨key, now, (c.claim key now).1⟩]) now := by
  constructor
  · rw [claim_fst_iff, h.alike.letsThrough_iff, letsThrough_admissions_iff]
  · have hrecent := h.alike.recent_left
    have hknown : recent (Bars c.window) now c.seen.pairs ⊆ admissions log :=
      recent_subset.trans h.known
    constructor
    · rw [claim_window, claim_pairs, admissions_concat]
      split_ifs
      · exact hrecent.remember (key, now)
      · exact hrecent
    · rw [claim_pairs, admissions_concat]
      split_ifs
      · exact Set.insert_subset_insert hknown
      · exact hknown

/-- After any run of claims, at any instant none of them is after, the answers are those of the
limiter that never forgets, and the log they make is tracked. -/
theorem claims_tracks (window : Duration) {l : List (K × I)}
    (hl : l.Pairwise fun a b => a.2 ≤ b.2) {now : I} (hnow : ∀ e ∈ l, e.2 ≤ now) :
    ((new window).claims l).1.window = window ∧
    ((new window).claims l).2 = unforgetting window l ∧
    ((new window).claims l).1.Tracks ((new window).claims l).2 now := by
  induction l using List.reverseRecOn generalizing now with
  | nil =>
      refine ⟨rfl, rfl, ?_, fun e he => absurd he List.not_mem_nil⟩
      have hempty : (new window : Cooldown K I).seen.pairs =
          admissions ([] : List (Ruling K I)) := by
        ext e
        exact iff_of_false List.not_mem_nil List.not_mem_nil
      rw [claims_nil, hempty]
      exact Alike.refl _
  | append_singleton l e ih =>
      obtain ⟨hbefore, -, hcross⟩ := List.pairwise_append.mp hl
      have hlast : ∀ x ∈ l, x.2 ≤ e.2 := fun x hx => hcross x hx e (List.mem_singleton_self e)
      obtain ⟨hwindow, hlog, htracks⟩ := ih hbefore hlast
      obtain ⟨hverdict, hafter⟩ := htracks.claim e.1
      rw [claims_concat]
      refine ⟨by rw [claim_window, hwindow], ?_, ?_⟩
      · rw [hwindow] at hverdict
        have hadmitted : (((new window).claims l).1.claim e.1 e.2).1 =
            decide (∀ d ∈ ((new window).claims l).2,
              d.admitted = true → d.key = e.1 → window ≤ since e.2 d.now) := by
          rw [Bool.eq_iff_iff, hverdict, decide_eq_true_iff]
        rw [unforgetting_concat, ← hlog, hadmitted]
      · exact hafter.later (hnow e (List.mem_append_right l (List.mem_singleton_self e)))

/-- What a claim leaves bars at its instant, or is the claim itself. -/
theorem recent_of_claim {c : Cooldown K I} {key : K} {now : I} {e : K × I}
    (h : e ∈ (c.claim key now).2.seen.pairs) : since now e.2 < c.window ∨ e = (key, now) := by
  rw [claim_pairs] at h
  split_ifs at h
  · rcases Set.mem_insert_iff.mp h with rfl | h
    · exact Or.inr rfl
    · exact Or.inl h.2
  · exact Or.inl h.2

/-- The pruned limiter equals the unpruned one.  Over any run of claims whose instants do not
decrease it answers as the limiter that never forgets, and after the last of them, made at
`now`, it tracks no more keys than were admitted within the window up to `now`.  The two ends
of that window differ for a window of zero alone, where only the claim just made is tracked. -/
theorem claims_unforgetting (window : Duration) (l : List (K × I))
    (hl : l.Pairwise fun a b => a.2 ≤ b.2) :
    ((new window).claims l).2 = unforgetting window l ∧
    ∀ before key now, l = before ++ [(key, now)] →
      ((new window).claims l).1.tracked ≤
        (admittedKeys ((new window).claims l).2 now (· ≤ window)).card ∧
      (0 < window → ((new window).claims l).1.tracked ≤
        (admittedKeys ((new window).claims l).2 now (· < window)).card) := by
  constructor
  · cases hlast : l.getLast? with
    | none => rw [List.getLast?_eq_none_iff.mp hlast]; rfl
    | some e =>
        have hmax : ∀ x ∈ l, x.2 ≤ e.2 := by
          obtain ⟨before, rfl⟩ := List.getLast?_eq_some_iff.mp hlast
          intro x hx
          rcases List.mem_append.mp hx with hx | hx
          · exact (List.pairwise_append.mp hl).2.2 x hx e (List.mem_singleton_self e)
          · rw [List.mem_singleton.mp hx]
        exact (claims_tracks window hl hmax).2.1
  · rintro before key now rfl
    have hmax : ∀ x ∈ before ++ [(key, now)], x.2 ≤ now := by
      intro x hx
      rcases List.mem_append.mp hx with hx | hx
      · exact (List.pairwise_append.mp hl).2.2 x hx _ (List.mem_singleton_self _)
      · rw [List.mem_singleton.mp hx]
    obtain ⟨hwindow, -, htracks⟩ := claims_tracks window hl hmax
    have hwithin : ∀ e ∈ ((new window).claims (before ++ [(key, now)])).1.seen.pairs,
        since now e.2 < window ∨ e = (key, now) := by
      intro e he
      have hbefore := (claims_tracks window (List.pairwise_append.mp hl).1
        fun x hx => hmax x (List.mem_append_left _ hx)).1
      rw [claims_concat] at he
      exact hbefore ▸ recent_of_claim he
    constructor
    · refine HashMap.len_le_card fun e he => mem_admittedKeys.mpr ⟨e.2, htracks.known he, ?_⟩
      rw [decide_eq_true_iff]
      rcases hwithin e he with hlt | rfl
      · exact hlt.le
      · exact (LawfulDeadline.since_self now).trans_le (Nat.zero_le window)
    · intro hpos
      refine HashMap.len_le_card fun e he => mem_admittedKeys.mpr ⟨e.2, htracks.known he, ?_⟩
      rw [decide_eq_true_iff]
      rcases hwithin e he with hlt | rfl
      · exact hlt
      · exact (LawfulDeadline.since_self now).trans_lt hpos

section Samples

/-- A key claimed inside its window, another beside it, and the first again at the window's edge. -/
def virtualClaims : List (Nat × Duration) := [(1, 900), (1, 1100), (2, 1100), (1, 1400)]

theorem claims_unforgetting_virtual :
    ((new 500).claims virtualClaims).2 = [⟨1, 900, true⟩, ⟨1, 1100, false⟩, ⟨2, 1100, true⟩,
      ⟨1, 1400, true⟩] ∧ ((new 500).claims virtualClaims).1.tracked ≤
      (admittedKeys ((new 500).claims virtualClaims).2 1400 (· < 500)).card := by
  have hsorted : virtualClaims.Pairwise fun a b => a.2 ≤ b.2 := by decide
  obtain ⟨hrulings, htracked⟩ := claims_unforgetting 500 virtualClaims hsorted
  exact ⟨hrulings.trans (by decide), (htracked [(1, 900), (1, 1100), (2, 1100)] 1 1400 rfl).2
    (by decide)⟩

end Samples

end Cooldown

end IrohBeekem
