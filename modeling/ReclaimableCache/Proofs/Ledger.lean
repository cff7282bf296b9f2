import Mathlib.Algebra.BigOperators.Group.List.Basic
import Mathlib.Data.Nat.ModEq
import Mathlib.Tactic.Ring
import ReclaimableCache.Proofs.Fate

/-!
# Ledgers

What the moves of some work add up to. A counter of a cache has been raised by the gains of all
moves that were made. What a pass or a reclaim releases, puts in line and lets fail is counted once
more when it ends, so that over any work the two sides are even.
-/

namespace ReclaimableCache

variable {K V α β : Type}

section

variable [DecidableEq K]

/-! ### Totals -/

namespace Work

/-- What the moves of some work weigh together. -/
def total (weight : Step K V → ℤ) (w : Work K V α) (h : Host K V) : ℤ :=
  ((w.steps h).map weight).sum

variable (weight : Step K V → ℤ)

@[simp] theorem total_pure (a : α) (h : Host K V) : (pure a : Work K V α).total weight h = 0 := rfl

@[simp] theorem total_make (m : Move K V) (h : Host K V) :
    (make m).total weight h = weight ⟨h, m⟩ := by
  simp [total]

/-- What both parts weigh is added up. -/
@[simp] theorem total_bind (w : Work K V α) (f : α → Work K V β) (h : Host K V) :
    (w >>= f).total weight h = w.total weight h + (f (w.run h).2).total weight (w.run h).1 := by
  simp [total]

@[simp] theorem total_map (f : α → β) (w : Work K V α) (h : Host K V) :
    (f <$> w).total weight h = w.total weight h := by
  simp [total]

/-- A number that each move raises by what comes in, and lowers by what goes out. -/
theorem balance_run (number : Host K V → ℕ) {income outgo : Step K V → ℕ} {w : Work K V α}
    {h : Host K V}
    (each : ∀ s ∈ w.steps h, number s.after + outgo s = number s.before + income s) :
    number (w.run h).1 + ((w.steps h).map outgo).sum =
      number h + ((w.steps h).map income).sum := by
  induction w generalizing h with
  | done a => rfl
  | move m next ih =>
    have first := each ⟨h, m⟩ List.mem_cons_self
    have rest := @ih (m.make h).2 (m.make h).1 fun s member => each s (List.mem_cons_of_mem _ member)
    simp only [steps, List.map_cons, List.sum_cons, run, Step.after] at first rest ⊢
    omega

end Work

theorem countP_eq_sum {σ : Type} (p : σ → Bool) (l : List σ) :
    l.countP p = (l.map fun x => (p x).toNat).sum := by
  induction l with
  | nil => rfl
  | cons x l ih => cases holds : p x <;> simp [holds, ih, Nat.add_comm]

theorem sum_eq_add_sum {σ : Type} {l : List σ} {a b : σ → ℕ} {weight : σ → ℤ}
    (weighs : ∀ s ∈ l, (a s : ℤ) = b s + weight s) :
    ((l.map a).sum : ℤ) = (l.map b).sum + (l.map weight).sum := by
  induction l with
  | nil => rfl
  | cons s l ih =>
    have first := weighs s List.mem_cons_self
    have rest := ih fun t member => weighs t (List.mem_cons_of_mem _ member)
    simp only [List.map_cons, List.sum_cons, Nat.cast_add]
    omega

/-- Of a sum over caches one summand is left. -/
theorem sum_range_single {f : Nat → Nat} {d n : Nat} (others : ∀ c, c ≠ d → f c = 0)
    (outside : n ≤ d → f d = 0) : ((List.range n).map f).sum = f d := by
  induction n with
  | zero => exact (outside (Nat.zero_le d)).symm
  | succ n ih =>
    rw [List.range_succ, List.map_append, List.sum_append, List.map_singleton, List.sum_singleton]
    by_cases last : n = d
    · have before : ((List.range n).map f).sum = 0 := by
        apply List.sum_eq_zero
        intro x member
        obtain ⟨c, inside, rfl⟩ := List.mem_map.mp member
        rw [List.mem_range] at inside
        exact others c (by omega)
      rw [before, last, Nat.zero_add]
    · rw [ih fun below => outside (by omega), others n last, Nat.add_zero]

/-! ### Counters -/

/-- A counter of a cache by its kind. -/
inductive Metric where
  | hits
  | misses
  | newInserts
  | updates
  | removals
  | reclaimed
  | evicted
  | swept
  | cleanerFailures
  | pressureEvents
  deriving DecidableEq

/-- What a counter stands at. -/
def Counters.value (n : Counters) : Metric → UInt64
  | .hits => n.hits
  | .misses => n.misses
  | .newInserts => n.newInserts
  | .updates => n.updates
  | .removals => n.removals
  | .reclaimed => n.reclaimed
  | .evicted => n.evicted
  | .swept => n.swept
  | .cleanerFailures => n.cleanerFailures
  | .pressureEvents => n.pressureEvents

/-- What a move adds to a counter of the cache that it is made on. -/
def Move.gain (board : PressureBoard) (cache : Cache K V) : Move K V → Metric → Nat
  | sweep _, .swept => cache.sweep.2
  | consult _, .pressureEvents => (cache.usage board).underPressure.toNat
  | closePass _ released _, .reclaimed => released
  | closePass _ released _, .evicted => released
  | closePass _ _ failures, .cleanerFailures => failures
  | countReclaim _ _, .reclaimed => 1
  | countReclaim _ failed, .cleanerFailures => failed.toNat
  | look _ key, .hits => (cache.touch key).2.isSome.toNat
  | look _ key, .misses => (cache.touch key).2.isNone.toNat
  | place _ key _, .newInserts => (cache.table.get? key).isNone.toNat
  | place _ key _, .updates => (cache.table.get? key).isSome.toNat
  | takeOut _ key, .removals => (cache.table.get? key).isSome.toNat
  | _, _ => 0

namespace Cache

/-- A look-up is a hit or a miss. -/
theorem counters_touch (c : Cache K V) (key : K) : (c.touch key).1.counters =
    (c.touch key).2.elim c.counters.miss fun _ => c.counters.hit := by
  rw [touch]
  cases c.table.get? key with
  | none => rfl
  | some id =>
    dsimp only
    cases (c.pin id).pool.value? id <;> rfl

/-- What is not there is not removed. -/
theorem counters_takeOut (c : Cache K V) (key : K) : (c.takeOut key).1.counters =
    if (c.table.get? key).isSome then c.counters.remove else c.counters := by
  rw [takeOut]
  cases c.table.get? key <;> rfl

/-- A value is new, or takes the place of another. -/
theorem counters_store (c : Cache K V) (key : K) (value : V) : (c.store key value).1.counters =
    if (c.table.get? key).isSome then c.counters.update else c.counters.newInsert := by
  rw [store]
  cases c.table.get? key <;> rfl

/-- A move raises each counter by its gain. -/
theorem value_effect (c : Cache K V) (m : Move K V) (board : PressureBoard) (metric : Metric) :
    (m.effect board c).counters.value metric =
      c.counters.value metric + (m.gain board c metric).toUInt64 := by
  have idle : c.counters.value metric = c.counters.value metric + Nat.toUInt64 0 :=
    (UInt64.add_zero _).symm
  cases m with
  | sweep _ => cases metric <;> first | rfl | exact idle
  | consult _ =>
    rw [Move.effect, consult]
    cases under : (c.usage board).underPressure <;> cases metric <;>
      simp [Move.gain, under, Counters.value, Counters.pressureEvent]
  | closePass _ released failures => cases metric <;> first | rfl | exact idle
  | countReclaim _ failed => cases failed <;> cases metric <;> first | rfl | exact idle
  | look _ key =>
    rw [Move.effect, counters_touch]
    cases looked : (c.touch key).2 <;> cases metric <;>
      simp [Move.gain, looked, Counters.value, Counters.hit, Counters.miss]
  | place _ key value =>
    rw [Move.effect, counters_store]
    cases bound : c.table.get? key <;> cases metric <;>
      simp [Move.gain, bound, Counters.value, Counters.update, Counters.newInsert]
  | takeOut _ key =>
    rw [Move.effect, counters_takeOut]
    cases bound : c.table.get? key <;> cases metric <;>
      simp [Move.gain, bound, Counters.value, Counters.remove]
  | releaseValue _ key =>
    rw [Move.effect, releaseValueOf]
    split <;> exact idle
  | _ => exact idle

end Cache

/-- What a move adds to a counter of a cache. -/
def Step.gain (c : CacheId) (metric : Metric) (s : Step K V) : Nat :=
  if s.move.target = some c then
    (s.before.cache? c).elim 0 fun cache => s.move.gain s.before.board cache metric
  else 0

/-- What moves add to a counter of a cache. -/
def gained (c : CacheId) (metric : Metric) (history : List (Step K V)) : Nat :=
  (history.map (Step.gain c metric)).sum

/-- What a move adds to a counter of whatever cache. -/
def Step.gains (metric : Metric) (s : Step K V) : Nat :=
  s.move.target.elim 0 fun c => s.gain c metric

/-- What a counter of a cache stands at; those of a cache that is not there stand at zero. -/
def Host.counter (h : Host K V) (c : CacheId) (metric : Metric) : UInt64 :=
  (h.cache? c).elim 0 fun cache => cache.counters.value metric

omit [DecidableEq K] in
theorem Host.counter_of_some {h : Host K V} {c : CacheId} {cache : Cache K V}
    (found : h.cache? c = some cache) (metric : Metric) :
    h.counter c metric = cache.counters.value metric := by
  rw [counter, found, Option.elim_some]

/-- A counter goes up by what the move gains, modulo its width. -/
theorem Host.counter_make (h : Host K V) (m : Move K V) (c : CacheId) (metric : Metric) :
    (m.make h).1.counter c metric =
      h.counter c metric + (Step.gain c metric ⟨h, m⟩).toUInt64 := by
  cases found : h.cache? c with
  | none =>
    have still : (m.make h).1.counter c metric = 0 := by
      cases there : (m.make h).1.cache? c with
      | none => rw [counter, there, Option.elim_none]
      | some cache =>
        rcases Move.exists_of_cache?_make m there with ⟨old, before, _⟩ | ⟨_, config, _, _, made⟩
        · rw [found] at before
          cases before
        · rw [counter_of_some there, (Cache.new_assemble made).counters]
          cases metric <;> rfl
    rw [still, counter, Step.gain, found, Option.elim_none, Option.elim_none, ite_self]
    rfl
  | some cache =>
    rw [counter_of_some found, counter_of_some (Move.cache?_make_of_some found m), Move.effectOn,
      Step.gain, found]
    by_cases target : m.target = some c
    · simp only [target, if_true, Option.elim_some]
      exact cache.value_effect m h.board metric
    · simp [target]

namespace Work

/-- Each counter goes up by what the moves add to it. -/
theorem counter_run (w : Work K V α) (h : Host K V) (c : CacheId) (metric : Metric) :
    (w.run h).1.counter c metric = h.counter c metric + (gained c metric (w.steps h)).toUInt64 := by
  induction w generalizing h with
  | done a => exact (UInt64.add_zero _).symm
  | move m next ih =>
    have first := h.counter_make m c metric
    have rest := ih (m.make h).2 (m.make h).1
    rw [first] at rest
    simp only [gained, steps, run, List.map_cons, List.sum_cons, Nat.toUInt64_eq, UInt64.ofNat_add]
      at rest ⊢
    rw [rest, UInt64.add_assoc]

end Work

/-- No counter runs over by what moves add to it. -/
def InRange (history : List (Step K V)) : Prop := ∀ c metric, gained c metric history < 2 ^ 64

/-- A number that is counted in words is right up to whole turns of the counters, and right if no
    counter ran over. -/
def Agrees (inRange : Prop) (a b : Nat) : Prop := a ≡ b [MOD 2 ^ 64] ∧ (inRange → a = b)

namespace Agrees

omit [DecidableEq K]

variable {inRange : Prop} {a b c d : Nat}

theorem trans (first : Agrees inRange a b) (second : Agrees inRange b c) : Agrees inRange a c :=
  ⟨first.1.trans second.1, fun right => (first.2 right).trans (second.2 right)⟩

theorem symm (agrees : Agrees inRange a b) : Agrees inRange b a :=
  ⟨agrees.1.symm, fun right => (agrees.2 right).symm⟩

theorem of_eq (same : a = b) : Agrees inRange a b := ⟨same ▸ Nat.ModEq.refl a, fun _ => same⟩

theorem add (first : Agrees inRange a b) (second : Agrees inRange c d) :
    Agrees inRange (a + c) (b + d) :=
  ⟨first.1.add second.1, fun right => by rw [first.2 right, second.2 right]⟩

/-- Sums agree if their summands do. -/
theorem sum {σ : Type} {f g : σ → Nat} (l : List σ) (agrees : ∀ x, Agrees inRange (f x) (g x)) :
    Agrees inRange (l.map f).sum (l.map g).sum := by
  induction l with
  | nil => exact .of_eq rfl
  | cons x l ih =>
    rw [List.map_cons, List.map_cons, List.sum_cons, List.sum_cons]
    exact (agrees x).add ih

end Agrees

/-- What all counters of a kind stand at together. -/
def Host.total (h : Host K V) (metric : Metric) : Nat :=
  ((List.range h.nextCache).map fun c => (h.counter c metric).toNat).sum

/-- A cache that is not there gains nothing. -/
theorem Step.gain_of_absent {s : Step K V} {c : CacheId} (absent : s.before.cache? c = none)
    (metric : Metric) : s.gain c metric = 0 := by
  rw [gain, absent, Option.elim_none, ite_self]

omit [DecidableEq K] in
theorem Host.lt_nextCache {h : Host K V} {c : CacheId} {cache : Cache K V}
    (found : h.cache? c = some cache) : c < h.nextCache := by
  rw [cache?, Option.join_eq_some_iff] at found
  exact (Array.getElem?_eq_some_iff.mp found).1

/-- A move adds to counters of one cache only. -/
theorem Step.sum_gain {s : Step K V} {n : Nat} (bound : s.before.nextCache ≤ n) (metric : Metric) :
    ((List.range n).map fun c => s.gain c metric).sum = s.gains metric := by
  cases target : s.move.target with
  | none =>
    have none : ∀ c, s.gain c metric = 0 := fun c => by simp [gain, target]
    simp [gains, target, none]
  | some d =>
    rw [gains, target, Option.elim_some]
    refine sum_range_single (f := fun c => s.gain c metric) (fun c other => ?_) fun outside => ?_
    · have away : s.move.target ≠ some c := by
        rw [target]
        exact fun same => other (Option.some.inj same).symm
      rw [gain, if_neg away]
    · cases found : s.before.cache? d with
      | none => exact gain_of_absent found metric
      | some cache =>
        have inside := Host.lt_nextCache found
        exact absurd inside (Nat.not_lt.mpr (Nat.le_trans bound outside))

theorem Step.gains_of_target {s : Step K V} {c : CacheId} (target : s.move.target = some c)
    (metric : Metric) : s.gains metric =
      (s.before.cache? c).elim 0 fun cache => s.move.gain s.before.board cache metric := by
  rw [gains, target, Option.elim_some, gain, if_pos target]

theorem Step.gains_eq_zero {s : Step K V} {metric : Metric}
    (none : ∀ board cache, s.move.gain board cache metric = 0) : s.gains metric = 0 := by
  cases target : s.move.target with
  | none => rw [gains, target, Option.elim_none]
  | some c =>
    rw [gains_of_target target]
    cases s.before.cache? c <;> simp [none]

/-- What one cache gains is part of what all of them gain. -/
theorem Step.gain_le_gains (s : Step K V) (c : CacheId) (metric : Metric) :
    s.gain c metric ≤ s.gains metric := by
  cases target : s.move.target with
  | none => simp [gain, target]
  | some d =>
    by_cases same : d = c
    · rw [gains, target, Option.elim_some, same]
    · simp [gain, target, same]

theorem Step.gain_eq_zero {s : Step K V} {metric : Metric}
    (none : ∀ board cache, s.move.gain board cache metric = 0) (c : CacheId) :
    s.gain c metric = 0 := by
  have most := s.gain_le_gains c metric
  rw [gains_eq_zero none] at most
  exact Nat.le_zero.mp most

theorem gained_le_sum_gains (history : List (Step K V)) (c : CacheId) (metric : Metric) :
    gained c metric history ≤ (history.map (Step.gains metric)).sum := by
  induction history with
  | nil => exact Nat.le_refl 0
  | cons s history ih =>
    have first := s.gain_le_gains c metric
    simp only [gained, List.map_cons, List.sum_cons] at ih ⊢
    omega

/-- What the caches gained is what all moves gained. -/
theorem sum_gained {n : Nat} {history : List (Step K V)}
    (bound : ∀ s ∈ history, s.before.nextCache ≤ n) (metric : Metric) :
    ((List.range n).map fun c => gained c metric history).sum =
      (history.map (Step.gains metric)).sum := by
  induction history with
  | nil => simp [gained]
  | cons s history ih =>
    have first := Step.sum_gain (bound s List.mem_cons_self) metric
    have rest := ih fun t member => bound t (List.mem_cons_of_mem _ member)
    simp only [gained, List.map_cons, List.sum_cons, List.sum_map_add] at rest ⊢
    omega

/-- Caches are never lost. -/
theorem Host.nextCache_le_make (m : Move K V) (h : Host K V) :
    h.nextCache ≤ (m.make h).1.nextCache := by
  by_cases builds : ∃ config, m = .build config
  · obtain ⟨config, rfl⟩ := builds
    have added : ∀ (g : Host K V) (cache : Option (Cache K V)), g.nextCache = h.nextCache →
        h.nextCache ≤ (g.addCache cache).nextCache := by
      intro g cache same
      rw [← same, addCache, nextCache, nextCache, Array.size_push]
      exact Nat.le_succ _
    rw [Move.make, build]
    cases config.check with
    | error e => exact added h none rfl
    | ok checked =>
      dsimp only
      split
      · exact added _ none rfl
      · exact added _ (some _) rfl
  · exact Nat.le_of_eq (nextCache_make (fun config same => builds ⟨config, same⟩) h).symm

namespace Work

/-- Numbers of caches are never taken back. -/
theorem nextCache_le_run (w : Work K V α) (h : Host K V) :
    ∀ s ∈ w.steps h, s.before.nextCache ≤ (w.run h).1.nextCache := fun s member =>
  Nat.le_trans (Host.nextCache_le_make s.move s.before)
    ((w.pairwise_steps (R := fun h g => h.nextCache ≤ g.nextCache) (fun _ => Nat.le_refl _)
      Nat.le_trans Host.nextCache_le_make h).2 s member)

/-- All counters of a kind together stand at what the moves added to them. -/
theorem agrees_total (w : Work K V α) {h : Host K V} (fresh : ∀ c metric, h.counter c metric = 0)
    (metric : Metric) : Agrees (InRange (w.steps h)) ((w.run h).1.total metric)
      (((w.steps h).map (Step.gains metric)).sum) := by
  have counted : ∀ c, Agrees (InRange (w.steps h)) ((w.run h).1.counter c metric).toNat
      (gained c metric (w.steps h)) := by
    intro c
    have value : ((w.run h).1.counter c metric).toNat = gained c metric (w.steps h) % 2 ^ 64 := by
      rw [w.counter_run, fresh, UInt64.zero_add, Nat.toUInt64_eq, UInt64.toNat_ofNat']
    rw [value]
    exact ⟨Nat.mod_modEq _ _, fun inRange => Nat.mod_eq_of_lt (inRange c metric)⟩
  rw [Host.total, ← sum_gained (w.nextCache_le_run h) metric]
  exact Agrees.sum _ counted

end Work

/-! ### Values that are released -/

namespace Step

/-- The values that a move releases. -/
def victims (s : Step K V) : List (Victim K V) :=
  match s.move with
  | .releaseValues c budget => ((Move.releaseValues c budget).make s.before).2
  | .releaseValue c key => ((Move.releaseValue c key).make s.before).2.toList
  | _ => []

/-- How many values of a cache are released. -/
def released (c : CacheId) (s : Step K V) : Nat :=
  (s.before.cache? c).elim 0 fun cache =>
    (List.range cache.pool.nextId).countP fun id => s.releases c id

variable {s : Step K V} {c : CacheId} {cache : Cache K V}

/-- There is nothing to be released in a cache that is not there. -/
theorem victims_of_absent (absent : s.before.cache? c = none) (target : s.move.target = some c) :
    s.victims = [] := by
  obtain ⟨h, m⟩ := s
  cases m with
  | releaseValues d budget =>
    cases target
    simp [victims, Move.make, Host.onCache, absent]
  | releaseValue d key =>
    cases target
    simp [victims, Move.make, Host.onCache, absent]
  | _ => rfl

/-- A move that releases values releases those of its victims. -/
theorem releases_victims (found : s.before.cache? c = some cache)
    (target : s.move.target = some c) (releases : s.move.releases = true) :
    cache.pool.Releases (s.move.effect s.before.board cache).pool s.victims := by
  obtain ⟨h, m⟩ := s
  cases m with
  | releaseValues d budget =>
    cases target
    simp only [victims, Move.make, Host.onCache, found]
    exact cache.releases_releaseValues budget
  | releaseValue d key =>
    cases target
    simp only [victims, Move.make, Host.onCache, found]
    exact cache.releases_releaseValueOf key
  | _ => cases releases

/-- A pass releases each value once. -/
theorem made_of_victims (found : s.before.cache? c = some cache)
    (target : s.move.target = some c) :
    (s.victims.map Victim.id).Nodup ∧
      ∀ id ∈ s.victims.map Victim.id, id < cache.pool.nextId := by
  cases releases : s.move.releases with
  | true =>
    have victims := releases_victims found target releases
    refine ⟨victims.nodup, fun id member => ?_⟩
    obtain ⟨v, victim, rfl⟩ := List.mem_map.mp member
    obtain ⟨slot, made, _⟩ := victims.were v victim
    exact SlotPool.lt_nextId made
  | false =>
    have none : s.victims = [] := by
      obtain ⟨h, m⟩ := s
      cases m <;> first | rfl | cases releases
    simp [none]

/-- The slots whose values are released are those of the victims. -/
theorem releases_iff (consistent : s.before.Consistent) (id : SlotId) :
    s.releases c id = true ↔ s.move.target = some c ∧ id ∈ s.victims.map Victim.id := by
  obtain ⟨h, m⟩ := s
  constructor
  · intro released
    obtain ⟨held, target, releases⟩ := Host.of_releases consistent released
    refine ⟨target, ?_⟩
    cases found : h.cache? c with
    | none => simp [Host.holds, found] at held
    | some cache =>
      have victims := releases_victims (s := ⟨h, m⟩) found target releases
      have after := Move.cache?_make_of_target found target
      simp only [Step.releases, Step.after, Host.isDead, found, after, Option.any_some,
        Bool.and_eq_true, Bool.not_eq_true', victims.isDead] at released
      rcases released.2 with victim | before
      · exact victim
      · rw [released.1] at before
        cases before
  · rintro ⟨target, victim⟩
    cases found : h.cache? c with
    | none =>
      rw [victims_of_absent (s := ⟨h, m⟩) found target] at victim
      cases victim
    | some cache =>
      have releases : m.releases = true := by
        cases m <;> first | rfl | cases victim
      have victims := releases_victims (s := ⟨h, m⟩) found target releases
      have after := Move.cache?_make_of_target found target
      obtain ⟨v, member, rfl⟩ := List.mem_map.mp victim
      obtain ⟨slot, made, _, _, live⟩ := victims.were v member
      have alive : cache.pool.isDead v.id = false := by simp [SlotPool.isDead, made, live]
      simp only [Step.releases, Step.after, Host.isDead, found, after, Option.any_some, alive,
        Bool.not_false, Bool.true_and]
      exact victims.isDead.mpr (.inl victim)

/-- The slots that a move lets die are its victims. -/
theorem released_eq (consistent : s.before.Consistent) (c : CacheId) :
    s.released c = if s.move.target = some c then s.victims.length else 0 := by
  by_cases target : s.move.target = some c
  · rw [if_pos target]
    cases found : s.before.cache? c with
    | none => rw [released, found, victims_of_absent found target, Option.elim_none, List.length_nil]
    | some cache =>
      obtain ⟨nodup, made⟩ := made_of_victims found target
      have ids : ((List.range cache.pool.nextId).filter fun id => s.releases c id).Perm
          (s.victims.map Victim.id) := by
        rw [List.perm_ext_iff_of_nodup (List.nodup_range.filter _) nodup]
        intro id
        rw [List.mem_filter, List.mem_range, releases_iff consistent]
        exact ⟨fun both => both.2.2, fun victim => ⟨made id victim, target, victim⟩⟩
      rw [released, found, Option.elim_some, List.countP_eq_length_filter, ids.length_eq,
        List.length_map]
  · have none : ∀ id, s.releases c id = false := by
      intro id
      rw [← Bool.not_eq_true, releases_iff consistent]
      exact fun both => target both.1
    rw [if_neg target, released]
    cases s.before.cache? c <;> simp [none]

/-- Only the values of one cache are released at a time. -/
theorem sum_released (consistent : s.before.Consistent) :
    ((List.range s.before.nextCache).map fun c => s.released c).sum = s.victims.length := by
  cases target : s.move.target with
  | none =>
    have none : s.victims = [] := by
      obtain ⟨h, m⟩ := s
      cases m <;> first | rfl | cases target
    simp [released_eq consistent, target, none]
  | some d =>
    rw [sum_range_single (f := fun c => s.released c) (d := d), released_eq consistent,
      if_pos target]
    · intro c other
      rw [released_eq consistent, target, if_neg fun same => other (Option.some.inj same).symm]
    · intro outside
      cases found : s.before.cache? d with
      | none => rw [released, found, Option.elim_none]
      | some cache => exact absurd (Host.lt_nextCache found) (Nat.not_lt.mpr outside)

end Step

end

/-! ### What a pass and a reclaim count -/

/-- What is put down for each part of a release. The end of a pass takes it back by the numbers that
    it counts, and so does the count of a reclaim. -/
structure Rates where
  /-- For each value of a cache that is released. -/
  released : CacheId → ℤ
  /-- For each slot that is put in line. -/
  queued : CacheId → ℤ
  /-- For each call of a cleaner on a slot that fails. -/
  failed : CacheId → SlotId → ℤ
  /-- What a failure is taken for at the end of a pass. -/
  failedInPass : CacheId → ℤ
  /-- What a failure is taken for in the count of a reclaim. -/
  failedInReclaim : CacheId → ℤ

section

variable [DecidableEq K]

namespace Rates

/-- What a move puts down or takes back. -/
def weight (rates : Rates) (s : Step K V) : ℤ :=
  match s.move with
  | .releaseValues c _ | .releaseValue c _ => rates.released c * s.victims.length
  | .leaveCleaner call _ verdict =>
      if verdict = .succeeded then 0 else rates.failed call.cache call.slot
  | .enqueue c _ => rates.queued c
  | .closePass c released failures =>
      -((rates.released c + rates.queued c) * released + rates.failedInPass c * failures)
  | .countReclaim c failed =>
      -(rates.released c + rates.queued c + if failed then rates.failedInReclaim c else 0)
  | _ => 0

/-- Failures are put down for what they are taken back for. -/
def Fit (rates : Rates) (s : Step K V) : Prop :=
  ∀ c id, s.releases c id = true → rates.failed c id =
    match s.move with
    | .releaseValue .. => rates.failedInReclaim c
    | _ => rates.failedInPass c

end Rates

namespace Work

/-- As much is taken back in the course of some work as is put down. -/
def Repays (rates : Rates) (w : Work K V α) : Prop :=
  ∀ h : Host K V, h.Consistent → (∀ s ∈ w.steps h, rates.Fit s) → w.total rates.weight h = 0

variable {rates : Rates}

theorem repays_pure (a : α) : (pure a : Work K V α).Repays rates := fun _ _ _ => rfl

/-- Each part repays what it takes. -/
theorem Repays.bind {w : Work K V α} {f : α → Work K V β} (first : w.Repays rates)
    (second : ∀ a, (f a).Repays rates) : (w >>= f).Repays rates := by
  intro h consistent fit
  rw [steps_bind] at fit
  rw [total_bind, first h consistent fun s member => fit s (List.mem_append_left _ member),
    second _ _ (consistent.work w).2 fun s member => fit s (List.mem_append_right _ member)]
  rfl

/-- Most moves count nothing at these rates. -/
theorem repays_make {m : Move K V} (nothing : ∀ h : Host K V, rates.weight ⟨h, m⟩ = 0) :
    (make m).Repays rates := by
  intro h _ _
  rw [total_make, nothing]

section

variable {run : CallbackRunner K V} (callbacks : ∀ r, (run r).Repays rates)

include callbacks

/-- A failure is put down for the slot that the cleaner is called on. -/
theorem total_dispose {h : Host K V} (consistent : h.Consistent) (cleaner : Option (Cleaner K V))
    (c : CacheId) (v : Victim K V) (fit : ∀ s ∈ (dispose run cleaner c v).steps h, rates.Fit s) :
    (dispose run cleaner c v).total rates.weight h =
      if ((dispose run cleaner c v).run h).2 = .failed then rates.failed c v.id else 0 := by
  cases cleaner with
  | none => rfl
  | some cleaner =>
    rw [dispose, callCleaner, steps_bind, run_make, steps_bind] at fit
    have inside := callbacks _ _ (consistent.make (.enterCleaner c v)) fun s member =>
      fit s (List.mem_append_right _ (List.mem_append_left _ member))
    have entered : rates.weight (⟨h, .enterCleaner c v⟩ : Step K V) = 0 := rfl
    rw [dispose, callCleaner, total_bind, total_make, entered, run_bind, run_make, total_bind, inside,
      total_make, run_bind, run_make, zero_add, zero_add]
    cases verdict : cleaner.verdict ((Move.enterCleaner c v).make h).2 <;> rfl

theorem total_clean {h : Host K V} (consistent : h.Consistent) (c : CacheId) (v : Victim K V)
    (fit : ∀ s ∈ (clean run c v).steps h, rates.Fit s) :
    (clean run c v).total rates.weight h =
      if ((clean run c v).run h).2 = .failed then rates.failed c v.id else 0 := by
  rw [clean, steps_bind] at fit
  have viewed : rates.weight (⟨h, .view⟩ : Step K V) = 0 := rfl
  rw [clean, total_bind, total_make, viewed, zero_add, run_bind]
  exact total_dispose callbacks (consistent.make .view) _ c v fun s member =>
    fit s (List.mem_append_right _ member)

/-- The cleaners of a pass put down a slot in line for each victim, and their failures. -/
theorem total_cleanAll {h : Host K V} (consistent : h.Consistent) (c : CacheId)
    (victims : List (Victim K V)) {worth : ℤ} (worths : ∀ v ∈ victims, rates.failed c v.id = worth)
    (fit : ∀ s ∈ (cleanAll run c victims).steps h, rates.Fit s) :
    (cleanAll run c victims).total rates.weight h =
      rates.queued c * victims.length + worth * ((cleanAll run c victims).run h).2 := by
  induction victims generalizing h with
  | nil => simp [cleanAll]
  | cons v victims ih =>
    rw [cleanAll, steps_bind, steps_bind, steps_bind, run_make] at fit
    have cleaned := total_clean callbacks consistent c v fun s member =>
      fit s (List.mem_append_left _ member)
    have later := ((consistent.work (clean run c v)).2).make (.enqueue c v.id)
    have rest := ih later (fun w member => worths w (List.mem_cons_of_mem _ member)) fun s member =>
      fit s (List.mem_append_right _ (List.mem_append_right _ (List.mem_append_left _ member)))
    have queued : ∀ g : Host K V, rates.weight ⟨g, .enqueue c v.id⟩ = rates.queued c := fun _ => rfl
    rw [worths v List.mem_cons_self] at cleaned
    rw [cleanAll, total_bind, cleaned, total_bind, total_make, queued, run_make, total_bind, rest,
      total_pure, run_bind, run_bind, run_make, run_bind, run_pure, List.length_cons]
    split <;> push_cast <;> ring

/-- A pass reports as many failures as there were. -/
theorem repays_evict (c : CacheId) (budget : Nat) : (evict run c budget).Repays rates := by
  intro h consistent fit
  rw [evict, steps_bind, steps_bind, run_make, steps_make] at fit
  have worths : ∀ v ∈ ((Move.releaseValues c budget).make h).2,
      rates.failed c v.id = rates.failedInPass c := by
    intro v member
    refine fit ⟨h, .releaseValues c budget⟩ (List.mem_append_left _ List.mem_cons_self) c v.id ?_
    exact (Step.releases_iff consistent v.id).mpr ⟨rfl, List.mem_map_of_mem member⟩
  have cleaned := total_cleanAll callbacks (consistent.make (.releaseValues c budget)) c _ worths
    fun s member => fit s (List.mem_append_right _ (List.mem_append_left _ member))
  have released : rates.weight (⟨h, .releaseValues c budget⟩ : Step K V) =
      rates.released c * ((Move.releaseValues c budget).make h).2.length := rfl
  have closed : ∀ (g : Host K V) (n failures : Nat), rates.weight ⟨g, .closePass c n failures⟩ =
      -((rates.released c + rates.queued c) * n + rates.failedInPass c * failures) :=
    fun _ _ _ => rfl
  rw [evict, total_bind, total_make, released, run_make, total_bind, cleaned, total_bind, total_make,
    closed, total_pure]
  ring

/-- A reclaim counts its failure itself. -/
theorem repays_reclaim (c : CacheId) (key : K) : (reclaim run c key).Repays rates := by
  intro h consistent fit
  have released : rates.weight (⟨h, .releaseValue c key⟩ : Step K V) =
      rates.released c * ((Move.releaseValue c key).make h).2.toList.length := rfl
  rw [reclaim, steps_bind, run_make, steps_make] at fit
  rw [reclaim, total_bind, run_make, total_make, released]
  cases result : ((Move.releaseValue c key).make h).2 with
  | none => simp
  | some v =>
    have worth : rates.failed c v.id = rates.failedInReclaim c := by
      refine fit ⟨h, .releaseValue c key⟩ (List.mem_append_left _ List.mem_cons_self) c v.id ?_
      refine (Step.releases_iff consistent v.id).mpr ⟨rfl, List.mem_map_of_mem ?_⟩
      simp only [Step.victims, result, Option.toList_some, List.mem_singleton]
    rw [result] at fit
    dsimp only at fit ⊢
    rw [steps_bind] at fit
    have cleaned := total_clean callbacks (consistent.make (.releaseValue c key)) c v fun s member =>
      fit s (List.mem_append_right _ (List.mem_append_left _ member))
    have counted : ∀ (g : Host K V) (failed : Bool), rates.weight ⟨g, .countReclaim c failed⟩ =
        -(rates.released c + rates.queued c + if failed then rates.failedInReclaim c else 0) :=
      fun _ _ => rfl
    have queued : ∀ g : Host K V, rates.weight ⟨g, .enqueue c v.id⟩ = rates.queued c := fun _ => rfl
    rw [total_bind, cleaned, worth, total_bind, total_make, counted, run_make, total_bind, total_make,
      queued, total_pure]
    simp only [Option.toList_some, List.length_singleton, decide_eq_true_eq]
    push_cast
    ring

end

theorem inherited_repays : Inherited fun _ (w : Work K V _) => w.Repays rates :=
  inherited_of_moves repays_pure (fun first second => first.bind second)
    (fun m steady => repays_make fun h => by cases m <;> first | rfl | cases steady)
    (fun _ _ _ => repays_make fun _ => rfl) repays_evict repays_reclaim

end Work

/-! ### What passes report -/

/-- What is counted at the end of a pass or of a reclaim is counted in a cache that is there, and a
    pass has no more failures than it released values. -/
def Step.Reports (s : Step K V) : Prop :=
  match s.move with
  | .closePass c released failures =>
      failures ≤ released ∧ (released ≠ 0 → ∃ cache, s.before.cache? c = some cache)
  | .countReclaim c _ => ∃ cache, s.before.cache? c = some cache
  | _ => True

namespace Work

theorem sequenced_reports : Sequenced fun _ (w : Work K V _) => w.Always Step.Reports :=
  sequenced_always fun _ => trivial

theorem reports_disposing (m : Move K V) (disposing : m.disposing = true) :
    (make m).Always Step.Reports :=
  always_make fun h => by cases m <;> trivial

/-- A cleaner fails at most once for each victim. -/
theorem failures_le (run : CallbackRunner K V) (c : CacheId) (victims : List (Victim K V))
    (h : Host K V) : ((cleanAll run c victims).run h).2 ≤ victims.length := by
  induction victims generalizing h with
  | nil => exact Nat.le_refl 0
  | cons v victims ih =>
    rw [cleanAll, run_bind, run_bind, run_bind, run_pure, List.length_cons]
    dsimp only
    have rest := ih ((make (.enqueue c v.id)).run ((clean run c v).run h).1).1
    split <;> omega

section

variable {run : CallbackRunner K V} (callbacks : ∀ r, (run r).Always Step.Reports)

include callbacks

/-- Callbacks report for themselves. -/
theorem reports_cleanAll (c : CacheId) (victims : List (Victim K V)) :
    (cleanAll run c victims).Always Step.Reports :=
  sequenced_reports.cleanAll callbacks reports_disposing c victims

/-- No more calls can fail than values were released. -/
theorem reports_evict (c : CacheId) (budget : Nat) : (evict run c budget).Always Step.Reports := by
  intro h s member
  rw [evict, steps_bind, steps_bind, steps_bind, steps_pure, List.append_nil] at member
  simp only [List.mem_append] at member
  rcases member with member | member | member
  · rw [steps_make, List.mem_singleton] at member
    subst member
    trivial
  · exact reports_cleanAll callbacks c _ _ s member
  · rw [steps_make, List.mem_singleton] at member
    subst member
    refine ⟨failures_le run c _ _, fun some => ?_⟩
    cases found : h.cache? c with
    | none =>
      rw [run_make, Move.make, Host.onCache, found] at some
      exact absurd rfl some
    | some cache =>
      obtain ⟨released, there, _⟩ := Host.grows_make (.releaseValues c budget) h c cache found
      obtain ⟨cleaned, still, _⟩ := Host.grows_run (cleanAll run c
        ((Move.releaseValues c budget).make h).2) ((Move.releaseValues c budget).make h).1 c _ there
      exact ⟨cleaned, still⟩

theorem reports_reclaim (c : CacheId) (key : K) : (reclaim run c key).Always Step.Reports := by
  intro h s member
  rw [reclaim, steps_bind, run_make, steps_make] at member
  rcases List.mem_append.mp member with member | member
  · rw [List.mem_singleton] at member
    subst member
    trivial
  · cases result : ((Move.releaseValue c key).make h).2 with
    | none =>
      rw [result, steps_pure] at member
      cases member
    | some v =>
      rw [result] at member
      dsimp only at member
      rw [steps_bind, steps_bind, steps_bind, steps_pure, List.append_nil] at member
      simp only [List.mem_append] at member
      rcases member with member | member | member
      · exact sequenced_reports.clean callbacks reports_disposing c v _ s member
      · rw [steps_make, List.mem_singleton] at member
        subst member
        cases found : h.cache? c with
        | none =>
          rw [Move.make, Host.onCache, found] at result
          cases result
        | some cache =>
          obtain ⟨released, there, _⟩ := Host.grows_make (.releaseValue c key) h c cache found
          obtain ⟨cleaned, still, _⟩ :=
            Host.grows_run (clean run c v) ((Move.releaseValue c key).make h).1 c _ there
          exact ⟨cleaned, still⟩
      · rw [steps_make, List.mem_singleton] at member
        subst member
        trivial

end

theorem inherited_reports : Inherited fun _ (w : Work K V _) => w.Always Step.Reports :=
  inherited_of_moves always_pure (fun first second => first.bind second)
    (fun m steady => always_make fun h => by cases m <;> trivial)
    (fun _ _ _ => always_make fun _ => trivial) reports_evict reports_reclaim

end Work

/-! ### Runs -/

namespace Session

variable [BEq V] (limit : Nat) (board : PressureBoard) (acts : List (Act K V))

/-- All along a run, passes report no more failures than releases. -/
theorem reports_run : ∀ s ∈ (empty board : Session K V).history limit acts, s.Reports :=
  Work.inherited_reports.workAll limit [] acts _

/-- So at the end of a run nothing is owed. -/
theorem sum_weight (rates : Rates)
    (fit : ∀ s ∈ (empty board : Session K V).history limit acts, rates.Fit s) :
    (((empty board : Session K V).history limit acts).map rates.weight).sum = 0 :=
  Work.inherited_repays.workAll limit [] acts _ (Host.consistent_empty board) fit

end Session

end

end ReclaimableCache
