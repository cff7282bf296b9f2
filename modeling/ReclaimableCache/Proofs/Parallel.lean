import ReclaimableCache.Proofs.Alike
import ReclaimableCache.Proofs.Retain

/-!
# Work on hosts that are alike

Work that is done on two hosts that are alike goes on side by side: what a move gives back is the
same, but for the order in which a pass releases values. The hosts stay alike, and cleaners are
called on the same values.
-/

namespace ReclaimableCache

variable {K V α β γ δ : Type}

section

variable [DecidableEq K]

/-! ### Calls of plain cleaners -/

/-- The call of a cleaner that a move begins: the cache, the key and the value. -/
def Step.called? (s : Step K V) : Option (CacheId × K × V) :=
  match s.move with
  | .enterCleaner c victim => some (c, victim.key, victim.value)
  | _ => none

/-- Whether the cleaner of a cache, if it is plain, fails on a value. -/
def Cache.failsOn (cache : Cache K V) (victim : Victim K V) : Bool :=
  cache.cleaner.any fun cleaner =>
    cleaner.verdict ⟨0, victim.id, 0, 0, victim.key, victim.value⟩ ≠ .succeeded

omit [DecidableEq K] in
/-- Whether a plain cleaner fails depends on the key and the value. -/
theorem Cache.Plain.failsOn_congr {c d : Cache K V} (plain : c.Plain)
    (cleaner : d.cleaner = c.cleaner) {v w : Victim K V} (key : w.key = v.key)
    (value : w.value = v.value) : d.failsOn v = c.failsOn w := by
  rw [failsOn, failsOn, cleaner]
  cases configured : c.cleaner with
  | none => rfl
  | some cleaner =>
    have verdict := (plain.cleaner cleaner configured).verdict ⟨0, w.id, 0, 0, w.key, w.value⟩
      ⟨0, v.id, 0, 0, v.key, v.value⟩ key.symm value.symm
    rw [Option.any_some, Option.any_some, verdict]

/-- The call of a cleaner that a value leads to, if the cache has a cleaner. -/
def Cache.callOn? (cache : Cache K V) (c : CacheId) (victim : Victim K V) :
    Option (CacheId × K × V) :=
  cache.cleaner.map fun _ => (c, victim.key, victim.value)

namespace Work

/-- The calls of cleaners that are made in the course of some work. -/
def calls (w : Work K V α) (h : Host K V) : List (CacheId × K × V) :=
  (w.steps h).filterMap Step.called?

@[simp] theorem calls_pure (a : α) (h : Host K V) : (pure a : Work K V α).calls h = [] := rfl

/-- Calls are made in the order of the parts. -/
@[simp] theorem calls_bind (w : Work K V α) (f : α → Work K V β) (h : Host K V) :
    (w >>= f).calls h = w.calls h ++ (f (w.run h).2).calls (w.run h).1 := by
  rw [calls, steps_bind, List.filterMap_append]
  rfl

theorem calls_make {m : Move K V} (noCall : m.calls = false) (h : Host K V) :
    (make m).calls h = [] := by
  cases m <;> first | rfl | cases noCall

/-- A callback that makes no requests does nothing. -/
theorem run_runCallbacks_done (limit : Nat) (h : Host K V) :
    (Host.runCallbacks limit (.done () : Routine K V Unit)).run h = (h, []) := by
  cases limit <;> rfl

theorem calls_runCallbacks_done (limit : Nat) (h : Host K V) :
    (Host.runCallbacks limit (.done () : Routine K V Unit)).calls h = [] := by
  cases limit <;> rfl

variable {c : CacheId} {cache : Cache K V} {h : Host K V} (found : h.cache? c = some cache)
  (plain : cache.Plain)

include found plain

/-- Calling a plain cleaner changes nothing but the journal and the number of calls. -/
theorem run_clean (limit : Nat) (victim : Victim K V) :
    ((clean (Host.runCallbacks limit) c victim).run h).1.caches = h.caches ∧
      ((clean (Host.runCallbacks limit) c victim).run h).1.aside =
        (h.board, h.cleanings + (cache.callOn? c victim).toList.length, h.active) ∧
      (((clean (Host.runCallbacks limit) c victim).run h).2 = .failed ↔
        cache.failsOn victim = true) ∧
      (clean (Host.runCallbacks limit) c victim).calls h = (cache.callOn? c victim).toList := by
  rw [clean, run_bind, calls_bind, run_make]
  simp only [Move.make, found, Option.bind_some]
  cases configured : cache.cleaner with
  | none =>
    have viewed : (make (.view : Move K V)).calls h = [] := rfl
    simp [dispose, Cache.failsOn, Cache.callOn?, configured, viewed, Host.aside]
  | some cleaner =>
    have silent := (plain.cleaner cleaner configured).callbacks
    have verdict := (plain.cleaner cleaner configured).verdict
      ⟨0, victim.id, 0, 0, victim.key, victim.value⟩ ((Move.enterCleaner c victim).make h).2 rfl rfl
    rw [dispose, callCleaner, run_bind, calls_bind, run_bind, calls_bind, silent,
      run_runCallbacks_done, calls_runCallbacks_done, run_make, run_make, verdict, Cache.failsOn,
      Cache.callOn?, configured]
    cases ends : cleaner.verdict ⟨0, victim.id, 0, 0, victim.key, victim.value⟩ <;>
      exact ⟨rfl, rfl, by simp [Move.make, Host.leaveCleaner, ends], rfl⟩

/-- The second half of a pass of a plain cache puts the slots of the victims in line. -/
theorem run_cleanAll (limit : Nat) (victims : List (Victim K V)) :
    (∀ d, ((cleanAll (Host.runCallbacks limit) c victims).run h).1.cache? d =
        if d = c then some { cache with pending := cache.pending ++ victims.map Victim.id }
        else h.cache? d) ∧
      ((cleanAll (Host.runCallbacks limit) c victims).run h).1.aside =
        (h.board, h.cleanings + (victims.filterMap (cache.callOn? c)).length, h.active) ∧
      ((cleanAll (Host.runCallbacks limit) c victims).run h).1.nextCache = h.nextCache ∧
      ((cleanAll (Host.runCallbacks limit) c victims).run h).2 = victims.countP cache.failsOn ∧
      (cleanAll (Host.runCallbacks limit) c victims).calls h =
        victims.filterMap (cache.callOn? c) := by
  induction victims generalizing h cache with
  | nil =>
    refine ⟨fun d => ?_, rfl, rfl, rfl, rfl⟩
    rw [cleanAll, run_pure, List.map_nil, List.append_nil]
    split
    · rename_i same
      rw [same, found]
    · rfl
  | cons victim victims ih =>
    obtain ⟨caches, aside, failed, calls⟩ := run_clean found plain limit victim
    rw [cleanAll, run_bind, calls_bind, run_bind, calls_bind, run_make, calls_make rfl, run_bind,
      calls_bind, run_pure, calls_pure, calls]
    -- A plain cleaner leaves the caches as they are, so the next call finds the same one, queue aside.
    generalize ((clean (Host.runCallbacks limit) c victim).run h) = cleaned at caches aside failed ⊢
    have still : cleaned.1.cache? = h.cache? := by
      funext d
      rw [Host.cache?, caches, Host.cache?]
    have queued := Move.cache?_make_of_target ((congrFun still c).trans found)
      (m := .enqueue c victim.id) rfl
    obtain ⟨ends, endAside, endNext, count, more⟩ := ih queued ⟨plain.policy, plain.cleaner⟩
    refine ⟨fun d => ?_, ?_, ?_, ?_, ?_⟩
    · rw [ends]
      split
      · simp [Move.effect, Cache.enqueue]
      · rename_i other
        have elsewhere : ¬ (some c = some d) := fun same => other (Option.some.inj same).symm
        rw [Move.cache?_make _ cleaned.1 d (fun _ same => by cases same), still]
        cases h.cache? d <;> simp [Move.effectOn, Move.target, elsewhere]
    · have enqueued := Host.aside_make (m := .enqueue c victim.id) rfl
        (fun _ same => by cases same) cleaned.1
      rw [aside] at enqueued
      simp only [Host.aside, Prod.mk.injEq] at enqueued
      obtain ⟨board, cleanings, active⟩ := enqueued
      rw [endAside, board, cleanings, active, List.filterMap_cons]
      cases called : cache.callOn? c victim with
      | none => rfl
      | some call =>
        refine congrArg (fun n => (h.board, n, h.active)) ?_
        rw [Option.toList_some, List.length_singleton, List.length_cons, Nat.add_assoc,
          Nat.add_comm 1]
        rfl
    · rw [endNext, Host.nextCache_make fun _ same => by cases same]
      exact congrArg Array.size caches
    · rw [count, List.countP_cons]
      simp only [failed]
      rfl
    · rw [more, List.filterMap_cons, List.append_nil, List.nil_append]
      cases cache.callOn? c victim <;> rfl

end Work

/-! ### Work that goes on side by side -/

namespace Work

/-- Work on one host and work on another end alike. -/
structure Together (past : CacheId → Option Past) (R : α → β → Prop) (w : Work K V α)
    (x : Work K V β) (h g : Host K V) : Prop where
  hosts : (w.run h).1.Alike past (x.run g).1
  results : R (w.run h).2 (x.run g).2
  calls : (x.calls g).Perm (w.calls h)

/-- On hosts that are alike, as long as the entries can be counted, two pieces of work end alike. -/
def Parallel (past : CacheId → Option Past) (R : α → β → Prop) (w : Work K V α)
    (x : Work K V β) : Prop :=
  ∀ h g : Host K V, h.Alike past g → (∀ s ∈ w.steps h, s.before.Countable) →
    w.Together past R x h g

variable {past : CacheId → Option Past} {R : α → β → Prop} {S : γ → δ → Prop} {w : Work K V α}
  {x : Work K V β} {f : α → Work K V γ} {f' : β → Work K V δ} {h g : Host K V}

theorem Together.bind (first : w.Together past R x h g)
    (second : (f (w.run h).2).Together past S (f' (x.run g).2) (w.run h).1 (x.run g).1) :
    (w >>= f).Together past S (x >>= f') h g := by
  refine ⟨?_, ?_, ?_⟩
  · rw [run_bind, run_bind]
    exact second.hosts
  · rw [run_bind, run_bind]
    exact second.results
  · rw [calls_bind, calls_bind]
    exact first.calls.append second.calls

theorem together_pure (alike : h.Alike past g) {a : α} {b : β} (results : R a b) :
    (pure a : Work K V α).Together past R (pure b) h g :=
  ⟨alike, results, List.Perm.refl []⟩

theorem together_view (alike : h.Alike past g) :
    (make (.view : Move K V)).Together past (Host.Alike past) (make .view) h g :=
  ⟨alike, alike, List.Perm.refl []⟩

/-- An even move may be made on both sides. -/
theorem together_make {m : Move K V} (even : m.even = true) (alike : h.Alike past g) :
    (make m).Together past Eq (make m) h g := by
  have noCall : m.calls = false := by cases m <;> first | rfl | cases even
  refine ⟨alike.make even, (alike.result even).symm, ?_⟩
  rw [calls_make noCall, calls_make noCall]

theorem together_takeOutSlot (alike : h.Alike past g) (c : CacheId) (key : K) (id : SlotId) :
    (make (.takeOutSlot c key (Past.before (past c) + id) : Move K V)).Together past Eq
      (make (.takeOutSlot c key id)) h g :=
  ⟨(alike.takeOutSlot c key id).1, (alike.takeOutSlot c key id).2.symm, List.Perm.refl []⟩

theorem parallel_pure {a : α} {b : β} (results : R a b) :
    (pure a : Work K V α).Parallel past R (pure b) :=
  fun _ _ alike _ => together_pure alike results

/-- What goes on side by side may end with results that are related. -/
theorem Parallel.bind (first : w.Parallel past R x)
    (second : ∀ a b, R a b → (f a).Parallel past S (f' b)) :
    (w >>= f).Parallel past S (x >>= f') := by
  intro h g alike few
  rw [steps_bind] at few
  have begun := first h g alike fun s member => few s (List.mem_append_left _ member)
  exact begun.bind <| second _ _ begun.results _ _ begun.hosts fun s member =>
    few s (List.mem_append_right _ member)

/-- Work goes on side by side after the same result. -/
theorem Parallel.bind_eq {x : Work K V α} {f' : α → Work K V δ} (first : w.Parallel past Eq x)
    (second : ∀ a, (f a).Parallel past S (f' a)) : (w >>= f).Parallel past S (x >>= f') :=
  first.bind fun a _ same => same ▸ second a

theorem Parallel.map {f : α → γ} {f' : β → δ} (first : w.Parallel past R x)
    (maps : ∀ a b, R a b → S (f a) (f' b)) : (f <$> w).Parallel past S (f' <$> x) :=
  first.bind fun a b results => parallel_pure (maps a b results)

theorem Parallel.map_eq {x : Work K V α} (first : w.Parallel past Eq x) (f : α → γ) :
    (f <$> w).Parallel past Eq (f <$> x) :=
  first.map fun _ _ same => congrArg f same

theorem parallel_view :
    (make (.view : Move K V)).Parallel past (Host.Alike past) (make .view) :=
  fun _ _ alike _ => together_view alike

theorem parallel_make {m : Move K V} (even : m.even = true) :
    (make m).Parallel past Eq (make m) :=
  fun _ _ alike _ => together_make even alike

/-- A slot is taken out on one side, and its twin on the other. -/
theorem parallel_takeOutSlot (c : CacheId) (key : K) (id : SlotId) :
    (make (.takeOutSlot c key (Past.before (past c) + id) : Move K V)).Parallel past Eq
      (make (.takeOutSlot c key id)) :=
  fun _ _ alike _ => together_takeOutSlot alike c key id

/-- No key leads to a slot that was there before. -/
theorem parallel_takeOutSlot_before (c : CacheId) (key : K) {id : Nat}
    (before : id < Past.before (past c)) :
    (make (.takeOutSlot c key id : Move K V)).Parallel past Eq (pure false) := by
  intro h g alike _
  have made : (Move.takeOutSlot c key id).make h = (h, false) := by
    rw [Move.make, Host.onCache]
    rcases alike.twins c with ⟨here, there⟩ | ⟨cache, twin, here, there, kin, _⟩
    · rw [here]
    · rw [here]
      cases known : past c with
      | none =>
        rw [known] at before
        exact absurd before (Nat.not_lt_zero id)
      | some p =>
        rw [known] at kin before
        have twins : cache.Alike p twin := kin
        have gone : cache.table.get? key ≠ some id := by
          rw [twins.table key]
          intro leads
          obtain ⟨slot, _, rfl⟩ := Option.map_eq_some_iff.mp leads
          exact absurd before (Nat.not_lt.mpr (Nat.le_add_right _ _))
        have stale : cache.table.isCurrent key id = false :=
          Bool.eq_false_iff.mpr (mt (ShardedMap.isCurrent_iff ..).mp gone)
        have same : (cache.takeOutSlot key id).1 = cache := by
          simp [Cache.takeOutSlot, ShardedMap.eraseIfSame, stale]
        exact Prod.ext ((congrArg (h.setCache c) same).trans (Host.setCache_self here)) stale
  refine ⟨?_, ?_, List.Perm.refl []⟩
  · rw [run_make, made]
    exact alike
  · rw [run_make, made]
    rfl

theorem parallel_enqueue (c : CacheId) (id : SlotId) :
    (make (.enqueue c (Past.before (past c) + id) : Move K V)).Parallel past Eq
      (make (.enqueue c id)) :=
  fun _ _ alike _ => ⟨alike.enqueue c id, rfl, List.Perm.refl []⟩

theorem parallel_releaseValue (c : CacheId) (key : K) :
    (make (.releaseValue c key : Move K V)).Parallel past
      (fun a b => a = b.map (Victim.behind (Past.before (past c)))) (make (.releaseValue c key)) :=
  fun _ _ alike _ =>
    ⟨(alike.releaseValue c key).1, (alike.releaseValue c key).2, List.Perm.refl []⟩

theorem parallel_enterCleaner (c : CacheId) (victim : Victim K V) :
    (make (.enterCleaner c victim)).Parallel past Eq (make (.enterCleaner c victim)) :=
  fun _ _ alike _ =>
    ⟨(alike.enterCleaner c victim).1, (alike.enterCleaner c victim).2.symm, List.Perm.refl _⟩

theorem parallel_leaveCleaner (call : Cleaning K V) (replies : List (Reply V))
    (verdict : Verdict) :
    (make (.leaveCleaner call replies verdict)).Parallel past Eq
      (make (.leaveCleaner call replies verdict)) :=
  fun _ _ alike _ =>
    ⟨(alike.leaveCleaner call replies verdict).1,
      (alike.leaveCleaner call replies verdict).2.symm, List.Perm.refl _⟩

/-- Policies are asked for the same budget, which is all or nothing where a cache has a past. -/
theorem parallel_consult (c : CacheId) :
    (make (.consult c : Move K V)).Parallel past
      (fun a b => a = b ∧ ((past c).isSome → a = 0 ∨ a = Policy.unlimited))
      (make (.consult c)) := by
  intro h g alike few
  have asked := parallel_make (m := .consult c) rfl h g alike few
  refine ⟨asked.hosts, ⟨asked.results, fun known => ?_⟩, asked.calls⟩
  rw [run_make, Move.make, Host.consult]
  cases found : h.cache? c with
  | none => exact .inl rfl
  | some cache => exact (alike.plain c cache known found).budget _

/-! ### Passes -/

section

variable (limit : Nat)
  (nested : ∀ routine : Routine K V Unit, (Host.runCallbacks limit routine).Parallel past Eq
    (Host.runCallbacks limit routine))
  (c : CacheId)

include nested

/-- Cleaners that are called on the same value both fail or both do not. -/
theorem parallel_clean (victim : Victim K V) :
    (clean (Host.runCallbacks limit) c (victim.behind (Past.before (past c)))).Parallel past
      (fun a b => (a = .failed ↔ b = .failed)) (clean (Host.runCallbacks limit) c victim) := by
  -- A cache without a past is the same on both sides, and its cleaner may call back. Of one with a
  -- past the cleaner is plain, and its calls are compared by what they are told.
  cases known : past c with
  | none =>
    have same : victim.behind (Past.before none) = victim := victim.behind_zero
    rw [same]
    apply parallel_view.bind
    intro h g alike
    have cleaners : (g.cache? c).bind Cache.cleaner = (h.cache? c).bind Cache.cleaner := by
      rcases alike.twins c with ⟨here, there⟩ | ⟨cache, twin, here, there, kin, _⟩
      · rw [here, there]
      · rw [here, there, Option.bind_some, Option.bind_some, kin.cleaner]
    rw [cleaners]
    cases (h.cache? c).bind Cache.cleaner with
    | none => exact parallel_pure Iff.rfl
    | some cleaner =>
      apply (parallel_enterCleaner c victim).bind_eq
      intro call
      apply (nested (cleaner.callbacks call)).bind_eq
      intro replies h g alike few
      have done := parallel_leaveCleaner call replies (cleaner.verdict call) h g alike few
      exact ⟨done.hosts, by rw [done.results], done.calls⟩
  | some p =>
    intro h g alike _
    rcases alike.twins c with ⟨here, there⟩ | ⟨cache, twin, here, there, kin, _⟩
    · have skipped : ∀ {h : Host K V} (victim : Victim K V), h.cache? c = none →
          (clean (Host.runCallbacks limit) c victim).run h = (h, .skipped) ∧
            (clean (Host.runCallbacks limit) c victim).calls h = [] := by
        intro h victim absent
        rw [clean, run_bind, calls_bind, run_make, calls_make rfl]
        simp only [Move.make, absent, Option.bind_none]
        exact ⟨rfl, rfl⟩
      obtain ⟨ends, none⟩ := skipped (victim.behind (Past.before (some p))) here
      obtain ⟨endsThere, noneThere⟩ := skipped victim there
      refine ⟨?_, ?_, ?_⟩
      · rw [ends, endsThere]
        exact alike
      · rw [ends, endsThere]
      · rw [none, noneThere]
    · rw [known] at kin
      have twins : cache.Alike p twin := kin
      have plain := alike.plain c cache (known ▸ rfl) here
      have twinPlain := plain.twin twins
      obtain ⟨caches, aside, failed, calls⟩ :=
        run_clean here plain limit (victim.behind (Past.before (some p)))
      obtain ⟨twinCaches, twinAside, twinFailed, twinCalls⟩ :=
        run_clean there twinPlain limit victim
      have called : twin.callOn? c victim =
          cache.callOn? c (victim.behind (Past.before (some p))) := by
        rw [Cache.callOn?, Cache.callOn?, twins.cleaner]
        rfl
      refine ⟨alike.of_caches caches twinCaches ?_, ?_, ?_⟩
      · have same := alike.aside
        simp only [Host.aside, Prod.mk.injEq] at same
        rw [aside, twinAside, called, same.1, same.2.1, same.2.2]
      · have fails : twin.failsOn victim =
            cache.failsOn (victim.behind (Past.before (some p))) :=
          plain.failsOn_congr twins.cleaner rfl rfl
        rw [failed, twinFailed, fails]
      · rw [calls, twinCalls, called]

/-- The same cache cleans up after the same values. -/
theorem parallel_cleanAll (same : past c = none) (victims : List (Victim K V)) :
    (cleanAll (Host.runCallbacks limit) c victims).Parallel past Eq
      (cleanAll (Host.runCallbacks limit) c victims) := by
  induction victims with
  | nil => exact parallel_pure rfl
  | cons victim victims ih =>
    have cleaned := parallel_clean limit nested c victim
    have queued : (make (.enqueue c (Past.before (past c) + victim.id) : Move K V)).Parallel past Eq
        (make (.enqueue c victim.id)) := parallel_enqueue c victim.id
    have none : Past.before (past c) = 0 := by rw [same]; rfl
    rw [none, victim.behind_zero] at cleaned
    rw [none, Nat.zero_add] at queued
    apply cleaned.bind
    intro disposal other fails
    apply queued.bind_eq
    intro _
    apply ih.bind_eq
    intro failures
    have counted : (if other = .failed then 1 else 0) = if disposal = .failed then 1 else 0 := by
      simp only [fails]
    rw [counted]
    exact parallel_pure rfl

end

section

variable (limit : Nat) (c : CacheId)

/-- A pass cleans up after the same values on both hosts, in any order. -/
theorem together_cleanAll (alike : h.Alike past g) {p : Past} (known : past c = some p)
    {cache : Cache K V} (found : h.cache? c = some cache) {victims others : List (Victim K V)}
    (perm : (others.map (Victim.behind p.slots)).Perm victims) :
    (cleanAll (Host.runCallbacks limit) c victims).Together past Eq
      (cleanAll (Host.runCallbacks limit) c others) h g := by
  rcases alike.twins c with ⟨here, _⟩ | ⟨first, twin, here, there, kin, _⟩
  · rw [here] at found
    cases found
  · rw [here] at found
    cases found
    rw [known] at kin
    have twins : cache.Alike p twin := kin
    have plain := alike.plain c cache (known ▸ rfl) here
    have twinPlain := plain.twin twins
    obtain ⟨caches, aside, next, count, calls⟩ := run_cleanAll here plain limit victims
    obtain ⟨twinCaches, twinAside, twinNext, twinCount, twinCalls⟩ :=
      run_cleanAll there twinPlain limit others
    have called : (others.filterMap (twin.callOn? c)).Perm
        (victims.filterMap (cache.callOn? c)) := by
      have same : (cache.callOn? c ∘ Victim.behind p.slots) = twin.callOn? c := by
        funext victim
        rw [Function.comp_apply, Cache.callOn?, Cache.callOn?, twins.cleaner]
        rfl
      have listed := perm.filterMap (cache.callOn? c)
      rwa [List.filterMap_map, same] at listed
    have waiting : ((twin.pending ++ others.map Victim.id).map (p.slots + ·)).Perm
        (cache.pending ++ victims.map Victim.id) := by
      rw [List.map_append, List.map_map]
      have ids := perm.map Victim.id
      rw [List.map_map] at ids
      exact twins.pending.append ids
    -- The victims come in different orders, so that the hosts are compared only after all of them.
    refine ⟨⟨?_, ?_, (alike.consistent.work _).2, (alike.also.work _).2, ?_, fun d => ?_⟩, ?_, ?_⟩
    · have same := alike.aside
      simp only [Host.aside, Prod.mk.injEq] at same
      rw [aside, twinAside, called.length_eq, same.1, same.2.1, same.2.2]
    · rw [next, twinNext, alike.nextCache]
    · intro d later renewed found
      rw [caches] at found
      split at found
      · cases found
        exact ⟨plain.policy, plain.cleaner⟩
      · exact alike.plain d later renewed found
    · rw [caches, twinCaches]
      split
      · rename_i here
        rw [here, known]
        exact .some (twins.with_table twins.table waiting)
      · exact alike.caches d
    · have fails : cache.failsOn ∘ Victim.behind p.slots = twin.failsOn := by
        funext victim
        exact (plain.failsOn_congr (v := victim) (w := victim.behind p.slots) twins.cleaner rfl
          rfl).symm
      rw [count, twinCount, ← perm.countP_eq, List.countP_map, fails]
    · rw [calls, twinCalls]
      exact called

/-- After all values were released that may be, the same values are cleaned up after. -/
theorem together_cleanReleased (alike : h.Alike past g) (few : h.Countable) {p : Past}
    (known : past c = some p) :
    (cleanAll (Host.runCallbacks limit) c
      ((Move.releaseValues c Policy.unlimited).make h).2).Together past Eq
      (cleanAll (Host.runCallbacks limit) c ((Move.releaseValues c Policy.unlimited).make g).2)
      ((Move.releaseValues c Policy.unlimited).make h).1
      ((Move.releaseValues c Policy.unlimited).make g).1 := by
  obtain ⟨hosts, perm⟩ := alike.releaseValues few known
  cases found : h.cache? c with
  | none =>
    have none : ((Move.releaseValues c Policy.unlimited).make h).2 = [] := by
      simp only [Move.make, Host.onCache, found]
    rw [none] at perm ⊢
    rw [List.map_eq_nil_iff.mp perm.eq_nil]
    exact together_pure hosts rfl
  | some cache =>
    have there := Move.cache?_make_of_target found (m := .releaseValues c Policy.unlimited) rfl
    exact together_cleanAll limit c hosts known there perm

end

section

variable (limit : Nat)
  (nested : ∀ routine : Routine K V Unit, (Host.runCallbacks limit routine).Parallel past Eq
    (Host.runCallbacks limit routine))
  (c : CacheId)

include nested

/-- A pass that releases all that it may, or one over the same cache. -/
theorem parallel_evict {budget : Nat} (all : (past c).isSome → budget = Policy.unlimited) :
    (evict (Host.runCallbacks limit) c budget : Work K V Nat).Parallel past Eq
      (evict (Host.runCallbacks limit) c budget) := by
  have closed : ∀ released failures, (make (.closePass c released failures : Move K V)).Parallel past
      Eq (make (.closePass c released failures)) := fun _ _ => parallel_make rfl
  cases known : past c with
  | none =>
    have released : (make (.releaseValues c budget : Move K V)).Parallel past Eq
        (make (.releaseValues c budget)) := fun h g alike _ =>
      ⟨(alike.releaseValues_same known budget).1, (alike.releaseValues_same known budget).2.symm,
        List.Perm.refl []⟩
    apply released.bind_eq
    intro victims
    apply (parallel_cleanAll limit nested c known victims).bind_eq
    intro failures
    exact (closed _ _).bind_eq fun _ => parallel_pure rfl
  | some p =>
    have unlimited := all (known ▸ rfl)
    subst unlimited
    intro h g alike few
    have countable := few ⟨h, .releaseValues c Policy.unlimited⟩ List.mem_cons_self
    obtain ⟨hosts, perm⟩ := alike.releaseValues countable known
    have cleaned := together_cleanReleased limit c alike countable known
    have released : (make (.releaseValues c Policy.unlimited : Move K V)).Together past
        (fun vs ws => ws.length = vs.length) (make (.releaseValues c Policy.unlimited)) h g :=
      ⟨hosts, (List.length_map _).symm.trans perm.length_eq, List.Perm.refl []⟩
    refine released.bind (cleaned.bind ?_)
    rw [released.results, ← cleaned.results]
    have ended := fun failures => together_make
      (m := .closePass c ((Move.releaseValues c Policy.unlimited).make h).2.length failures) rfl
      cleaned.hosts
    exact (ended _).bind (together_pure (ended _).hosts rfl)

/-- Both drains sweep the same and are given the same budget. -/
theorem parallel_drain :
    (drain (Host.runCallbacks limit) c : Work K V Unit).Parallel past Eq
      (drain (Host.runCallbacks limit) c) := by
  have swept : (make (.sweep c : Move K V)).Parallel past Eq (make (.sweep c)) := parallel_make rfl
  apply swept.bind_eq
  intro _
  apply (parallel_consult c).bind
  rintro budget _ ⟨rfl, amount⟩
  by_cases none : budget = 0
  · rw [if_pos none]
    exact parallel_pure rfl
  · rw [if_neg none]
    apply (parallel_evict limit nested c fun known => (amount known).resolve_left none).bind_eq
    intro released
    split
    · exact parallel_pure rfl
    · exact swept

theorem parallel_get (key : K) :
    (get (Host.runCallbacks limit) c key : Work K V (Option V)).Parallel past Eq
      (get (Host.runCallbacks limit) c key) :=
  (parallel_drain limit nested c).bind_eq fun _ => parallel_make rfl

theorem parallel_insert (key : K) (value : V) :
    (insert (Host.runCallbacks limit) c key value).Parallel past Eq
      (insert (Host.runCallbacks limit) c key value) :=
  (parallel_drain limit nested c).bind_eq fun _ => parallel_make rfl

theorem parallel_remove (key : K) :
    (remove (Host.runCallbacks limit) c key : Work K V (Option V)).Parallel past Eq
      (remove (Host.runCallbacks limit) c key) :=
  (parallel_drain limit nested c).bind_eq fun _ => parallel_make rfl

/-- Both reclaims release the value of twins. -/
theorem parallel_reclaim (key : K) :
    (reclaim (Host.runCallbacks limit) c key : Work K V Bool).Parallel past Eq
      (reclaim (Host.runCallbacks limit) c key) := by
  apply (parallel_releaseValue c key).bind
  rintro _ released rfl
  cases released with
  | none => exact parallel_pure rfl
  | some victim =>
    apply (parallel_clean limit nested c victim).bind
    intro disposal other same
    have counted : decide (other = .failed) = decide (disposal = .failed) :=
      decide_eq_decide.mpr same.symm
    rw [counted]
    apply (parallel_make rfl).bind_eq
    intro _
    exact (parallel_enqueue c victim.id).bind_eq fun _ => parallel_pure rfl

theorem parallel_releaseUnpinned :
    (releaseUnpinned (Host.runCallbacks limit) c : Work K V Nat).Parallel past Eq
      (releaseUnpinned (Host.runCallbacks limit) c) := by
  apply (parallel_evict limit nested c fun _ => rfl).bind_eq
  intro released
  exact (parallel_make (m := .sweep c) rfl).bind_eq fun _ => parallel_pure rfl

omit nested in
theorem parallel_clear : (clear c : Work K V Unit).Parallel past Eq (clear c) := by
  apply (parallel_make (m := .unpinAll c) rfl).bind_eq
  intro _
  apply (parallel_make (m := .sweep c) rfl).bind_eq
  intro _
  exact parallel_make rfl

/-! ### Requests and code of a caller -/

omit nested in
/-- The slot that was made so many slots before the last one is the same in both caches, or one that
    was there before. -/
theorem parallel_removeRecent {cache twin : Cache K V} (kin : Cache.Kin (past c) cache twin)
    (key : K) (age : Nat) :
    (removeSlot c key (cache.pool.recent? age) : Work K V Bool).Parallel past Eq
      (removeSlot c key (twin.pool.recent? age)) := by
  have slots : cache.pool.slots.size = Past.before (past c) + twin.pool.slots.size := by
    cases known : past c with
    | none =>
      rw [known] at kin
      cases kin
      exact (Nat.zero_add _).symm
    | some p =>
      rw [known] at kin
      have twins : cache.Alike p twin := kin
      exact twins.pool.nextId
  rw [SlotPool.recent?, SlotPool.recent?]
  by_cases recent : age < twin.pool.slots.size
  · have shifted : cache.pool.slots.size - 1 - age =
        Past.before (past c) + (twin.pool.slots.size - 1 - age) := by omega
    rw [if_pos recent, if_pos (by omega), shifted]
    exact parallel_takeOutSlot c key _
  · rw [if_neg recent]
    split
    · exact parallel_takeOutSlot_before c key (by omega)
    · exact parallel_pure rfl

/-- Every request is answered the same. -/
theorem parallel_performOn {cache twin : Cache K V} (kin : Cache.Kin (past c) cache twin)
    (consistent : cache.Consistent) (also : twin.Consistent) (request : Request K V) :
    (performOn (Host.runCallbacks limit) c cache request).Parallel past Eq
      (performOn (Host.runCallbacks limit) c twin request) := by
  cases request with
  | get key => exact (parallel_get limit nested c key).map_eq _
  | insert key value => exact (parallel_insert limit nested c key value).map_eq _
  | remove key => exact (parallel_remove limit nested c key).map_eq _
  | reclaim key => exact (parallel_reclaim limit nested c key).map_eq _
  | releaseUnpinned => exact (parallel_releaseUnpinned limit nested c).map_eq _
  | clear => exact (parallel_clear c).bind_eq fun _ => parallel_pure rfl
  | raise signal =>
    exact (parallel_make (m := .raise signal) rfl).bind_eq fun _ => parallel_pure rfl
  | insertOptional key value =>
    cases value with
    | none => exact parallel_pure rfl
    | some value => exact (parallel_insert limit nested c key value).map_eq _
  | beginBulk => exact (parallel_drain limit nested c).bind_eq fun _ => parallel_pure rfl
  | storeNext key value =>
    exact (parallel_make (m := .place c key value) rfl).map_eq _
  | removeRecent key age => exact (parallel_removeRecent c kin key age).map_eq _
  | peek key =>
    refine parallel_pure (congrArg Reply.value (Eq.symm ?_))
    exact kin.elim (f := fun cache => cache.peek key) fun p _ twins => twins.peek key
  | containsKey key =>
    refine parallel_pure (congrArg Reply.flag (Eq.symm ?_))
    exact kin.elim (f := fun cache => cache.containsKey key) fun p _ twins => twins.containsKey key
  | pending =>
    refine parallel_pure (congrArg Reply.count (Eq.symm ?_))
    exact kin.elim (f := fun cache => cache.pending.length) fun p _ twins => twins.length_pending
  | length =>
    refine parallel_pure (congrArg Reply.count (Eq.symm ?_))
    exact kin.elim (f := Cache.size) fun p _ twins => twins.size consistent also

theorem parallel_perform (request : Request K V) :
    (Host.perform (Host.runCallbacks limit) c request).Parallel past Eq
      (Host.perform (Host.runCallbacks limit) c request) := by
  apply parallel_view.bind
  intro h g alike
  rcases alike.twins c with ⟨here, there⟩ | ⟨cache, twin, here, there, kin, consistent, also⟩
  · rw [here, there]
    exact parallel_pure rfl
  · rw [here, there]
    apply (parallel_performOn limit nested c kin consistent also request).bind_eq
    intro reply
    exact (parallel_make (m := .noteServed c request reply) rfl).bind_eq fun _ => parallel_pure rfl

end

/-- Hence code of a caller goes on in the same way. -/
theorem parallel_routine {serve : CacheId → Request K V → Work K V (Reply V)}
    (served : ∀ c request, (serve c request).Parallel past Eq (serve c request))
    (r : Routine K V α) : (r.work serve).Parallel past Eq (r.work serve) := by
  induction r with
  | done result => exact parallel_pure rfl
  | ask c request next ih =>
    apply (served c request).bind_eq
    intro reply
    exact (ih reply).bind_eq fun rest => parallel_pure rfl

/-- Callbacks go on side by side, however deep they are nested. -/
theorem parallel_runCallbacks (limit : Nat) (routine : Routine K V Unit) :
    (Host.runCallbacks limit routine).Parallel past Eq (Host.runCallbacks limit routine) := by
  induction limit generalizing routine with
  | zero => exact parallel_pure rfl
  | succ limit ih =>
    have served : ∀ c request, (Host.perform (Host.runCallbacks limit) c request).Parallel past Eq
        (Host.perform (Host.runCallbacks limit) c request) := parallel_perform limit ih
    exact (parallel_routine served routine).map_eq Prod.fst

variable (limit : Nat) (c : CacheId)

theorem parallel_serve (request : Request K V) :
    (Host.serve limit c request).Parallel past Eq (Host.serve limit c request) :=
  parallel_perform limit (parallel_runCallbacks limit) c request

theorem parallel_follow (r : Routine K V α) :
    (follow limit r).Parallel past Eq (follow limit r) :=
  (parallel_routine (parallel_serve limit) r).map_eq Prod.snd

theorem parallel_insertEach (entries : List (K × V)) :
    (insertEach limit c entries).Parallel past Eq (insertEach limit c entries) := by
  induction entries with
  | nil => exact parallel_pure rfl
  | cons e rest ih =>
    exact (parallel_insert limit (parallel_runCallbacks limit) c e.1 e.2).bind_eq fun _ => ih

/-- A source gives the same values on both sides, or panics on both. -/
theorem parallel_storeAll (source : List (Routine K V (Except Panic (K × V)))) :
    (storeAll limit c source).Parallel past Eq (storeAll limit c source) := by
  induction source with
  | nil => exact parallel_pure rfl
  | cons next rest ih =>
    apply (parallel_follow limit next).bind_eq
    intro given
    cases given with
    | error p => exact parallel_pure rfl
    | ok e => exact (parallel_make (m := .place c e.1 e.2) rfl).bind_eq fun _ => ih

theorem parallel_insertAll (source : List (Routine K V (Except Panic (K × V)))) :
    (insertAll limit c source).Parallel past Eq (insertAll limit c source) :=
  (parallel_drain limit (parallel_runCallbacks limit) c).bind_eq fun _ =>
    parallel_storeAll limit c source

theorem parallel_insertOptional (key : K) (value : Option V) :
    (insertOptional limit c key value).Parallel past Eq (insertOptional limit c key value) := by
  cases value with
  | none => exact parallel_pure rfl
  | some value =>
    exact (parallel_insert limit (parallel_runCallbacks limit) c key value).map_eq _

/-- The value that was there before is looked up through its slot. -/
theorem parallel_insertShared (key : K) (value : V) :
    (insertShared limit c key value).Parallel past Eq (insertShared limit c key value) := by
  apply (parallel_drain limit (parallel_runCallbacks limit) c).bind_eq
  intro _
  apply parallel_view.bind
  intro before beforeThere alikeBefore
  apply (parallel_make (m := .place c key value) rfl).bind_eq
  intro previous
  apply parallel_view.bind
  intro after afterThere alikeAfter
  apply parallel_pure
  congr 1
  rcases alikeBefore.twins c with ⟨here, there⟩ | ⟨earlier, other, here, there, before, _⟩
  · rw [here, there]
  · rw [here, there]
    rcases alikeAfter.twins c with ⟨later, also⟩ | ⟨cache, twin, later, also, after, _⟩
    · rw [later, also]
    · rw [later, also]
      dsimp only
      cases known : past c with
      | none =>
        rw [known] at before after
        cases before
        cases after
        rfl
      | some p =>
        rw [known] at before after
        have twinsBefore : earlier.Alike p other := before
        have twinsAfter : cache.Alike p twin := after
        rw [twinsBefore.pool.nextId, twinsAfter.table.isCurrent, twinsAfter.pool.isLive]

theorem parallel_getOrCompute (key : K) (compute : Routine K V (Except Panic V)) :
    (getOrCompute limit c key compute).Parallel past Eq (getOrCompute limit c key compute) := by
  apply (parallel_get limit (parallel_runCallbacks limit) c key).bind_eq
  intro found
  cases found with
  | some value => exact parallel_pure rfl
  | none =>
    apply (parallel_follow limit compute).bind_eq
    intro computed
    cases computed with
    | error p => exact parallel_pure rfl
    | ok value =>
      exact (parallel_insert limit (parallel_runCallbacks limit) c key value).bind_eq fun _ =>
        parallel_pure rfl

/-! ### Walks -/

omit limit in
/-- The same is shown for an entry, wherever its slot is. -/
theorem current?_of_kin {cache twin : Cache K V} (kin : Cache.Kin (past c) cache twin)
    (e : K × SlotId) :
    Cursor.current? cache (e.1, Past.before (past c) + e.2) = Cursor.current? twin e := by
  cases known : past c with
  | none =>
    rw [known] at kin
    cases kin
    exact congrArg (fun id => Cursor.current? cache (e.1, id)) (Nat.zero_add e.2)
  | some p =>
    rw [known] at kin
    have twins : cache.Alike p twin := kin
    have bound : cache.table.isCurrent e.1 (p.slots + e.2) = twin.table.isCurrent e.1 e.2 :=
      twins.table.isCurrent e.1 e.2
    have value : cache.pool.value? (p.slots + e.2) = twin.pool.value? e.2 := twins.pool.value? e.2
    show Cursor.current? cache (e.1, p.slots + e.2) = _
    rw [Cursor.current?, Cursor.current?, bound, Cache.liveEntry?, Cache.liveEntry?, value]

variable (keep : Predicate K V)

/-- Whatever the predicate remembers, it is asked the same about an entry and answers the same. -/
theorem parallel_retainEntry (r : Retention K V) (e : K × SlotId) :
    (retainEntry limit c keep r (e.1, Past.before (past c) + e.2)).Parallel past Eq
      (retainEntry limit c keep r e) := by
  apply parallel_view.bind
  intro h g alike
  have shown : ((h.cache? c).bind fun cache =>
      Cursor.current? cache (e.1, Past.before (past c) + e.2)) =
      (g.cache? c).bind fun cache => Cursor.current? cache e := by
    rcases alike.twins c with ⟨here, there⟩ | ⟨cache, twin, here, there, kin, _⟩
    · rw [here, there]
      rfl
    · rw [here, there]
      exact current?_of_kin c kin e
  rw [shown]
  cases (g.cache? c).bind fun cache => Cursor.current? cache e with
  | none => exact parallel_pure rfl
  | some item =>
    apply (parallel_routine (parallel_serve limit) (keep r.heard item.1 item.2)).bind_eq
    intro answered
    dsimp only
    split
    · exact parallel_pure rfl
    · exact (parallel_takeOutSlot c e.1 e.2).bind_eq fun taken => parallel_pure rfl

theorem parallel_retainEntries (r : Retention K V) (entries : List (K × SlotId)) :
    ((entries.map fun e => (e.1, Past.before (past c) + e.2)).foldlM (retainEntry limit c keep)
      r).Parallel past Eq (entries.foldlM (retainEntry limit c keep) r) := by
  induction entries generalizing r with
  | nil => exact parallel_pure rfl
  | cons e entries ih =>
    rw [List.map_cons, List.foldlM_cons, List.foldlM_cons]
    exact (parallel_retainEntry limit c keep r e).bind_eq fun passed => ih passed

end Work

end

end ReclaimableCache
