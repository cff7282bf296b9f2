import ReclaimableCache.Proofs.Stale

/-!
# Calls of cleaners

A cleaner is called at most once for each value that is released, and the values that are released
were live. As long as no value is stored, there are no more calls than there were live entries, and
no more of them are active at a time.
-/

namespace ReclaimableCache

variable {K V α β : Type}

/-- Whether a move calls a cleaner. -/
def Step.enters (s : Step K V) : Bool :=
  match s.move with
  | .enterCleaner .. => true
  | _ => false

section

variable [DecidableEq K]

/-- How many values a move releases, less one if it calls a cleaner. -/
def Step.surplus (s : Step K V) : ℤ := s.victims.length - s.enters.toNat

namespace Work

/-! ### One call for each value -/

/-- How often cleaners are called in the course of some work. -/
def entered (w : Work K V α) (h : Host K V) : Nat := (w.steps h).countP Step.enters

@[simp] theorem entered_bind (w : Work K V α) (f : α → Work K V β) (h : Host K V) :
    (w >>= f).entered h = w.entered h + (f (w.run h).2).entered (w.run h).1 := by
  simp [entered]

theorem entered_make {m : Move K V} (noCall : m.calls = false) (h : Host K V) :
    (make m).entered h = 0 := by
  cases m <;> first | rfl | cases noCall

/-- Cleaners are called at most as often as values are released. -/
def Frugal (w : Work K V α) : Prop := ∀ h : Host K V, 0 ≤ w.total Step.surplus h

theorem frugal_pure (a : α) : (pure a : Work K V α).Frugal := fun _ => Int.le_refl 0

/-- What the first part has to spare is there for the second. -/
theorem Frugal.bind {w : Work K V α} {f : α → Work K V β} (first : w.Frugal)
    (second : ∀ a, (f a).Frugal) : (w >>= f).Frugal := by
  intro h
  have before := first h
  have later := second (w.run h).2 (w.run h).1
  rw [total_bind]
  omega

theorem frugal_make {m : Move K V} (noCall : m.calls = false) : (make m).Frugal := by
  intro h
  have quiet : Step.enters ⟨h, m⟩ = false := by
    cases m <;> first | rfl | cases noCall
  simp [Step.surplus, quiet]

section

variable {run : CallbackRunner K V} (callbacks : ∀ r, (run r).Frugal)

include callbacks

/-- Beside what its callbacks lead to, a cleaner is called at most once. -/
theorem total_surplus_clean (c : CacheId) (victim : Victim K V) (h : Host K V) :
    -1 ≤ (clean run c victim).total Step.surplus h := by
  have looked : Step.surplus (⟨h, .view⟩ : Step K V) = 0 := rfl
  rw [clean, total_bind, total_make, looked, run_make]
  generalize ((Move.view.make h).2.cache? c).bind Cache.cleaner = cleaner
  cases cleaner with
  | none => simp [dispose]
  | some cleaner =>
    have inside := callbacks (cleaner.callbacks (h.enterCleaner c victim).2)
      (h.enterCleaner c victim).1
    have called : (callCleaner run cleaner c victim).total Step.surplus h = -1 +
        (run (cleaner.callbacks (h.enterCleaner c victim).2)).total Step.surplus
          (h.enterCleaner c victim).1 := by
      simp [total, steps_callCleaner, Step.surplus, Step.victims, Step.enters]
    have view : (Move.view : Move K V).make h = (h, h) := rfl
    rw [dispose, view, called]
    omega

/-- Each of the values needs one call, apart from what its callbacks do. -/
theorem total_surplus_cleanAll (c : CacheId) (victims : List (Victim K V)) (h : Host K V) :
    -victims.length ≤ (cleanAll run c victims).total Step.surplus h := by
  induction victims generalizing h with
  | nil => exact Int.le_refl 0
  | cons victim victims ih =>
    have cleaned := total_surplus_clean callbacks c victim h
    have rest := ih ((Move.enqueue c victim.id).make ((clean run c victim).run h).1).1
    have queued : ∀ g : Host K V, Step.surplus ⟨g, .enqueue c victim.id⟩ = 0 := fun _ => rfl
    rw [cleanAll, total_bind, total_bind, total_make, queued, run_make, total_bind, total_pure,
      List.length_cons]
    omega

/-- A pass releases the values that it calls the cleaner on. -/
theorem frugal_evict (c : CacheId) (budget : Nat) : (evict run c budget).Frugal := by
  intro h
  have cleaned := total_surplus_cleanAll callbacks c ((Move.releaseValues c budget).make h).2
    ((Move.releaseValues c budget).make h).1
  have released : Step.surplus (⟨h, .releaseValues c budget⟩ : Step K V) =
      ((Move.releaseValues c budget).make h).2.length := Int.sub_zero _
  have closed : ∀ n failures (g : Host K V), Step.surplus ⟨g, .closePass c n failures⟩ = 0 :=
    fun _ _ _ => rfl
  rw [evict, total_bind, total_make, released, run_make, total_bind, total_bind, total_make, closed,
    total_pure]
  omega

/-- A reclaim calls the cleaner at most on the value that it released. -/
theorem frugal_reclaim (c : CacheId) (key : K) : (reclaim run c key).Frugal := by
  intro h
  have released : Step.surplus (⟨h, .releaseValue c key⟩ : Step K V) =
      ((Move.releaseValue c key).make h).2.toList.length := Int.sub_zero _
  rw [reclaim, total_bind, total_make, released, run_make]
  cases ((Move.releaseValue c key).make h).2 with
  | none => exact Int.le_refl 0
  | some victim =>
    have cleaned := total_surplus_clean callbacks c victim ((Move.releaseValue c key).make h).1
    have counted : ∀ failed (g : Host K V), Step.surplus ⟨g, .countReclaim c failed⟩ = 0 :=
      fun _ _ => rfl
    have queued : ∀ g : Host K V, Step.surplus ⟨g, .enqueue c victim.id⟩ = 0 := fun _ => rfl
    dsimp only
    rw [total_bind, total_bind, total_make, counted, total_bind, total_make, queued, total_pure,
      Option.toList_some, List.length_singleton]
    omega

end

/-- Whatever is done calls cleaners at most once for each value that it releases. -/
theorem inherited_frugal : Inherited fun _ (w : Work K V _) => w.Frugal := by
  exact inherited_of_moves frugal_pure (fun first second => first.bind second)
    (fun m steady => frugal_make (Move.calls_of_steady steady)) (fun _ _ _ => frugal_make rfl)
    frugal_evict frugal_reclaim

/-! ### Calls that are active -/

/-- Calls are nested no deeper than there are calls. -/
def Climbs (w : Work K V α) : Prop :=
  ∀ h : Host K V, ∀ s ∈ w.steps h,
    s.before.active + s.enters.toNat ≤ h.active + w.entered h

theorem climbs_pure (a : α) : (pure a : Work K V α).Climbs := fun _ s member => by simp at member

theorem Climbs.bind {w : Work K V α} {f : α → Work K V β} (first : w.Climbs) (nested : w.Nested)
    (second : ∀ a, (f a).Climbs) : (w >>= f).Climbs := by
  intro h s member
  rw [steps_bind] at member
  rw [entered_bind]
  rcases List.mem_append.mp member with member | member
  · have before := first h s member
    omega
  · have after := second _ _ s member
    have level := (nested h).1
    omega

/-- A move is made at the depth where the work began. -/
theorem climbs_make (m : Move K V) : (make m).Climbs := by
  intro h s member
  rw [steps_make, List.mem_singleton] at member
  subst member
  rw [entered, steps_make]
  cases enters : Step.enters ⟨h, m⟩ <;> simp [enters]

theorem sequenced_climbs : Sequenced fun _ (w : Work K V _) => w.Nested ∧ w.Climbs := by
  refine ⟨fun a => ⟨nested_pure a, climbs_pure a⟩, fun first second => ?_,
    nested_make _ rfl, climbs_make _⟩
  exact ⟨first.1.bind fun a => (second a).1, first.2.bind first.1 fun a => (second a).2⟩

section

variable {run : CallbackRunner K V} (callbacks : ∀ r, (run r).Nested ∧ (run r).Climbs)

include callbacks

/-- While a call is active its callbacks are one level deeper. -/
theorem climbs_callCleaner (cleaner : Cleaner K V) (c : CacheId) (victim : Victim K V) :
    (callCleaner run cleaner c victim).Climbs := by
  intro h s member
  have inside := callbacks (cleaner.callbacks (h.enterCleaner c victim).2)
  have deeper : (h.enterCleaner c victim).1.active = h.active + 1 := rfl
  have entered : (callCleaner run cleaner c victim).entered h =
      (run (cleaner.callbacks (h.enterCleaner c victim).2)).entered (h.enterCleaner c victim).1 +
        1 := by
    simp [Work.entered, steps_callCleaner, Step.enters, List.countP_cons]
  rw [entered]
  rcases mem_steps_callCleaner.mp member with rfl | member | rfl
  · simp only [Step.enters, Bool.toNat_true]
    omega
  · have deep := inside.2 _ s member
    omega
  · have level := (inside.1 (h.enterCleaner c victim).1).1
    simp only [Step.enters, Bool.toNat_false]
    omega

theorem levels_climbs_callCleaner (cleaner : Cleaner K V) (c : CacheId) (victim : Victim K V) :
    (callCleaner run cleaner c victim).Nested ∧ (callCleaner run cleaner c victim).Climbs :=
  ⟨(callCleaner_levels (fun r => (callbacks r).1) cleaner c victim).1,
    climbs_callCleaner callbacks cleaner c victim⟩

theorem climbs_clean (c : CacheId) (victim : Victim K V) :
    (clean run c victim).Nested ∧ (clean run c victim).Climbs :=
  sequenced_climbs.coupled.clean run run sequenced_climbs.view
    (levels_climbs_callCleaner callbacks) c victim

end

/-- So there are never more active calls than were entered. -/
theorem inherited_climbs : Inherited fun _ (w : Work K V _) => w.Nested ∧ w.Climbs := by
  have move : ∀ {m : Move K V}, m.calls = false → (make m).Nested ∧ (make m).Climbs :=
    fun noCall => ⟨nested_make _ noCall, climbs_make _⟩
  refine inherited_of_moves sequenced_climbs.pure sequenced_climbs.bind
    (fun m steady => move (Move.calls_of_steady steady)) (fun _ _ _ => move rfl)
    (fun {run} callbacks => ?_) fun {run} callbacks => ?_
  · exact sequenced_climbs.coupled.evict run run (climbs_clean callbacks) (fun _ _ => move rfl)
      (fun _ _ => move rfl) fun _ _ _ => move rfl
  · exact sequenced_climbs.coupled.reclaim run run (climbs_clean callbacks) (fun _ _ => move rfl)
      (fun _ _ => move rfl) fun _ _ => move rfl

end Work

/-! ### Live entries -/

namespace Host

omit [DecidableEq K] in
/-- Whether a slot has an entry and its value is not released. -/
def isLive (h : Host K V) (c : CacheId) (id : SlotId) : Bool := h.holds c id && !h.isDead c id

omit [DecidableEq K] in
/-- The number of live entries of a cache. -/
def liveIn (h : Host K V) (c : CacheId) : Nat :=
  (h.cache? c).elim 0 fun cache => cache.toList.length

omit [DecidableEq K] in
/-- The number of live entries of all caches together. -/
def liveCount (h : Host K V) : Nat := ((List.range h.nextCache).map h.liveIn).sum

/-- The live slots of a cache are those that its live entries lead to. -/
theorem countP_isLive {h : Host K V} {c : CacheId} {n : Nat} (consistent : h.Consistent)
    (below : h.MadeBelow c n) : ((List.range n).countP fun id => h.isLive c id) = h.liveIn c := by
  cases found : h.cache? c with
  | none => simp [isLive, holds, liveIn, found]
  | some cache =>
    have installed := perm_holds consistent found below
    have alive : ∀ e ∈ cache.table.toList,
        (!h.isDead c e.2) = true ↔ cache.pool.isLive e.2 = true := by
      intro e member
      have cached := consistent c cache found
      have bound := (ShardedMap.get?_eq_some_iff cached.table.toOrdered).mpr member
      rw [SlotPool.isLive_eq_not_isDead (cached.lt_nextId bound), isDead, found, Option.any_some]
    calc (List.range n).countP (fun id => h.isLive c id)
        = ((List.range n).filter fun id => h.holds c id).countP fun id => !h.isDead c id := by
          simp only [isLive, List.countP_filter, Bool.and_comm]
      _ = (cache.table.toList.map Prod.snd).countP fun id => !h.isDead c id := installed.countP_eq _
      _ = cache.table.toList.countP fun e => cache.pool.isLive e.2 := by
          rw [List.countP_map]
          exact List.countP_congr alive
      _ = h.liveIn c := by rw [liveIn, found, Option.elim_some, cache.length_toList]

end Host

/-- Whether a move makes a new slot or a new cache. -/
def Move.adds : Move K V → Bool
  | place .. | build _ => true
  | _ => false

/-- A number that all slots are below that a cache has made, before a move and after it. -/
theorem Step.exists_madeBelow (s : Step K V) (c : CacheId) :
    ∃ n, s.before.MadeBelow c n ∧ s.after.MadeBelow c n := by
  cases found : s.after.cache? c with
  | none =>
    refine ⟨(s.before.cache? c).elim 0 fun cache => cache.pool.nextId, fun cache there => ?_,
      fun cache there => ?_⟩
    · rw [there, Option.elim_some]
    · rw [found] at there
      cases there
  | some last =>
    refine ⟨last.pool.nextId, fun cache there => ?_, fun cache there => ?_⟩
    · obtain ⟨grown, also, grows⟩ := Host.grows_make s.move s.before c cache there
      obtain rfl := Option.some.inj (found.symm.trans also)
      exact grows.pool.made
    · obtain rfl := Option.some.inj (found.symm.trans there)
      exact Nat.le_refl _

namespace Step

variable {s : Step K V} (adds : s.move.adds = false)

include adds

/-- No slot gets live, and where a value is released one is live no longer. -/
theorem isLive_after (consistent : s.before.Consistent) (c : CacheId) (id : SlotId) :
    (s.after.isLive c id).toNat + (s.releases c id).toNat ≤ (s.before.isLive c id).toNat := by
  have stays : s.after.isLive c id = true → s.before.isLive c id = true := by
    intro live
    obtain ⟨held, alive⟩ := Bool.and_eq_true_iff.mp live
    have earlier : s.before.holds c id = true := by
      cases found : s.before.cache? c with
      | none =>
        rw [after, (Host.holds_make_of_none found).1] at held
        cases held
      | some cache =>
        rcases Host.holds_make consistent found held with before | ⟨key, value, stores, _⟩
        · exact before
        · rw [stores] at adds
          cases adds
    have alive : s.before.isDead c id = false := by
      rw [← Bool.not_eq_true]
      intro dead
      have still : s.after.isDead c id = true := (Host.grows_make s.move s.before).isDead dead
      simp [still] at alive
    simp [Host.isLive, earlier, alive]
  cases released : s.releases c id with
  | false =>
    cases live : s.after.isLive c id with
    | false => exact Nat.zero_le _
    | true => simp [stays live]
  | true =>
    obtain ⟨held, _⟩ := Host.of_releases consistent released
    rw [releases, Bool.and_eq_true] at released
    obtain ⟨alive, dead⟩ := released
    simp [Host.isLive, held, alive, dead]

/-- A move that stores nothing leaves no more live entries than it did not release. -/
theorem liveIn_after (consistent : s.before.Consistent) (c : CacheId) :
    s.after.liveIn c + s.released c ≤ s.before.liveIn c := by
  obtain ⟨n, below, later⟩ := s.exists_madeBelow c
  have all := List.sum_le_sum fun id (_ : id ∈ List.range n) => isLive_after adds consistent c id
  have left : ((List.range n).countP fun id => s.after.isLive c id) = s.after.liveIn c :=
    Host.countP_isLive (consistent.make s.move) later
  rw [List.sum_map_add, ← countP_eq_sum, ← countP_eq_sum, ← countP_eq_sum, left,
    countP_releases consistent below, Host.countP_isLive consistent below] at all
  exact all

/-- Each value that is released was that of a live entry. -/
theorem liveCount_after (consistent : s.before.Consistent) :
    s.after.liveCount + s.victims.length ≤ s.before.liveCount := by
  have same : s.after.nextCache = s.before.nextCache := by
    refine Host.nextCache_make (fun config builds => ?_) s.before
    rw [builds] at adds
    cases adds
  have all := List.sum_le_sum fun c (_ : c ∈ List.range s.before.nextCache) =>
    liveIn_after adds consistent c
  rw [List.sum_map_add, sum_released consistent] at all
  rw [Host.liveCount, Host.liveCount, same]
  exact all

end Step

namespace Work

/-- Where nothing is added, no more values are released than were live. -/
theorem sum_victims_le (w : Work K V α) {h : Host K V} (consistent : h.Consistent)
    (adds : ∀ s ∈ w.steps h, s.move.adds = false) :
    ((w.steps h).map fun s => s.victims.length).sum ≤ h.liveCount := by
  have each : ∀ s ∈ w.steps h, s.after.liveCount + s.victims.length ≤ s.before.liveCount :=
    fun s member => Step.liveCount_after (adds s member) ((consistent.work w).1 s member)
  have lost : (w.run h).1.liveCount +
      ((w.steps h).map fun s => s.before.liveCount - s.after.liveCount).sum =
        h.liveCount + ((w.steps h).map fun _ => 0).sum :=
    balance_run Host.liveCount fun s member => by
      have step := each s member
      omega
  have released : ((w.steps h).map fun s => s.victims.length).sum ≤
      ((w.steps h).map fun s => s.before.liveCount - s.after.liveCount).sum :=
    List.sum_le_sum fun s member => by
      have step := each s member
      omega
  have none : ((w.steps h).map fun _ => 0).sum = 0 := by simp
  omega

/-- Where nothing is added, each call of a cleaner uses up an entry that was live. -/
theorem Frugal.entered_le {w : Work K V α} (frugal : w.Frugal) {h : Host K V}
    (consistent : h.Consistent) (adds : ∀ s ∈ w.steps h, s.move.adds = false) :
    w.entered h ≤ h.liveCount := by
  have released := w.sum_victims_le consistent adds
  have called : (((w.steps h).map fun s => s.victims.length).sum : ℕ) =
      (((w.steps h).map fun s => s.enters.toNat).sum : ℕ) + w.total Step.surplus h :=
    sum_eq_add_sum fun s _ => by
      rw [Step.surplus]
      omega
  have paid := frugal h
  rw [← countP_eq_sum] at called
  rw [entered]
  omega

end Work

/-! ### Cleaners that store nothing -/

omit [DecidableEq K] in
/-- Whether a request stores no value. -/
def Request.storeless : Request K V → Bool
  | insert .. | insertOptional .. | storeNext .. => false
  | _ => true

omit [DecidableEq K] in
/-- Whether a request leads to no call of a cleaner, whatever the caches are like. -/
def Request.idle : Request K V → Bool
  | peek _ | containsKey _ | pending | length | raise _ => true
  | _ => false

omit [DecidableEq K] in
/-- No cleaner of a cache stores values. -/
def Host.Storeless (h : Host K V) : Prop :=
  ∀ c cache cleaner, h.cache? c = some cache → cache.cleaner = some cleaner →
    cleaner.Only Request.storeless

/-- No move gives a cache another cleaner. -/
theorem Host.Storeless.make {h : Host K V} (storeless : h.Storeless) {m : Move K V}
    (adds : m.adds = false) : (m.make h).1.Storeless := by
  intro c cache cleaner found has
  rcases Move.exists_of_cache?_make m found with ⟨old, before, rfl⟩ | ⟨_, config, rfl, _⟩
  · rw [(old.grows_effectOn m h.board c).cleaner] at has
    exact storeless c old cleaner before has
  · cases adds

namespace Work

/-- Where no cleaner stores values, some work neither stores a value nor builds a cache. -/
def Placeless (w : Work K V α) : Prop :=
  ∀ h : Host K V, h.Storeless → ∀ s ∈ w.steps h, s.move.adds = false

/-- What stores nothing leaves cleaners that store nothing. -/
theorem Placeless.run {w : Work K V α} (placeless : w.Placeless) {h : Host K V}
    (storeless : h.Storeless) : (w.run h).1.Storeless :=
  w.invariant_of_steps (fun s member before => before.make (placeless h storeless s member))
    storeless

theorem placeless_make {m : Move K V} (adds : m.adds = false) : (make m).Placeless := by
  intro h _ s member
  rw [steps_make, List.mem_singleton] at member
  rw [member, adds]

theorem placeless_plain (m : Move K V) (plain : m.plain = true) : (make m).Placeless := by
  apply placeless_make
  cases m <;> first | rfl | cases plain

theorem sequenced_placeless : Sequenced fun _ (w : Work K V _) => w.Placeless := by
  refine ⟨fun a h _ s member => ?_, fun {_ _ w f} first second h storeless s member => ?_,
    placeless_make rfl⟩
  · simp at member
  · rw [steps_bind] at member
    rcases List.mem_append.mp member with member | member
    · exact first h storeless s member
    · exact second _ _ (first.run storeless) s member

section

variable {run : CallbackRunner K V} (callbacks : ∀ r, r.Only Request.storeless → (run r).Placeless)

include callbacks

/-- The cleaner that is called is one of the host. -/
theorem placeless_clean (c : CacheId) (victim : Victim K V) : (clean run c victim).Placeless := by
  intro h storeless s member
  rw [clean, steps_bind, run_make, steps_make, List.mem_append, List.mem_singleton] at member
  rcases member with rfl | member
  · rfl
  · have view : (Move.view : Move K V).make h = (h, h) := rfl
    rw [view, dispose.eq_def] at member
    dsimp only at member
    cases found : h.cache? c with
    | none => simp [found] at member
    | some cache =>
      rw [found, Option.bind_some] at member
      cases has : cache.cleaner with
      | none => simp [has] at member
      | some cleaner =>
        rw [has] at member
        have called : (callCleaner run cleaner c victim).Placeless := by
          apply sequenced_placeless.bind (placeless_make rfl)
          intro call
          apply sequenced_placeless.bind (callbacks _ (storeless c cache cleaner found has call))
          intro replies
          exact placeless_make rfl
        exact called h storeless s member

theorem placeless_evict (c : CacheId) (budget : Nat) : (evict run c budget).Placeless :=
  sequenced_placeless.coupled.evict run run (placeless_clean callbacks)
    (fun _ _ => placeless_make rfl) (fun _ _ => placeless_make rfl)
    (fun _ _ _ => placeless_make rfl) c budget

theorem placeless_drain (c : CacheId) : (drain run c).Placeless :=
  sequenced_placeless.coupled.drain placeless_plain run run (placeless_evict callbacks) c

/-- A request that stores nothing is served without storing anything. -/
theorem placeless_perform (c : CacheId) {request : Request K V}
    (storeless : request.storeless = true) : (Host.perform run c request).Placeless := by
  have requests := sequenced_placeless.coupled.requests placeless_plain run run
    (placeless_evict callbacks)
  have changes : Changes (fun α (w : Work K V α) _ => w.Placeless) run run c request := by
    refine ⟨fun inserts => ?_, fun key value same => ?_, fun key age _ id => placeless_make rfl,
      fun key _ => ?_⟩
    · exact absurd storeless (by cases request <;> first | exact Bool.false_ne_true | cases inserts)
    · subst same
      cases storeless
    · exact sequenced_placeless.coupled.reclaim run run (placeless_clean callbacks)
        (fun _ _ => placeless_make rfl) (fun _ _ => placeless_make rfl)
        (fun _ _ => placeless_make rfl) c key
  exact sequenced_placeless.coupled.perform requests changes fun _ => placeless_make rfl

end

/-- Callbacks that store nothing do so at no depth. -/
theorem placeless_runCallbacks (limit : Nat) (r : Routine K V Unit)
    (only : r.Only Request.storeless) : (Host.runCallbacks limit r).Placeless := by
  induction limit generalizing r with
  | zero => exact sequenced_placeless.pure []
  | succ limit ih =>
    apply sequenced_placeless.map
    exact sequenced_placeless.routine_of_only (fun c _ => placeless_perform ih c) only

/-! ### Commands -/

/-- No cleaner is called. -/
def Quiet (w : Work K V α) : Prop := ∀ h : Host K V, w.entered h = 0

theorem quiet_make {m : Move K V} (noCall : m.calls = false) : (make m).Quiet := entered_make noCall

theorem sequenced_quiet : Sequenced fun _ (w : Work K V _) => w.Quiet := by
  refine ⟨fun a h => rfl, fun first second h => ?_, quiet_make rfl⟩
  rw [entered_bind, first, second]

theorem quiet_serve (limit : Nat) (c : CacheId) {request : Request K V}
    (idle : request.idle = true) : (Host.serve limit c request).Quiet := by
  apply sequenced_quiet.bind sequenced_quiet.view
  intro h
  cases h.cache? c with
  | none => exact sequenced_quiet.pure _
  | some cache =>
    have performed : (performOn (Host.runCallbacks limit) c cache request).Quiet := by
      cases request with
      | raise signal => exact sequenced_quiet.bind (quiet_make rfl) fun _ => sequenced_quiet.pure _
      | peek key => exact sequenced_quiet.pure _
      | containsKey key => exact sequenced_quiet.pure _
      | pending => exact sequenced_quiet.pure _
      | length => exact sequenced_quiet.pure _
      | _ => cases idle
    apply sequenced_quiet.bind performed
    intro reply
    exact sequenced_quiet.bind (quiet_make rfl) fun _ => sequenced_quiet.pure _

/-- Where no cleaner stores values, cleaners are called at most once for each entry that is live. -/
def Capped (w : Work K V α) : Prop :=
  ∀ h : Host K V, h.Consistent → h.Storeless → w.entered h ≤ h.liveCount

/-- Nothing is stored in the course of the work, so every call takes a live entry away. -/
theorem capped_of_placeless {w : Work K V α} (frugal : w.Frugal) (placeless : w.Placeless) :
    w.Capped := by
  intro h consistent storeless
  exact frugal.entered_le consistent (placeless h storeless)

/-- What is stored after the last call of a cleaner does not count. -/
theorem Capped.bind_quiet {w : Work K V α} {f : α → Work K V β} (capped : w.Capped)
    (quiet : ∀ a, (f a).Quiet) : (w >>= f).Capped := by
  intro h consistent storeless
  rw [entered_bind, quiet, Nat.add_zero]
  exact capped h consistent storeless

/-- Where no cleaner is called there is nothing to be shown. -/
theorem Quiet.capped {w : Work K V α} (quiet : w.Quiet) : w.Capped := by
  intro h _ _
  rw [quiet]
  exact Nat.zero_le _

theorem capped_view {f : Host K V → Work K V α} (capped : ∀ h, (f h).Capped) :
    (make .view >>= f).Capped := by
  intro h consistent storeless
  rw [entered_bind, entered_make rfl, Nat.zero_add]
  exact capped h h consistent storeless

/-- All the calls of a drain are for values that were live before it. -/
theorem capped_drain (limit : Nat) (c : CacheId) :
    (drain (Host.runCallbacks limit) c : Work K V Unit).Capped :=
  capped_of_placeless (inherited_frugal.drain (inherited_frugal.runCallbacks limit) c)
    (placeless_drain (placeless_runCallbacks limit) c)

/-- An operation stores its value after the calls that it makes. -/
theorem capped_serve (limit : Nat) (c : CacheId) (request : Request K V) :
    (Host.serve limit c request).Capped := by
  cases storeless : request.storeless with
  | true =>
    exact capped_of_placeless (inherited_frugal.serve limit c request)
      (placeless_perform (placeless_runCallbacks limit) c storeless)
  | false =>
    apply capped_view
    intro h
    cases h.cache? c with
    | none => exact (sequenced_quiet.pure _).capped
    | some cache =>
      have inserted : ∀ key value, (performOn (Host.runCallbacks limit) c cache
          (.insert key value)).Capped := by
        intro key value
        refine Capped.bind_quiet (Capped.bind_quiet (capped_drain limit c) fun _ => ?_) fun _ => ?_
        · exact quiet_make rfl
        · exact sequenced_quiet.pure _
      have performed : (performOn (Host.runCallbacks limit) c cache request).Capped := by
        cases request with
        | insert key value => exact inserted key value
        | insertOptional key value =>
          cases value with
          | none => exact (sequenced_quiet.pure _).capped
          | some value => exact inserted key value
        | storeNext key value => exact (sequenced_quiet.map _ (quiet_make rfl)).capped
        | _ => cases storeless
      apply performed.bind_quiet
      intro reply
      exact sequenced_quiet.bind (quiet_make rfl) fun _ => sequenced_quiet.pure _

end Work

/-- A command that is a request, or stores what a source gives that does nothing else but look at
    caches and raise signals. -/
def Command.Single : Command K V → Prop
  | request _ => True
  | insertAll source => ∀ next ∈ source, next.Only Request.idle
  | _ => False

/-- A command that is one operation makes at most as many calls as there are live entries. -/
theorem Work.capped_command [BEq V] (limit : Nat) (cursors : Cursors K) (c : CacheId)
    {command : Command K V} (single : command.Single) : (command.work limit cursors c).Capped := by
  apply capped_view
  intro h
  cases h.cache? c with
  | none => exact (sequenced_quiet.pure _).capped
  | some cache =>
    cases command with
    | request asked =>
      exact (capped_serve limit c asked).bind_quiet fun _ => sequenced_quiet.pure _
    | insertAll source =>
      have stored : (storeAll limit c source).Quiet := by
        refine sequenced_quiet.coupled.storeAll limit limit (fun _ _ => quiet_make rfl) ?_
        intro next member
        apply sequenced_quiet.map
        exact sequenced_quiet.routine_of_only (fun c _ => quiet_serve limit c) (single next member)
      have inserted : (Work.insertAll limit c source).Capped :=
        (capped_drain limit c).bind_quiet fun _ => stored
      exact inserted.bind_quiet fun _ => sequenced_quiet.pure _
    | _ => cases single

end

end ReclaimableCache
