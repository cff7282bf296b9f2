import ReclaimableCache.Proofs.Reaction
import ReclaimableCache.Proofs.Touches
import ReclaimableCache.Proofs.Trim
import ReclaimableCache.Proofs.Unread

/-!
# Storing several values at once

Storing pairs with one operation drains once, before the first of them. Storing them one after the
other drains each time, but as long as the policy releases values under pressure only and no signal
is raised meanwhile, the later drains find nothing to do.
-/

namespace ReclaimableCache

variable {K V : Type}

/-- The command that stores pairs which are at hand. -/
def Command.insertPairs (pairs : List (K × V)) : Command K V :=
  .insertAll (pairs.map fun e => .done (.ok e))

/-- The acts that store pairs one after the other. -/
def Act.inserts (c : CacheId) (pairs : List (K × V)) : List (Act K V) :=
  pairs.map fun e => .on c (.request (.insert e.1 e.2))

/-- A slot is live and holds a value under a key. -/
def SlotPool.Holds (p : SlotPool K V) (id : SlotId) (e : K × V) : Prop :=
  ∃ slot, p.get? id = some slot ∧ slot.key = e.1 ∧ slot.value? = some e.2

section

variable [DecidableEq K]

/-! ### What is stored -/

namespace Cache

/-- A cache once pairs are stored in it, one after the other. -/
def storeAll (c : Cache K V) (pairs : List (K × V)) : Cache K V :=
  pairs.foldl (fun c e => (c.store e.1 e.2).1) c

theorem storeAll_cons (c : Cache K V) (e : K × V) (rest : List (K × V)) :
    c.storeAll (e :: rest) = (c.store e.1 e.2).1.storeAll rest := rfl

/-- What is found under a key is the last of the pairs with this key. -/
theorem peek_storeAll {c : Cache K V} (consistent : c.Consistent) (pairs : List (K × V)) (key : K) :
    (c.storeAll pairs).peek key = (pairs.reverse.lookup key).or (c.peek key) := by
  induction pairs generalizing c with
  | nil => rfl
  | cons e rest ih =>
    obtain ⟨k, value⟩ := e
    rw [storeAll_cons, ih (consistent.store k value), peek_store consistent, List.reverse_cons,
      List.lookup_append, Option.or_assoc, PlainMap.bind]
    congr 1
    by_cases here : key = k
    · simp [here]
    · have other : (key == k) = false := beq_false_of_ne here
      simp [List.lookup_cons, here, other]

/-- The queue is the tail of what was pinned before and the new slots. -/
theorem ids_storeAll {c : Cache K V} (consistent : c.Consistent) {touched : List SlotId}
    (tail : c.queue.ids = touched.rtake c.queue.capacity) (pairs : List (K × V)) :
    (c.storeAll pairs).queue.ids =
      (touched ++ List.range' c.pool.nextId pairs.length).rtake c.queue.capacity := by
  induction pairs generalizing c touched with
  | nil => rw [List.length_nil, List.range'_zero, List.append_nil, storeAll, List.foldl_nil, tail]
  | cons e rest ih =>
    have capacity : (c.store e.1 e.2).1.queue.capacity = c.queue.capacity :=
      c.queue.capacity_pin _ _
    have pinned := PinQueue.ids_pin_rtake (c.pool.add (.fresh e.1 e.2)) tail
      consistent.pins.bounded c.pool.nextId
    rw [← capacity] at pinned
    rw [storeAll_cons, ih (consistent.store e.1 e.2) pinned, nextId_store, capacity,
      List.length_cons, List.range'_succ, List.append_assoc, List.singleton_append]

/-- A stored value is held by a new slot. -/
theorem holds_store (c : Cache K V) (key : K) (value : V) :
    (c.store key value).1.pool.Holds c.pool.nextId (key, value) := by
  have made : (c.pool.add (.fresh key value)).get? c.pool.nextId = some (.fresh key value) := by
    rw [SlotPool.get?_add, if_pos rfl]
  obtain ⟨slot, found, ages⟩ :=
    (PinQueue.grows_pin c.queue (c.pool.add (.fresh key value)) c.pool.nextId).ages _ _ made
  have there : (c.store key value).1.pool.get? c.pool.nextId = some slot := found
  have shown := c.value?_store key value c.pool.nextId
  rw [if_pos rfl, SlotPool.value?, there, Option.bind_some] at shown
  exact ⟨slot, there, ages.key, shown⟩

/-- A slot that holds a pair keeps it while others are stored. -/
theorem holds_storeAll {c : Cache K V} {id : SlotId} {e : K × V} (holds : c.pool.Holds id e)
    (made : id < c.pool.nextId) (pairs : List (K × V)) : (c.storeAll pairs).pool.Holds id e := by
  induction pairs generalizing c with
  | nil => exact holds
  | cons other rest ih =>
    obtain ⟨slot, found, key, value⟩ := holds
    obtain ⟨later, there, ages⟩ := (c.grows_store other.1 other.2).pool.ages id slot found
    have kept := c.value?_store other.1 other.2 id
    rw [if_neg (Nat.ne_of_lt made), SlotPool.value?, SlotPool.value?, there, found, Option.bind_some,
      Option.bind_some, value] at kept
    refine ih ⟨later, there, ages.key.trans key, kept⟩ ?_
    rw [nextId_store]
    exact Nat.lt_succ_of_lt made

/-- Each pair is held by a slot of its own, in the order in which they are stored. -/
theorem holds_of_stored (c : Cache K V) {pairs : List (K × V)} {i : Nat} {e : K × V}
    (there : pairs[i]? = some e) : (c.storeAll pairs).pool.Holds (c.pool.nextId + i) e := by
  induction pairs generalizing c i with
  | nil => cases there
  | cons first rest ih =>
    rw [storeAll_cons]
    have next := c.nextId_store first.1 first.2
    cases i with
    | zero =>
      cases there
      exact holds_storeAll (c.holds_store e.1 e.2) (next ▸ Nat.lt_succ_self _) rest
    | succ i =>
      have held := ih (c.store first.1 first.2).1 there
      rwa [next, Nat.add_assoc, Nat.add_comm 1 i] at held

end Cache

namespace Host

/-- A host once pairs are stored in one of its caches, one after the other. -/
def placeAll (h : Host K V) (c : CacheId) (pairs : List (K × V)) : Host K V :=
  pairs.foldl (fun h e => (h.place c e.1 e.2).1) h

theorem cache?_placeAll {h : Host K V} {c : CacheId} {cache : Cache K V}
    (found : h.cache? c = some cache) (pairs : List (K × V)) :
    (h.placeAll c pairs).cache? c = some (cache.storeAll pairs) := by
  induction pairs generalizing h cache with
  | nil => exact found
  | cons e rest ih =>
    exact ih (Move.cache?_make_of_target found (m := .place c e.1 e.2) rfl)

end Host

/-- Pairs that are at hand are stored one after the other, and nothing else is done. -/
theorem Work.storeAll_pairs (limit : Nat) (c : CacheId) (pairs : List (K × V)) (h : Host K V) :
    (storeAll limit c (pairs.map fun e => .done (.ok e))).run h = (h.placeAll c pairs, .ok ()) ∧
      ((storeAll limit c (pairs.map fun e => .done (.ok e))).steps h).map Step.move =
        pairs.map fun e => .place c e.1 e.2 := by
  induction pairs generalizing h with
  | nil => exact ⟨rfl, rfl⟩
  | cons e rest ih =>
    obtain ⟨ran, made⟩ := ih (h.place c e.1 e.2).1
    refine ⟨ran, ?_⟩
    rw [List.map_cons, List.map_cons, ← made]
    rfl

/-! ### Drains that find nothing to do -/

/-- A cache whose policy was asked a number of times. -/
def Cache.askedTimes (c : Cache K V) (asked : Nat) : Cache K V := { c with consulted := asked }

namespace Cache

/-- Nothing waits to be swept out, all raises of the signal are seen, and without pressure the policy
    asks for nothing. -/
structure Idle (cache : Cache K V) (board : PressureBoard) : Prop where
  swept : cache.pending = []
  seen : (cache.usage board).underPressure = false
  sparing : cache.policy = .manual ∨ cache.policy = .onPressure

namespace Idle

variable {cache : Cache K V} {board : PressureBoard} (idle : cache.Idle board)

include idle

theorem store (key : K) (value : V) : (cache.store key value).1.Idle board :=
  ⟨idle.swept, idle.seen, idle.sparing⟩

omit [DecidableEq K] in
theorem askedTimes (asked : Nat) : (cache.askedTimes asked).Idle board :=
  ⟨idle.swept, idle.seen, idle.sparing⟩

omit [DecidableEq K] in
theorem budget : cache.budget (cache.usage board) = 0 := by
  rw [Cache.budget]
  rcases idle.sparing with manual | onPressure
  · rw [manual, Policy.budget]
  · rw [onPressure, Policy.budget, idle.seen]
    rfl

omit [DecidableEq K] in
/-- Asking the policy leaves no trace but that it was asked. -/
theorem consult : cache.consult board = cache.askedTimes (cache.consulted + 1) := by
  have seen := idle.seen
  have watch : (cache.watch.map fun w => w.look board) = cache.watch := by
    cases watched : cache.watch with
    | none => rfl
    | some w =>
      rw [usage, watched, Option.any_some, Watch.isRaised, bne_eq_false_iff_eq] at seen
      rw [Option.map_some, Watch.look, seen]
  rw [Cache.consult, watch, seen]
  rfl

end Idle

end Cache

/-- A cache of a host is idle. -/
def Host.IdleAt (h : Host K V) (c : CacheId) : Prop :=
  ∀ cache, h.cache? c = some cache → cache.Idle h.board

/-- Draining an idle cache only asks its policy. -/
theorem Work.drain_idle {h : Host K V} {c : CacheId} {cache : Cache K V}
    (found : h.cache? c = some cache) (idle : cache.Idle h.board) (run : CallbackRunner K V) :
    ((drain run c).run h).1 = (h.setCache c (cache.askedTimes (cache.consulted + 1))).record
        (.consultation c (cache.usage h.board) 0) ∧
      ((drain run c).steps h).filterMap Step.call? = [] := by
  have nothing : h.onCache c 0 Cache.sweep = (h, 0) := by
    rw [Host.onCache, found]
    dsimp only
    rw [Cache.sweep_of_swept idle.swept, Host.setCache_self found]
  have swept : (Move.sweep c).make h = (h, ()) := by
    simp only [Move.make, Host.sweep, nothing, if_true]
  have asked : (Move.consult c).make h = ((h.setCache c (cache.askedTimes (cache.consulted + 1))).record
      (.consultation c (cache.usage h.board) 0), 0) := by
    rw [Move.make, Host.consult, found]
    dsimp only
    rw [idle.budget, idle.consult, idle.seen]
    rfl
  rw [drain, run_bind, steps_bind, run_make, steps_make, swept, run_bind, steps_bind, run_make,
    steps_make, asked, if_pos rfl]
  exact ⟨rfl, rfl⟩

/-! ### Cleaners that leave the signal alone -/

omit [DecidableEq K] in
/-- Whether a request raises a signal, and not the one that is watched. -/
def Request.raisesOther (watched : Option SignalId) : Request K V → Bool
  | raise signal => decide (watched ≠ some signal)
  | _ => false

/-- The cleaner is quiet, and does not raise the signal that the cache watches. -/
def Cache.Reticent (c : Cache K V) : Prop :=
  ∀ cleaner, c.cleaner = some cleaner →
    cleaner.Only (Request.raisesOther (c.watch.map Watch.signal))

omit [DecidableEq K] in
theorem Cache.Reticent.quiet {cache : Cache K V} (reticent : cache.Reticent) : cache.Quiet :=
  fun cleaner configured call => (reticent cleaner configured call).mono fun request raises => by
    cases request <;> first | rfl | cases raises

/-- Whether a step leaves a signal alone. -/
def Step.SparesSignal (watched : Option SignalId) (s : Step K V) : Prop :=
  ∀ signal, watched = some signal → s.move ≠ .raise signal

theorem Cache.Reticent.callsBack {cache : Cache K V} (reticent : cache.Reticent) (limit : Nat) :
    cache.CallsBack limit (Step.SparesSignal (cache.watch.map Watch.signal)) := by
  intro cleaner configured call
  have sequenced := Work.sequenced_always (K := K) (V := V)
    (P := Step.SparesSignal (cache.watch.map Watch.signal)) fun _ _ _ => nofun
  cases limit with
  | zero => exact sequenced.pure []
  | succ limit =>
    apply sequenced.map
    refine sequenced.routine_of_only (fun c request other => ?_) (reticent cleaner configured call)
    cases request with
    | raise signal =>
      refine Work.always_perform_raise (fun _ _ _ => nofun) (fun _ _ _ _ _ _ => nofun) ?_ _ c
      rintro h _ watched ⟨⟩
      exact of_decide_eq_true other watched
    | _ => cases other

/-- Where a signal is left alone, it is as it was. -/
theorem Work.epoch_of_spared {α : Type} {w : Work K V α} {h : Host K V} {signal : SignalId}
    (spared : ∀ s ∈ w.steps h, s.SparesSignal (some signal)) :
    (w.run h).1.board.epoch signal = h.board.epoch signal := by
  apply w.invariant_of_steps (P := fun g => g.board.epoch signal = h.board.epoch signal) _ rfl
  intro s member before
  by_cases raises : ∃ other, s.move = .raise other
  · obtain ⟨other, raises⟩ := raises
    have different : signal ≠ other := by
      rintro rfl
      exact spared s member signal rfl raises
    rw [Step.after, raises, Move.make, Host.raise, PressureBoard.epoch_raise,
      if_neg fun same => different same.1]
    exact before
  · rw [Step.after, Host.board_make fun other same => raises ⟨other, same⟩]
    exact before

namespace Cache

omit [DecidableEq K] in
/-- A policy that was just asked has seen all raises. -/
theorem seen_consult (cache : Cache K V) (board : PressureBoard) :
    ((cache.consult board).usage board).underPressure = false := by
  rw [usage, consult]
  cases cache.watch with
  | none => rfl
  | some w => exact w.isRaised_look board

omit [DecidableEq K] in
/-- Whether there is pressure depends on the signal that is watched. -/
theorem underPressure_congr {c d : Cache K V} {board other : PressureBoard} (watch : d.watch = c.watch)
    (epochs : ∀ signal, c.watch.map Watch.signal = some signal →
      other.epoch signal = board.epoch signal) :
    (d.usage other).underPressure = (c.usage board).underPressure := by
  rw [usage, usage, watch]
  cases watched : c.watch with
  | none => rfl
  | some w =>
    rw [Option.any_some, Option.any_some, Watch.isRaised, Watch.isRaised,
      epochs w.signal (by rw [watched, Option.map_some])]

end Cache

section

variable {h : Host K V} {c : CacheId} {cache : Cache K V} (found : h.cache? c = some cache)
  (limit : Nat)

include found

/-- With a reticent cleaner a pass leaves the signal alone that the cache watches. -/
theorem Work.epoch_evict (reticent : cache.Reticent) (budget : Nat) {signal : SignalId}
    (watched : cache.watch.map Watch.signal = some signal) :
    ((evict (Host.runCallbacks limit) c budget).run h).1.board.epoch signal =
      h.board.epoch signal := by
  apply epoch_of_spared
  intro s member
  have released := Move.cache?_make_of_target found (m := .releaseValues c budget) rfl
  have still : Cache.Reticent ((Move.releaseValues c budget).effect h.board cache) := reticent
  rw [evict, steps_bind, steps_bind, steps_bind, run_make, steps_pure] at member
  simp only [List.append_nil, List.mem_append] at member
  rcases member with member | member | member
  · obtain rfl := List.mem_singleton.mp member
    intro _ _ raises
    cases raises
  · rcases mem_steps_cleanAll released (still.callsBack limit) (fun _ _ _ raises => by cases raises)
      still.quiet _ member with spares | disposing
    · exact watched ▸ spares
    · rintro other _ raises
      rw [raises] at disposing
      cases disposing
  · obtain rfl := List.mem_singleton.mp member
    intro _ _ raises
    cases raises

theorem Work.seen_evict (reticent : cache.Reticent)
    (seen : (cache.usage h.board).underPressure = false) (budget : Nat) : ∃ later,
      ((evict (Host.runCallbacks limit) c budget).run h).1.cache? c = some later ∧
        (later.usage ((evict (Host.runCallbacks limit) c budget).run h).1.board).underPressure =
          false := by
  obtain ⟨_, _, evicted, _⟩ := evict_quiet found reticent.quiet limit budget
  refine ⟨_, evicted, ?_⟩
  rw [← seen]
  exact Cache.underPressure_congr rfl fun signal watched =>
    epoch_evict found limit reticent budget watched

variable (sparing : cache.policy = .manual ∨ cache.policy = .onPressure ∧ cache.Reticent)

include sparing

/-- No raise is unseen after a drain, unless the cleaner made one in a pass. -/
theorem Work.seen_drain : ∃ later,
    ((drain (Host.runCallbacks limit) c).run h).1.cache? c = some later ∧
      (later.usage ((drain (Host.runCallbacks limit) c).run h).1.board).underPressure = false := by
  have swept := Move.cache?_make_of_target found (m := .sweep c) rfl
  have asked := Move.cache?_make_of_target swept (m := .consult c) rfl
  have told := Move.consult_snd swept
  have seen := Cache.seen_consult cache.sweep.1 ((Move.sweep c).make h).1.board
  have board := Host.board_make (m := .consult c) (fun _ same => by cases same)
    ((Move.sweep c).make h).1
  rw [run_drain]
  dsimp only
  generalize (Move.consult c).make ((Move.sweep c).make h).1 = g at told asked board ⊢
  split
  · exact ⟨_, asked, by rw [board]; exact seen⟩
  · rename_i some
    -- A manual policy asks for nothing, so there is a pass only where the cleaner is reticent.
    have reticent : cache.Reticent := by
      rcases sparing with manual | ⟨_, reticent⟩
      · have policy : cache.sweep.1.policy = .manual := manual
        exact absurd (told.trans (by rw [Cache.budget, Move.effect, policy, Policy.budget])) some
      · exact reticent
    have signal : (cache.sweep.1.consult ((Move.sweep c).make h).1.board).watch.map Watch.signal =
        cache.watch.map Watch.signal := by
      rw [Cache.consult, Option.map_map]
      rfl
    have still : Cache.Reticent (cache.sweep.1.consult ((Move.sweep c).make h).1.board) := by
      rw [Cache.Reticent, signal]
      exact reticent
    obtain ⟨later, evicted, unseen⟩ := seen_evict asked limit still (by rw [board]; exact seen) g.2
    split
    · exact ⟨later, evicted, unseen⟩
    · have ended := Move.cache?_make_of_target evicted (m := .sweep c) rfl
      refine ⟨_, ended, ?_⟩
      rw [Host.board_make (m := .sweep c) (fun _ same => by cases same)]
      exact unseen

/-- After a drain a cache is idle. -/
theorem Work.idleAt_drain : ((drain (Host.runCallbacks limit) c).run h).1.IdleAt c := by
  obtain ⟨later, ends, seen⟩ := seen_drain found limit sparing
  obtain ⟨grown, same, grows⟩ := h.grows_run (drain (Host.runCallbacks limit) c) c cache found
  intro other there
  cases ends.symm.trans there
  cases ends.symm.trans same
  refine ⟨swept_drain _ c h later ends, seen, ?_⟩
  rw [grows.policy]
  exact sparing.imp id And.left

end

/-! ### Hosts abreast -/

/-- The second host is the first one, but for the journal and for how often the policy of one cache was
    asked. -/
def Host.Abreast (c : CacheId) (h g : Host K V) : Prop :=
  ∃ cache asked journal, h.cache? c = some cache ∧
    g = (h.setCache c (cache.askedTimes asked)).withJournal journal

namespace Host

variable {h g : Host K V} {c : CacheId}

theorem place_of_found {cache : Cache K V} (found : h.cache? c = some cache) (key : K) (value : V) :
    (h.place c key value).1 =
      (h.setCache c (cache.store key value).1).record (.pinned c cache.pool.nextId) := by
  rw [place, found]

theorem IdleAt.place {cache : Cache K V} (found : h.cache? c = some cache) (idle : h.IdleAt c)
    (key : K) (value : V) : (h.place c key value).1.IdleAt c := by
  intro later there
  have stored := Move.cache?_make_of_target found (m := .place c key value) rfl
  cases stored.symm.trans there
  have board : (h.place c key value).1.board = h.board := by
    rw [place_of_found found]
    rfl
  rw [board]
  exact (idle cache found).store key value

omit [DecidableEq K] in
theorem Abreast.refl {cache : Cache K V} (found : h.cache? c = some cache) : Abreast c h h :=
  ⟨cache, cache.consulted, h.journal, found, (setCache_self found).symm⟩

namespace Abreast

variable (abreast : Abreast c h g)

include abreast

omit [DecidableEq K] in
theorem found : ∃ cache asked, h.cache? c = some cache ∧
    g.cache? c = some (cache.askedTimes asked) := by
  obtain ⟨cache, asked, journal, found, rfl⟩ := abreast
  exact ⟨cache, asked, found, cache?_setCache_target found _⟩

omit [DecidableEq K] in
theorem idle (idle : h.IdleAt c) : g.IdleAt c := by
  obtain ⟨cache, asked, journal, found, rfl⟩ := abreast
  intro other there
  cases there.symm.trans (cache?_setCache_target found _)
  exact (idle cache found).askedTimes asked

omit [DecidableEq K] in
theorem record (r : Record K V) : Abreast c h (g.record r) := by
  obtain ⟨cache, asked, journal, found, rfl⟩ := abreast
  exact ⟨cache, asked, journal.add r, found, rfl⟩

theorem place (key : K) (value : V) : Abreast c (h.place c key value).1 (g.place c key value).1 := by
  obtain ⟨cache, asked, journal, found, rfl⟩ := abreast
  have there : ((h.setCache c (cache.askedTimes asked)).withJournal journal).cache? c =
      some (cache.askedTimes asked) := cache?_setCache_target found _
  have stored := Move.cache?_make_of_target found (m := .place c key value) rfl
  refine ⟨(cache.store key value).1, asked, journal.add (.pinned c cache.pool.nextId), stored, ?_⟩
  have first : (h.setCache c (cache.askedTimes asked)).setCache c
      ((cache.askedTimes asked).store key value).1 =
        h.setCache c (((cache.store key value).1).askedTimes asked) := setCache_setCache h c _ _
  have second := setCache_setCache h c (cache.store key value).1
    ((cache.store key value).1.askedTimes asked)
  rw [place_of_found there, place_of_found found]
  exact congrArg (fun g => (withJournal g journal).record (.pinned c cache.pool.nextId))
    (first.trans second.symm)

theorem drain (idle : h.IdleAt c) (run : CallbackRunner K V) :
    Abreast c h ((Work.drain run c).run g).1 := by
  have still := abreast.idle idle
  obtain ⟨cache, asked, journal, found, rfl⟩ := abreast
  have there : ((h.setCache c (cache.askedTimes asked)).withJournal journal).cache? c =
      some (cache.askedTimes asked) := cache?_setCache_target found _
  rw [(Work.drain_idle there (still _ there) run).1]
  apply Abreast.record
  refine ⟨cache, asked + 1, journal, found, ?_⟩
  exact congrArg (withJournal · journal) (setCache_setCache h c _ _)

/-- Storing a value as an operation of its own keeps hosts abreast that are idle. -/
theorem insert (idle : h.IdleAt c) (limit : Nat) (key : K) (value : V) :
    Abreast c (h.place c key value).1 ((Host.serve limit c (.insert key value)).run g).1 := by
  obtain ⟨_, _, _, there⟩ := abreast.found
  have drained := abreast.drain idle (runCallbacks limit)
  rw [Host.serve, Work.run_perform _ there, Work.performOn, Work.run_map, Work.run_insert]
  generalize ((Work.drain (runCallbacks limit) c).run g).1 = f at drained ⊢
  exact (drained.place key value).record (.served c (.insert key value) (.value (f.place c key value).2))

end Abreast

end Host

section

variable [BEq V] {s : Session K V} {c : CacheId} {cache : Cache K V} (limit : Nat)

/-- Storing a value calls a cleaner in the drain at most. -/
theorem Session.calls_insert (found : s.host.cache? c = some cache) (key : K) (value : V) :
    (s.history limit [.on c (.request (.insert key value))]).filterMap Step.call? =
      ((Work.drain (Host.runCallbacks limit) c).steps s.host).filterMap Step.call? := by
  rw [Work.calls_history found rfl, Command.workOn, Work.steps_bind, Work.steps_pure,
    List.append_nil, Host.serve, Work.calls_perform found, Work.performOn, Work.steps_map, Work.insert,
    Work.steps_bind, List.filterMap_append]
  exact List.append_nil _

/-- Storing values one after the other keeps hosts abreast that are idle, and calls no cleaner. -/
theorem Host.Abreast.inserts {h : Host K V} (abreast : Abreast c h s.host) (idle : h.IdleAt c)
    (pairs : List (K × V)) :
    Abreast c (h.placeAll c pairs) (s.run limit (Act.inserts c pairs)).1.host ∧
      (s.run limit (Act.inserts c pairs)).1.cursors = s.cursors ∧
      (s.history limit (Act.inserts c pairs)).filterMap Step.call? = [] := by
  induction pairs generalizing h s with
  | nil => exact ⟨abreast, rfl, rfl⟩
  | cons e rest ih =>
    obtain ⟨cache, asked, found, there⟩ := abreast.found
    have stored := abreast.insert idle limit e.1 e.2
    have act := s.act_request limit c (.insert e.1 e.2)
    obtain ⟨hosts, cursors, calls⟩ := @ih (s.act limit (.on c (.request (.insert e.1 e.2)))).1
      (h.place c e.1 e.2).1 (act ▸ stored) (idle.place found e.1 e.2)
    rw [Act.inserts, List.map_cons, Session.run_cons, Session.history_cons, ← Session.history_single,
      List.filterMap_append, ← Act.inserts, calls, Session.calls_insert limit there]
    refine ⟨hosts, cursors.trans (act ▸ rfl), ?_⟩
    rw [(Work.drain_idle there (abreast.idle idle _ there) _).2, List.append_nil]

/-! ### The two ways to store pairs -/

variable (found : s.host.cache? c = some cache) (pairs : List (K × V))

include found

/-- Storing pairs with one operation drains, and then stores them. -/
theorem Session.act_insertPairs : s.act limit (.on c (.insertPairs pairs)) =
    (⟨((Work.drain (Host.runCallbacks limit) c).run s.host).1.placeAll c pairs, s.cursors⟩, .done) := by
  rw [act, carryOut, Act.work, Work.run_command found, Command.insertPairs, Command.workOn,
    Work.run_bind, Work.run_pure, Work.insertAll, Work.run_bind, (Work.storeAll_pairs limit c pairs _).1]
  rfl

theorem Session.history_insertPairs : ∃ placed,
    s.history limit [.on c (.insertPairs pairs)] = ⟨s.host, .view⟩ ::
        ((Work.drain (Host.runCallbacks limit) c).steps s.host ++ placed) ∧
      placed.map Step.move = pairs.map fun e => .place c e.1 e.2 := by
  rw [history_command found, Command.insertPairs, Command.workOn, Work.steps_bind, Work.steps_pure,
    List.append_nil, Work.insertAll, Work.steps_bind]
  exact ⟨_, rfl, (Work.storeAll_pairs limit c pairs _).2⟩

omit [DecidableEq K] [BEq V] found in
theorem Step.calls_of_placed {placed : List (Step K V)}
    (moves : placed.map Step.move = pairs.map fun e => .place c e.1 e.2) :
    placed.filterMap Step.call? = [] := by
  apply List.filterMap_eq_nil_iff.mpr
  intro t member
  have named : t.move ∈ pairs.map fun e => Move.place c e.1 e.2 :=
    moves ▸ List.mem_map_of_mem member
  obtain ⟨e, _, place⟩ := List.mem_map.mp named
  rw [Step.call?, ← place]

/-- Where later drains find nothing to do, both ways come to the same. -/
theorem Session.abreast_insertPairs (some : pairs ≠ [])
    (sparing : cache.policy = .manual ∨ cache.policy = .onPressure ∧ cache.Reticent) :
    (s.act limit (.on c (.insertPairs pairs))).1.host.Abreast c
        (s.run limit (Act.inserts c pairs)).1.host ∧
      (s.run limit (Act.inserts c pairs)).1.cursors = s.cursors ∧
      (s.history limit (Act.inserts c pairs)).filterMap Step.call? =
        (s.history limit [.on c (.insertPairs pairs)]).filterMap Step.call? := by
  obtain ⟨e, rest, rfl⟩ := List.exists_cons_of_ne_nil some
  -- The first insertion drains as the one operation does; the cache is idle from then on.
  obtain ⟨placed, history, moves⟩ := history_insertPairs limit found (e :: rest)
  obtain ⟨drained, there, _⟩ := Work.seen_drain found limit sparing
  have idle := Work.idleAt_drain found limit sparing
  have act := s.act_request limit c (.insert e.1 e.2)
  rw [Host.serve, Work.run_perform _ found, Work.performOn, Work.run_map, Work.run_insert] at act
  have calls := calls_insert limit found e.1 e.2
  rw [act_insertPairs limit found, history, List.filterMap_cons_none rfl, List.filterMap_append,
    Step.calls_of_placed _ moves, List.append_nil, ← calls]
  generalize ((Work.drain (Host.runCallbacks limit) c).run s.host).1 = h at there idle act ⊢
  have first : Host.Abreast c (h.place c e.1 e.2).1
      (s.act limit (.on c (.request (.insert e.1 e.2)))).1.host := by
    rw [act]
    exact ((Host.Abreast.refl there).place e.1 e.2).record _
  obtain ⟨hosts, cursors, none⟩ := first.inserts limit (idle.place there e.1 e.2) rest
  rw [Act.inserts, List.map_cons, run_cons, history_cons, ← history_single, ← Act.inserts,
    List.filterMap_append, none, List.append_nil]
  exact ⟨hosts, cursors.trans (act ▸ rfl), rfl⟩

end

/-! ### What is there then -/

/-- With a quiet cleaner a drain neither pins nor makes a slot. -/
theorem Host.Ready.drain_keeps {h : Host K V} {c : CacheId} {cache drained : Cache K V}
    (ready : h.Ready c cache) (limit : Nat)
    (ends : ((Work.drain (runCallbacks limit) c).run h).1.cache? c = some drained) :
    drained.queue = cache.queue ∧ drained.pool.nextId = cache.pool.nextId := by
  obtain ⟨later, there, _, next⟩ := ready.drained limit
  cases ends.symm.trans there.found
  obtain ⟨⟨later, also, drains⟩, _⟩ := Work.drain_quiet ready.found ready.quiet ready.consistent limit
    ready.accounted (ready.accounted.sweep ready.here)
  cases ends.symm.trans also
  exact ⟨drains.queue, next⟩

theorem rtake_min {σ : Type} (l : List σ) (n : Nat) : l.rtake (min n l.length) = l.rtake n := by
  rw [List.rtake, List.rtake]
  congr 1
  omega

/-- What one operation makes of a cache that was drained, once it stored pairs in it. -/
structure Cache.Stores (drained later : Cache K V) (pairs : List (K × V)) : Prop where
  /-- The last of the pairs with a key is found under it. -/
  live : ∀ key, later.peek key = (pairs.reverse.lookup key).or (drained.peek key)
  /-- As many of the old pins are left as there is room for behind the new ones. -/
  pins : later.queue.ids =
    (drained.queue.ids ++ List.range' drained.pool.nextId pairs.length).rtake
      (min drained.queue.capacity (drained.pinned + pairs.length))
  /-- Each of the new slots holds its pair. -/
  slots : ∀ i e, pairs[i]? = some e → later.pool.Holds (drained.pool.nextId + i) e

theorem Cache.Consistent.stores {drained : Cache K V} (consistent : drained.Consistent)
    (pairs : List (K × V)) : drained.Stores (drained.storeAll pairs) pairs := by
  refine ⟨peek_storeAll consistent pairs, ?_, fun i e there => drained.holds_of_stored there⟩
  have bounded := consistent.pins.bounded
  rw [PinQueue.length] at bounded
  have tail : drained.queue.ids = drained.queue.ids.rtake drained.queue.capacity := by
    rw [List.rtake, Nat.sub_eq_zero_of_le bounded, List.drop_zero]
  have length : drained.pinned + pairs.length =
      (drained.queue.ids ++ List.range' drained.pool.nextId pairs.length).length := by
    rw [List.length_append, List.length_range']
    rfl
  rw [ids_storeAll consistent tail, length, rtake_min]

namespace Session

variable [BEq V]

/-- Storing pairs with one operation drains once, before the first pair, and releases nothing after
    that; with a quiet cleaner the pins that were there before are still the first ones. Where values are
    released under pressure only, and the cleaner leaves the signal alone, it comes to the same as
    storing the pairs one after the other: but for the journal and for the number of questions to the
    policy the two hosts are the same, and the same calls of cleaners are made. -/
theorem bulk_insert (limit : Nat) (board : PressureBoard) {s : Session K V}
    (reachable : s.Reachable limit board) {c : CacheId} {cache : Cache K V}
    (found : s.host.cache? c = some cache) (pairs : List (K × V)) :
    let bulk := s.act limit (.on c (.insertPairs pairs))
    let each := s.run limit (Act.inserts c pairs)
    (pairs ≠ [] → (cache.policy = .manual ∨ cache.policy = .onPressure ∧ cache.Reticent) →
      (∃ later asked journal, bulk.1.host.cache? c = some later ∧
        each.1.host = (bulk.1.host.setCache c (later.askedTimes asked)).withJournal journal) ∧
      each.1.cursors = bulk.1.cursors ∧
      (s.history limit (Act.inserts c pairs)).filterMap Step.call? =
        (s.history limit [.on c (.insertPairs pairs)]).filterMap Step.call?) ∧
    ∃ drained later placed,
      ((Work.drain (Host.runCallbacks limit) c).run s.host).1.cache? c = some drained ∧
      bulk.1.host.cache? c = some later ∧ bulk.2 = .done ∧
      s.history limit [.on c (.insertPairs pairs)] = ⟨s.host, .view⟩ ::
        ((Work.drain (Host.runCallbacks limit) c).steps s.host ++ placed) ∧
      placed.map Step.move = pairs.map (fun e => .place c e.1 e.2) ∧
      drained.Stores later pairs ∧
      (cache.Quiet → drained.queue = cache.queue ∧ drained.pool.nextId = cache.pool.nextId) := by
  intro bulk each
  have act : bulk = _ := act_insertPairs limit found pairs
  obtain ⟨acts, rfl⟩ := reachable
  have consistent := consistent_run limit board acts
  refine ⟨fun some sparing => ?_, ?_⟩
  · obtain ⟨hosts, cursors, calls⟩ := abreast_insertPairs limit found pairs some sparing
    exact ⟨hosts, cursors.trans (act ▸ rfl), calls⟩
  · obtain ⟨drained, there, _⟩ :=
      Host.grows_run (Work.drain (Host.runCallbacks limit) c) _ c cache found
    obtain ⟨placed, history, moves⟩ := history_insertPairs limit found pairs
    have stores := ((consistent.work (Work.drain (Host.runCallbacks limit) c)).2 c drained there).stores
      pairs
    refine ⟨drained, _, placed, there, ?_, act ▸ rfl, history, moves, stores, fun quiet => ?_⟩
    · rw [act]
      exact Host.cache?_placeAll there pairs
    · have ready : ((empty board).run limit acts).1.host.Ready c cache :=
        ⟨found, consistent, (accounts_run limit board acts).1, quiet⟩
      exact ready.drain_keeps limit there

end Session

end

/-- A cache of two pins that releases values when memory is short. Its cleaner raises another signal. -/
def Config.heeding : Config UInt64 Nat where
  pinCapacity := 2
  shards := some 2
  hasher := .standard
  cleaner := some {
    callbacks := fun _ => .inTurn 0 [.raise 1] ()
    verdict := fun _ => .failed (.cleanup "refused") }
  policy := .onPressure
  signal := some 0

/-- Three values are stored in such a cache, and its signal is raised. -/
def heedingSession : Session UInt64 Nat :=
  ((Session.empty ⟨#[0, 0]⟩).run 1 [.build .heeding, .on 0 (.request (.insert 1 10)),
    .on 0 (.request (.insert 2 20)), .on 0 (.request (.insert 3 30)), .on 0 (.request (.raise 0))]).1

theorem reticent_heeding {cache : Cache UInt64 Nat}
    (configured : cache.cleaner = Config.heeding.cleaner) (watch : cache.watch = some ⟨0, 0⟩) :
    cache.Reticent := by
  rw [Cache.Reticent, configured, watch]
  rintro _ same call
  cases same
  exact ⟨rfl, fun _ => trivial⟩

/-- The value without a pin is released first. Of three pairs that are stored then the last one
    overrides the first one, and two of them are pinned. -/
theorem bulk_insert_heeding :
    let pairs := [(2, 21), (4, 40), (2, 22)]
    ∃ cache drained later : Cache UInt64 Nat, heedingSession.host.cache? 0 = some cache ∧
      cache.policy = .onPressure ∧ cache.Reticent ∧ drained.Stores later pairs ∧
      drained.queue = cache.queue ∧
      (heedingSession.run 1 (Act.inserts 0 pairs)).1.host.cache? 0 = some (later.askedTimes 6) ∧
      later.consulted = 4 ∧ later.queue.ids = [4, 5] ∧
      later.toList = [(3, 30), (4, 40), (2, 22)] ∧
      ((heedingSession.history 1 (Act.inserts 0 pairs)).filterMap Step.call?).map Cleaning.key =
        [1] := by
  intro pairs
  have shown : (heedingSession.host.cache? 0).map (fun cache =>
      (cache.policy, cache.cleaner, cache.watch)) =
        some (.onPressure, Config.heeding.cleaner, some ⟨0, 0⟩) := rfl
  obtain ⟨cache, found, facts⟩ := Option.map_eq_some_iff.mp shown
  simp only [Prod.mk.injEq] at facts
  obtain ⟨policy, configured, watch⟩ := facts
  have reticent := reticent_heeding configured watch
  have reachable : heedingSession.Reachable 1 ⟨#[0, 0]⟩ := ⟨_, rfl⟩
  obtain ⟨same, drained, later, _, _, ends, _, _, _, stores, keeps⟩ :=
    Session.bulk_insert 1 ⟨#[0, 0]⟩ reachable found pairs
  obtain ⟨abreast, _, calls⟩ := same (List.cons_ne_nil _ _) (.inr ⟨policy, reticent⟩)
  obtain ⟨_, asked, there, each⟩ := Host.Abreast.found abreast
  cases ends.symm.trans there
  have times : ((heedingSession.run 1 (Act.inserts 0 pairs)).1.host.cache? 0).map
      Cache.consulted = some 6 := by decide +kernel
  rw [each, Option.map_some, Option.some.injEq] at times
  obtain rfl : asked = 6 := times
  have left : ((heedingSession.act 1 (.on 0 (.insertPairs pairs))).1.host.cache? 0).map
      (fun cache => (cache.consulted, cache.queue.ids, cache.toList)) =
        some (4, [4, 5], [(3, 30), (4, 40), (2, 22)]) := by decide +kernel
  rw [there, Option.map_some, Option.some.injEq] at left
  simp only [Prod.mk.injEq] at left
  refine ⟨cache, drained, later, found, policy, reticent, stores, (keeps reticent.quiet).1, each,
    left.1, left.2.1, left.2.2, ?_⟩
  rw [calls]
  decide +kernel

end ReclaimableCache
