import ReclaimableCache.Proofs.Coupling
import ReclaimableCache.Proofs.Fate
import ReclaimableCache.Proofs.Protection
import ReclaimableCache.Proofs.Reaction
import ReclaimableCache.Proofs.Sharding

/-!
# Clearing a cache

A cache that is cleared has no entries, no pins and no slots in line, and clearing it once more changes
nothing. It keeps the slots that it made, the number of passes over its table, the raises of its signal
that it has seen, and its counters. Whatever is done to the cache from then on goes as with one that
was just built from the same configuration, but that it counts on, and that entries may be listed and
released in another order.
-/

namespace ReclaimableCache

variable {K V α : Type}

theorem ShardedMap.clear_clear (m : ShardedMap K) : m.clear.clear = m.clear := by
  have shards : m.clear.clear.shards = m.clear.shards := by
    simp only [clear, Array.map_map]
    rfl
  obtain ⟨hasher, _, _, _⟩ := m
  rw [clear, mk.injEq]
  exact ⟨rfl, shards, rfl⟩

section

variable [DecidableEq K]

/-! ### What clearing leaves -/

namespace Cache

variable {c : Cache K V}

/-- A cache once it is cleared. -/
def cleared (c : Cache K V) : Cache K V := c.unpinAll.sweep.1.dropEntries

theorem Consistent.cleared (consistent : c.Consistent) : c.cleared.Consistent :=
  consistent.unpinAll.sweep.dropEntries

/-- No slot that the cache ever made is pinned any more. -/
theorem Consistent.pins_cleared (consistent : c.Consistent) (id : SlotId) :
    c.cleared.pool.pins id = 0 :=
  UInt64.toNat_inj.mp (consistent.cleared.pins.pins_eq id)

theorem nextId_cleared (c : Cache K V) : c.cleared.pool.nextId = c.pool.nextId :=
  c.queue.nextId_clear c.pool

/-- There is nothing left that clearing once more could change. -/
theorem cleared_cleared (c : Cache K V) : c.cleared.cleared = c.cleared := by
  have unpinned : c.cleared.unpinAll = c.cleared := rfl
  have swept : c.cleared.sweep.1 = c.cleared := by
    have counted : c.cleared.counters.sweep 0 = c.cleared.counters := by simp [Counters.sweep]
    exact congrArg (fun n => { c.cleared with counters := n }) counted
  have dropped : c.cleared.dropEntries = c.cleared :=
    congrArg (fun m => { c.cleared with table := m }) (ShardedMap.clear_clear _)
  rw [cleared, unpinned, swept, dropped]

end Cache

namespace Host

variable {h : Host K V} {c : CacheId} {cache : Cache K V} (found : h.cache? c = some cache)

include found

theorem exists_make_sweep :
    ∃ j, ((Move.sweep c).make h).1 = (h.setCache c cache.sweep.1).withJournal j := by
  rw [Move.make, sweep, onCache, found]
  dsimp only
  split
  · exact ⟨_, rfl⟩
  · exact ⟨_, rfl⟩

theorem exists_run_clear :
    ∃ j, ((Work.clear c).run h).1 = (h.setCache c cache.cleared).withJournal j := by
  have unpinned : ((Move.unpinAll c).make h).1 = h.setCache c cache.unpinAll := by
    rw [Move.make, modifyCache, found]
  have there := cache?_setCache_target found cache.unpinAll
  obtain ⟨j, swept⟩ := exists_make_sweep there
  rw [setCache_setCache] at swept
  have left : ((h.setCache c cache.unpinAll.sweep.1).withJournal j).cache? c =
      some cache.unpinAll.sweep.1 := cache?_setCache_target found _
  have dropped : ∃ j', ((Move.dropEntries c).make
      ((h.setCache c cache.unpinAll.sweep.1).withJournal j)).1 =
        (((h.setCache c cache.unpinAll.sweep.1).withJournal j).setCache c
          cache.cleared).withJournal j' := by
    rw [Move.make, dropEntries, left]
    exact ⟨_, rfl⟩
  obtain ⟨j', dropped⟩ := dropped
  refine ⟨j', ?_⟩
  rw [Work.run_clear, unpinned, swept, dropped]
  show ((h.setCache c cache.unpinAll.sweep.1).setCache c cache.cleared).withJournal j' = _
  rw [setCache_setCache]

/-- Clearing a cache changes nothing but that cache, and calls no cleaner. -/
theorem serve_clear (limit : Nat) :
    (∃ j, (serve limit c .clear).run h = ((h.setCache c cache.cleared).withJournal j, .done)) ∧
      (serve limit c .clear).calls h = [] := by
  obtain ⟨j, cleared⟩ := exists_run_clear found
  have viewed : (Work.make (.view : Move K V)).calls h = [] := rfl
  have quiet : (Work.clear c).calls h = [] := rfl
  rw [serve, perform, Work.run_bind, Work.calls_bind, viewed, Work.run_make]
  simp only [Move.make, found]
  rw [Work.performOn, Work.run_bind, Work.calls_bind, Work.run_bind, Work.calls_bind, Work.run_bind,
    quiet, cleared]
  exact ⟨⟨_, rfl⟩, rfl⟩

end Host

/-! ### What a configuration settles -/

/-- A cache has what its configuration says. -/
structure Cache.Follows (config : Config K V) (c : Cache K V) : Prop where
  capacity : c.queue.capacity = config.pinCapacity
  policy : c.policy = config.policy
  cleaner : c.cleaner = config.cleaner
  signal : c.watch.map Watch.signal = config.signal

omit [DecidableEq K] in
/-- A cache that is made has the policy of its configuration, and others can be made of the same
    configuration, whatever the signals. -/
theorem Config.assembled {config : Config K V} {board : PressureBoard} {c : Cache K V}
    (made : config.assemble board = .ok c) :
    c.policy = config.policy ∧ ∀ other, ∃ fresh, config.assemble other = .ok fresh := by
  rw [assemble] at made
  cases table : ShardedMap.create config.hasher config.shardCount with
  | error p =>
    rw [table] at made
    cases made
  | ok m =>
    cases queue : PinQueue.create config.pinCapacity with
    | error p =>
      rw [table, queue] at made
      cases made
    | ok q =>
      rw [table, queue] at made
      cases made
      refine ⟨rfl, fun other => ?_⟩
      rw [assemble, table, queue]
      exact ⟨_, rfl⟩

namespace Cache

variable {config : Config K V} {c fresh : Cache K V} {board : PressureBoard}

omit [DecidableEq K] in
theorem follows_assemble (made : config.assemble board = .ok c) : c.Follows config := by
  have new := new_assemble made
  refine ⟨PinQueue.capacity_create new.queue, (Config.assembled made).1, new.cleaner, ?_⟩
  rw [new.watch, Option.map_map]
  exact Option.map_id_apply

theorem Follows.effect (follows : c.Follows config) (m : Move K V) :
    (m.effect board c).Follows config := by
  have grows := c.grows_effect m board
  refine ⟨(c.capacity_effect m board).trans follows.capacity, grows.policy.trans follows.policy,
    grows.cleaner.trans follows.cleaner, ?_⟩
  by_cases polls : ∃ d, m = .consult d
  · obtain ⟨d, rfl⟩ := polls
    refine Eq.trans ?_ follows.signal
    show (c.watch.map fun w => w.look board).map Watch.signal = _
    rw [Option.map_map]
    rfl
  · rw [(c.polled_effect board fun d same => polls ⟨d, same⟩).2]
    exact follows.signal

end Cache

namespace Host

/-- A cache that the host has follows a configuration. -/
def Follows (h : Host K V) (c : CacheId) (config : Config K V) : Prop :=
  ∃ cache, h.cache? c = some cache ∧ cache.Follows config

variable {h : Host K V} {c : CacheId} {config : Config K V}

theorem Follows.make (follows : h.Follows c config) (m : Move K V) :
    (m.make h).1.Follows c config := by
  obtain ⟨cache, found, holds⟩ := follows
  refine ⟨_, Move.cache?_make_of_some found m, ?_⟩
  rw [Move.effectOn]
  split
  · exact holds.effect m
  · exact holds

theorem Follows.run (follows : h.Follows c config) (w : Work K V α) :
    (w.run h).1.Follows c config :=
  (w.invariant (P := fun h => h.Follows c config) (fun m _ holds => holds.make m) follows).2

end Host

/-! ### Cleared caches and new ones -/

/-- A cache that was cleared, and has seen all raises of its signal, is alike to a new one; it has its
    slots and its counters behind it. -/
theorem Cache.Follows.alike_cleared {config : Config K V} {c fresh : Cache K V}
    {board : PressureBoard} (follows : c.Follows config) (made : config.assemble board = .ok fresh)
    (seen : (c.usage board).underPressure = false) :
    c.cleared.Alike ⟨c.pool.nextId, c.cleared.counters⟩ fresh := by
  have new := new_assemble made
  have same := follows_assemble made
  refine ⟨⟨fun id => ?_, ?_⟩, fun key => ?_, ?_, ?_, ?_, ?_, ?_, ?_⟩
  · have past : c.cleared.pool.nextId ≤ c.pool.nextId + id := by
      rw [nextId_cleared]
      exact Nat.le_add_right _ _
    rw [new.pool, SlotPool.get?_empty]
    exact Array.getElem?_eq_none past
  · rw [nextId_cleared, new.pool]
    rfl
  · rw [new.get?]
    exact ShardedMap.get?_clear _ key
  · have ids := PinQueue.ids_create new.queue
    have capacity := follows.capacity.trans same.capacity.symm
    show (⟨c.queue.capacity, []⟩ : PinQueue) = ⟨fresh.queue.capacity, fresh.queue.ids.map _⟩
    rw [capacity, ids]
    rfl
  · rw [new.pending]
    exact List.Perm.refl []
  · rw [new.counters, Counters.nothing_onTop]
  · exact same.policy.trans follows.policy.symm
  · have signal := follows.signal
    rw [new.watch, ← signal]
    show _ = c.watch
    rw [usage] at seen
    -- All raises were seen, so that the watch is as new.
    cases watched : c.watch with
    | none => rfl
    | some w =>
      rw [watched] at seen
      have epoch : board.epoch w.signal = w.seen := by
        simpa [Watch.isRaised] using seen
      simp [Watch.start, epoch]
  · exact same.cleaner.trans follows.cleaner.symm

/-- Whatever was built once can be built again, whatever the signals. -/
theorem Host.exists_rebuild {h : Host K V} {config : Config K V}
    (built : (h.build config).2 = .ok ()) (g : Host K V) :
    ∃ fresh, config.assemble g.board = .ok fresh ∧
      (g.build config).1.cache? g.nextCache = some fresh := by
  obtain ⟨cache, made, _⟩ := Move.exists_of_build built
  obtain ⟨fresh, remade⟩ := (Config.assembled made).2 g.board
  refine ⟨fresh, remade, ?_⟩
  have there : (g.build config).1.cache? g.nextCache = _ :=
    Move.cache?_make_build config g g.nextCache
  have checked : config.check = .ok () := by
    rw [build] at built
    cases checked : config.check with
    | error e =>
      rw [checked] at built
      cases built
    | ok _ => rfl
  rw [there, if_pos rfl, Config.built?, checked]
  dsimp only
  rw [remade]
  rfl

/-! ### Sessions on cleared caches and on new ones -/

namespace Session

variable [BEq V] {limit : Nat} {c : CacheId} {s t : Session K V}

/-- The session once a cache is cleared, with no cursor open. -/
def clearing (limit : Nat) (s : Session K V) (c : CacheId) : Session K V :=
  ⟨(s.step limit c (.request .clear)).1.host, []⟩

/-- The session with another cache in place of one of its own, with no cursor open. -/
def replacing (s : Session K V) (c : CacheId) (cache : Cache K V) : Session K V :=
  ⟨s.host.setCache c cache, []⟩

/-- The commands are carried out on a cache of both sessions in turn, and none of them depends on the
    order of entries. -/
def Orderless (limit : Nat) (c : CacheId) : Session K V → Session K V → List (Command K V) → Prop
  | _, _, [] => True
  | s, t, command :: rest =>
      command.Orderless limit c s t ∧
        Orderless limit c (s.step limit c command).1 (t.step limit c command).1 rest

/-- The same can be measured of all caches, but that one of them in the first session counted on. -/
def OffBy (c : CacheId) (owed : Counters) (s t : Session K V) : Prop :=
  ∀ d, s.measures d =
    (t.measures d).map fun m => (m.1, m.2.1, m.2.2.1, m.2.2.2.onTop (if d = c then owed else {}))

/-- While the commands are carried out on a cache of both sessions in turn, the same can be measured,
    each has the same answer, and cleaners are called on the same values, but that the cache in the
    first session counted on. -/
def AgreeBut (limit : Nat) (c : CacheId) (owed : Counters) :
    Session K V → Session K V → List (Command K V) → Prop
  | s, t, [] => OffBy c owed s t
  | s, t, command :: rest =>
      OffBy c owed s t ∧
        (s.step limit c command).2.AlikeBut owed (t.step limit c command).2 ∧
        (t.calls limit (.on c command)).Perm (s.calls limit (.on c command)) ∧
        AgreeBut limit c owed (s.step limit c command).1 (t.step limit c command).1 rest

end Session

omit [DecidableEq K] in
theorem Answer.AlikeBut.reply? {owed : Counters} {a b : Answer K V} (alike : a.AlikeBut owed b) :
    b.reply? = a.reply? := by
  cases a with
  | metrics counted =>
    cases b with
    | metrics other => rfl
    | _ => exact Answer.Alike.reply? alike
  | _ => exact Answer.Alike.reply? alike

namespace Session

variable [BEq V] {limit : Nat} {c : CacheId} {owed : Counters} {s t : Session K V}
  {commands : List (Command K V)}

/-- Sessions that agree give the same replies. -/
theorem AgreeBut.replies (agree : AgreeBut limit c owed s t commands) :
    (t.run limit (commands.map (.on c ·))).2.map Answer.reply? =
      (s.run limit (commands.map (.on c ·))).2.map Answer.reply? := by
  induction commands generalizing s t with
  | nil => rfl
  | cons command rest ih =>
    obtain ⟨_, answers, _, agree⟩ := agree
    rw [List.map_cons, answers_cons, answers_cons, List.map_cons, List.map_cons]
    exact congrArg₂ _ (Answer.AlikeBut.reply? answers) (ih agree)

/-- Sessions that agree measure the same in the end. -/
theorem AgreeBut.last (agree : AgreeBut limit c owed s t commands) :
    OffBy c owed (s.run limit (commands.map (.on c ·))).1
      (t.run limit (commands.map (.on c ·))).1 := by
  induction commands generalizing s t with
  | nil => exact agree
  | cons command rest ih =>
    obtain ⟨_, _, _, agree⟩ := agree
    rw [List.map_cons, run_cons, run_cons]
    exact ih agree

end Session

/-- The past of the one cache that has one. -/
def Past.only (c : CacheId) (p : Past) : CacheId → Option Past :=
  fun d => if d = c then some p else none

namespace Session.Alike

variable [BEq V] {limit : Nat} {c : CacheId} {p : Past} {s t : Session K V}
  (alike : s.Alike (Past.only c p) t)

include alike

omit [BEq V] in
theorem offBy : OffBy c p.counters s t := by
  intro d
  rw [alike.measures d, Past.only]
  split <;> rfl

/-- Sessions of which one cache has a past stay alike, and differ by that past only. -/
theorem agreeBut {commands : List (Command K V)} (orderless : Orderless limit c s t commands)
    (few : ∀ step ∈ s.history limit (commands.map (.on c ·)), step.before.Countable) :
    AgreeBut limit c p.counters s t commands := by
  induction commands generalizing s t with
  | nil => exact alike.offBy
  | cons command rest ih =>
    obtain ⟨now, later⟩ := orderless
    rw [List.map_cons, history_cons] at few
    have fewNow := fun step member => few step (List.mem_append_left _ member)
    have fewLater := fun step member => few step (List.mem_append_right _ member)
    have known : Past.only c p c = some p := if_pos rfl
    have done := alike.together_work known now fewNow
    have next : (s.step limit c command).1.Alike (Past.only c p) (t.step limit c command).1 :=
      ⟨done.hosts, done.results.1.run _ _⟩
    exact ⟨alike.offBy, done.results.2, done.calls, ih next later fewLater⟩

end Session.Alike

namespace Session

variable [BEq V] {limit : Nat} {c : CacheId} {s : Session K V} {cache : Cache K V}
  (found : s.host.cache? c = some cache)

include found

omit found in
theorem consistent_clearing (consistent : s.host.Consistent) (limit : Nat) (c : CacheId) :
    (s.clearing limit c).host.Consistent :=
  (consistent.work _).2

theorem exists_clearing_eq (limit : Nat) :
    ∃ j, s.clearing limit c = ⟨(s.host.setCache c cache.cleared).withJournal j, []⟩ := by
  obtain ⟨⟨j, cleared⟩, _⟩ := Host.serve_clear found limit
  have host : (s.step limit c (.request .clear)).1.host =
      (s.host.setCache c cache.cleared).withJournal j := by
    show (((Command.request .clear).work limit s.cursors c).run s.host).1 = _
    rw [Command.work, Work.run_bind, Work.run_make]
    simp only [Move.make, found]
    rw [Command.workOn, Work.run_bind, cleared]
    rfl
  refine ⟨j, ?_⟩
  rw [clearing, host]

/-- Clearing a cache and building a new one in its place lead to sessions that are alike. -/
theorem alike_clearing (limit : Nat) (consistent : s.host.Consistent) {config : Config K V}
    (follows : cache.Follows config) (plain : cache.Plain) {fresh : Cache K V}
    (made : config.assemble s.host.board = .ok fresh)
    (seen : (cache.usage s.host.board).underPressure = false) :
    (s.clearing limit c).Alike (Past.only c ⟨cache.pool.nextId, cache.cleared.counters⟩)
      (s.replacing c fresh) := by
  obtain ⟨j, cleared⟩ := exists_clearing_eq found limit
  have here : ∀ d, ((s.host.setCache c cache.cleared).withJournal j).cache? d = _ :=
    Host.cache?_setCache found cache.cleared
  have there : ∀ d, (s.host.setCache c fresh).cache? d = _ := Host.cache?_setCache found fresh
  rw [cleared, replacing]
  refine ⟨⟨rfl, ?_, ?_, ?_, ?_, fun d => ?_⟩, fun name => .none⟩
  · exact (Array.size_setIfInBounds ..).trans (Array.size_setIfInBounds ..).symm
  · exact consistent.setCache found (consistent c cache found).cleared
  · exact consistent.setCache found (Cache.new_assemble made).consistent
  · intro d other known now
    rw [here] at now
    rw [Past.only] at known
    split at now
    · cases now
      exact ⟨plain.policy, plain.cleaner⟩
    · rename_i elsewhere
      rw [if_neg elsewhere] at known
      cases known
  · rw [here, there, Past.only]
    split
    · exact .some (follows.alike_cleared made seen)
    · cases s.host.cache? d with
      | none => exact .none
      | some other => exact .some rfl

end Session

/-! ### Every cache of a run -/

namespace Cache

/-- Nothing is left in a cache, and none of the slots that it made is pinned. -/
structure Bare (c : Cache K V) : Prop where
  size : c.size = 0
  pinned : c.pinned = 0
  pending : c.pending = []
  pins : ∀ id, c.pool.pins id = 0

theorem Consistent.bare_cleared {c : Cache K V} (consistent : c.Consistent) : c.cleared.Bare :=
  ⟨rfl, rfl, rfl, consistent.pins_cleared⟩

end Cache

/-- The host once a cache is cleared. -/
def Host.clearing (limit : Nat) (h : Host K V) (c : CacheId) : Host K V :=
  ((serve limit c .clear).run h).1

/-- Clearing a cache calls no cleaner, leaves it bare with all its slots, and does nothing to the host
    the second time but that it is noted down. -/
structure Host.Resets (limit : Nat) (c : CacheId) (cache : Cache K V) (h : Host K V) : Prop where
  calls : (serve limit c .clear).calls h = []
  bare : ∃ bare, (h.clearing limit c).cache? c = some bare ∧ bare.Bare ∧
    bare.pool.nextId = cache.pool.nextId
  again : ((h.clearing limit c).clearing limit c).withJournal (h.clearing limit c).journal =
    h.clearing limit c

theorem Host.resets {h : Host K V} (consistent : h.Consistent) {c : CacheId} {cache : Cache K V}
    (found : h.cache? c = some cache) (limit : Nat) : h.Resets limit c cache := by
  obtain ⟨⟨j, once⟩, silent⟩ := serve_clear found limit
  have cleared : h.clearing limit c = (h.setCache c cache.cleared).withJournal j :=
    congrArg Prod.fst once
  have there : (h.clearing limit c).cache? c = some cache.cleared := by
    rw [cleared]
    exact cache?_setCache_target found cache.cleared
  obtain ⟨⟨j', twice⟩, _⟩ := serve_clear there limit
  refine ⟨silent, ⟨_, there, (consistent c cache found).bare_cleared, cache.nextId_cleared⟩, ?_⟩
  have again : (h.clearing limit c).clearing limit c =
      ((h.clearing limit c).setCache c cache.cleared.cleared).withJournal j' :=
    congrArg Prod.fst twice
  rw [again, Cache.cleared_cleared, setCache_self there]
  rfl

/-- A configuration of caches of which a drain releases all values that it may or none, with a plain
    cleaner. -/
structure Config.Plain (config : Config K V) : Prop where
  policy : config.policy = .onPressure ∨ config.policy = .manual
  cleaner : ∀ cleaner, config.cleaner = some cleaner → cleaner.Plain

omit [DecidableEq K] in
theorem Cache.Follows.plain {c : Cache K V} {config : Config K V} (follows : c.Follows config)
    (plain : config.Plain) : c.Plain :=
  ⟨follows.policy ▸ plain.policy, follows.cleaner ▸ plain.cleaner⟩

namespace Session

variable [BEq V]

/-- A cache that is cleared and a new one of the configuration are told apart by commands only if they
    depend on the order of entries, and what the cache had counted is counted on. -/
def Renews (limit : Nat) (c : CacheId) (config : Config K V) (s : Session K V) : Prop :=
  ∃ fresh bare, (s.host.build config).1.cache? s.host.nextCache = some fresh ∧
    (s.clearing limit c).host.cache? c = some bare ∧
    ∀ commands, Orderless limit c (s.clearing limit c) (s.replacing c fresh) commands →
      (∀ step ∈ (s.clearing limit c).history limit (commands.map (.on c ·)),
        step.before.Countable) →
      AgreeBut limit c bare.counters (s.clearing limit c) (s.replacing c fresh) commands

/-- A cache follows the configuration that it was built from, whatever is done later. -/
theorem follows_run {s : Session K V} {config : Config K V} (built : (s.host.build config).2 = .ok ())
    (limit : Nat) (later : List (Act K V)) :
    (s.run limit (.build config :: later)).1.host.Follows s.host.nextCache config := by
  obtain ⟨cache, made, found⟩ := Move.exists_of_build built
  have start : (s.host.build config).1.Follows s.host.nextCache config :=
    ⟨cache, found, Cache.follows_assemble made⟩
  have first : (s.act limit (.build config)).1.host = (s.host.build config).1 := by
    rw [act, carryOut, Act.work, Work.run_bind, Work.run_make]
    simp only [Move.make, built]
    rfl
  rw [run_cons, run, carryOut]
  refine Host.Follows.run ?_ _
  rw [first]
  exact start

end Session

end

/-- A session in which requests were made to the first of two caches. -/
def Config.used (config : Config UInt64 Nat) (requests : List (Request UInt64 Nat)) :
    Session UInt64 Nat :=
  ((Session.empty ⟨#[0]⟩).run 0
    (.build config :: .build (.still 1) :: requests.map fun r => .on 0 (.request r))).1

theorem Config.consistent_used (config : Config UInt64 Nat) (requests : List (Request UInt64 Nat)) :
    (config.used requests).host.Consistent :=
  Session.consistent_run 0 ⟨#[0]⟩ _

/-- Values are stored, read and released, and one of them is left that waits to be swept out. -/
def worn : Session UInt64 Nat :=
  (Config.picky 2).used
    [.insert 2 20, .insert 3 30, .insert 3 31, .get 2, .raise 0, .insert 4 40, .reclaim 2]

/-- Values are stored and released, listed, taken out and counted. -/
def freshCommands : List (Command UInt64 Nat) :=
  [.request (.insert 2 20), .request (.insert 3 30), .request (.insert 4 40), .request (.raise 0),
    .request (.get 4), .request (.insert 5 50), .openCursor 0 .entry, .exhaustCursor 0,
    .stepCursor 0, .retain fun _ key _ => .done (key = 4), .metrics]

/-- The cursor is exhausted before it is stepped, and the predicate looks at nothing but the key. -/
theorem orderless_worn (fresh : Cache UInt64 Nat) :
    Session.Orderless 0 0 (worn.clearing 0 0) (worn.replacing 0 fresh) freshCommands := by
  have stepped : ∀ (s : Session UInt64 Nat) command, s.host.Consistent →
      (s.step 0 0 command).1.host.Consistent := fun s command consistent => (consistent.work _).2
  have cleared : (worn.clearing 0 0).host.Consistent := by
    rw [worn]
    exact Session.consistent_clearing (Config.consistent_used _ _) 0 0
  refine ⟨trivial, trivial, trivial, trivial, trivial, trivial, trivial, trivial, ?_,
    fun cache found => ?_, trivial, trivial⟩
  · show _ = none
    decide +kernel
  · refine Predicate.steady_of_looks 0 ?_ (by decide +kernel) found fun _ _ => trivial
    iterate 9 refine stepped _ _ ?_
    exact cleared

/-- Each edit turns around the order in which a shard lists its entries. -/
def Hasher.turning : Hasher UInt64 where
  digest := Hasher.standard.digest
  arrange edits entries := if edits % 2 = 0 then entries else entries.reverse
  arrange_perm edits entries := by
    split
    · exact .refl _
    · exact entries.reverse_perm

/-- A cache of one shard in which the order of entries turns around. -/
def Config.turning : Config UInt64 Nat := { Config.still 1 with hasher := .turning }

/-- The cleaner fails on one key in every second call. -/
def Config.erratic : Config UInt64 Nat :=
  { Config.picky 2 with
    cleaner := some {
      callbacks := fun _ => .done ()
      verdict := fun call =>
        if call.key = 2 ∧ call.serial % 2 = 0 then .failed (.cleanup "refused") else .succeeded } }

/-- Requests were made to a cache that has seen all raises of its signal. If it is cleared, the commands
    lead to something else than with a new one. -/
def Config.Tells (config : Config UInt64 Nat) (requests : List (Request UInt64 Nat))
    (commands : List (Command UInt64 Nat)) : Prop :=
  ∃ cache fresh bare, (config.used requests).host.cache? 0 = some cache ∧
    (cache.usage (config.used requests).host.board).underPressure = false ∧
    ((config.used requests).host.build config).1.cache? (config.used requests).host.nextCache =
      some fresh ∧
    ((config.used requests).clearing 0 0).host.cache? 0 = some bare ∧
    ¬ Session.AgreeBut 0 0 bare.counters ((config.used requests).clearing 0 0)
      ((config.used requests).replacing 0 fresh) commands

theorem Config.tells {config : Config UInt64 Nat} {requests : List (Request UInt64 Nat)}
    {commands : List (Command UInt64 Nat)} (there : ((config.used requests).host.cache? 0).isSome)
    (seen : ((((config.used requests).host.cache? 0).get there).usage
      (config.used requests).host.board).underPressure = false)
    (built : (((config.used requests).host.build config).1.cache?
      (config.used requests).host.nextCache).isSome)
    (left : (((config.used requests).clearing 0 0).host.cache? 0).isSome)
    (differ : ¬ Session.AgreeBut 0 0 (Option.get _ left).counters
      ((config.used requests).clearing 0 0) ((config.used requests).replacing 0 (Option.get _ built))
      commands) : config.Tells requests commands :=
  ⟨_, _, _, (Option.some_get there).symm, seen, (Option.some_get built).symm,
    (Option.some_get left).symm, differ⟩

/-- The text that shows the first cache. -/
def Session.text (s : Session UInt64 Nat) : Option String :=
  (s.host.cache? 0).map fun cache => cache.inspectMap.compact

/-- Requests were made to a cache. If it is cleared, its text after some commands is another one than
    with a new one. -/
def Config.Shows (config : Config UInt64 Nat) (requests : List (Request UInt64 Nat))
    (commands : List (Command UInt64 Nat)) : Prop :=
  ∃ fresh, ((config.used requests).host.build config).1.cache?
      (config.used requests).host.nextCache = some fresh ∧
    (((config.used requests).clearing 0 0).run 0 (commands.map (.on 0 ·))).1.text ≠
      (((config.used requests).replacing 0 fresh).run 0 (commands.map (.on 0 ·))).1.text

theorem Config.shows {config : Config UInt64 Nat} {requests : List (Request UInt64 Nat)}
    {commands : List (Command UInt64 Nat)}
    (built : (((config.used requests).host.build config).1.cache?
      (config.used requests).host.nextCache).isSome)
    (differ : (((config.used requests).clearing 0 0).run 0 (commands.map (.on 0 ·))).1.text ≠
      (((config.used requests).replacing 0 (Option.get _ built)).run 0
        (commands.map (.on 0 ·))).1.text) : config.Shows requests commands :=
  ⟨_, (Option.some_get built).symm, differ⟩

end ReclaimableCache
