import ReclaimableCache.Proofs.Refinement

/-!
# Values that were touched recently

A slot that was just looked up or made stands at the end of the pin queue. Each further pin lets it
go one place forward at most, so that it stays pinned until as many slots were pinned after it as
there may be pins. A pinned slot is not chosen by a pass, and as it is live it does not wait to be
swept out: only what is done under its own key, or to the cache as a whole, can take it away. This
is shown for single moves, whatever the operation or the cleaner that makes them, and follows for
the continuation of a run by induction on its moves.
-/

namespace ReclaimableCache

variable {K V : Type}

section

variable [DecidableEq K]

/-! ### What touches, what pins and what disturbs -/

/-- A move on a cache hands out the value in a slot, or stores it there, under a key. -/
inductive Move.Touches (c : CacheId) (cache : Cache K V) (key : K) :
    Move K V → SlotId → V → Prop where
  | hit {id : SlotId} {value : V} (installed : cache.table.get? key = some id)
      (holds : cache.pool.value? id = some value) : Touches c cache key (.look c key) id value
  | stored (value : V) : Touches c cache key (.place c key value) cache.pool.nextId value

/-- Whether a move on a cache pins a slot: it stores a value, or looks up a key that there is an
    entry for. -/
def Move.pinsOn (cache : Cache K V) : Move K V → Bool
  | look _ key => (cache.table.get? key).isSome
  | place .. => true
  | _ => false

/-- Whether a move on a cache overwrites, takes out or releases what is under a key, or clears the
    cache. -/
def Move.disturbs (cache : Cache K V) (key : K) : Move K V → Bool
  | place _ k _ | takeOut _ k | releaseValue _ k => k == key
  | takeOutSlot _ k id => k == key && cache.table.isCurrent k id
  | unpinAll _ | dropEntries _ => true
  | _ => false

/-- Whether a step pins a slot of a cache. -/
def Step.pinsIn (c : CacheId) (s : Step K V) : Bool :=
  s.move.target = some c && (s.before.cache? c).any s.move.pinsOn

/-- Whether a step overwrites, takes out or releases what is under a key of a cache, or clears the
    cache. -/
def Step.disturbsIn (c : CacheId) (key : K) (s : Step K V) : Bool :=
  s.move.target = some c && (s.before.cache? c).any fun cache => s.move.disturbs cache key

/-- A look-up gives a value if it touches the slot that holds it. -/
theorem Move.look_snd_eq_some_iff {h : Host K V} {c : CacheId} {cache : Cache K V}
    (found : h.cache? c = some cache) (key : K) (value : V) :
    ((Move.look c key).make h).2 = some value ↔
      ∃ id, (Move.look c key).Touches c cache key id value := by
  rw [Cache.look_snd found, Cache.peek, Option.bind_eq_some_iff]
  constructor
  · rintro ⟨id, installed, holds⟩
    exact ⟨id, .hit installed holds⟩
  · rintro ⟨_, ⟨installed, holds⟩⟩
    exact ⟨_, installed, holds⟩

/-! ### Slots that are safe for a number of pins -/

/-- A live slot is installed under a key, and stays pinned while so many other slots are pinned. -/
structure Cache.Shields (cache : Cache K V) (key : K) (id : SlotId) (value : V) (left : Nat) :
    Prop where
  installed : cache.table.get? key = some id
  holds : cache.pool.value? id = some value
  queued : ∃ earlier later, cache.queue.ids = earlier ++ id :: later ∧
    later.length + left < cache.queue.capacity

namespace Cache.Shields

variable {cache : Cache K V} {key : K} {id : SlotId} {value : V} {left : Nat}

theorem peek (shields : cache.Shields key id value left) : cache.peek key = some value := by
  rw [Cache.peek, shields.installed, Option.bind_some, shields.holds]

theorem mem_queue (shields : cache.Shields key id value left) : id ∈ cache.queue.ids := by
  obtain ⟨earlier, later, places, _⟩ := shields.queued
  rw [places]
  exact List.mem_append_right _ List.mem_cons_self

theorem isDead (shields : cache.Shields key id value left) : cache.pool.isDead id = false := by
  have holds := shields.holds
  rw [SlotPool.value?, Option.bind_eq_some_iff] at holds
  obtain ⟨slot, found, value⟩ := holds
  have live : slot.live = true := by rw [← slot.value?_isSome, value, Option.isSome_some]
  rw [SlotPool.isDead, found, Option.any_some, live]
  rfl

theorem pins_ne_zero (shields : cache.Shields key id value left) (consistent : cache.Consistent) :
    cache.pool.pins id ≠ 0 := by
  intro none
  have places := consistent.pins.pins_eq id
  rw [none, UInt64.toNat_zero] at places
  exact List.count_eq_zero.mp places.symm shields.mem_queue

/-- Changes that leave the entry, the value and the queue alone. -/
theorem keep (shields : cache.Shields key id value left) {later : Cache K V}
    (installed : later.table.get? key = cache.table.get? key)
    (holds : later.pool.value? id = cache.pool.value? id) (queue : later.queue = cache.queue) :
    later.Shields key id value left :=
  ⟨installed.trans shields.installed, holds.trans shields.holds, queue ▸ shields.queued⟩

/-- Another pin pushes the slot one place forward at most. -/
theorem pin (shields : cache.Shields key id value (left + 1)) (consistent : cache.Consistent)
    (other : SlotId) : (cache.pin other).Shields key id value left := by
  obtain ⟨earlier, later, places, room⟩ := shields.queued
  have bounded := consistent.pins.bounded
  refine ⟨shields.installed, ?_, ?_⟩
  · exact ((PinQueue.sameValues_pin cache.queue cache.pool other).value? id).trans shields.holds
  · have long : cache.queue.length = earlier.length + (later.length + 1) := by
      rw [PinQueue.length, places, List.length_append, List.length_cons]
    have behind : cache.queue.length + 1 - cache.queue.capacity ≤ earlier.length := by omega
    refine ⟨earlier.drop (cache.queue.length + 1 - cache.queue.capacity), later ++ [other], ?_, ?_⟩
    · rw [Cache.pin, PinQueue.ids_pin _ _ (by omega) bounded, places,
        List.drop_append_of_le_length behind, List.append_assoc, List.cons_append]
    · rw [Cache.pin, PinQueue.capacity_pin, List.length_append, List.length_singleton]
      omega

/-- What waits to be swept out is dead. -/
theorem sweep (shields : cache.Shields key id value left) (consistent : cache.Consistent)
    {flight : List SlotId} (accounts : cache.Accounts flight) :
    cache.sweep.1.Shields key id value left := by
  have stays : id ∉ cache.pending := by
    intro waits
    have dead := accounts.dead id (List.mem_append_left _ waits)
    rw [shields.isDead] at dead
    cases dead
  refine shields.keep ?_ rfl rfl
  rw [consistent.get?_sweep, shields.installed, Option.filter_some]
  simp [stays]

/-- Values that are released are in other slots. -/
theorem release (shields : cache.Shields key id value left) {later : Cache K V}
    {victims : List (Victim K V)} (releases : cache.pool.Releases later.pool victims)
    (others : ∀ v ∈ victims, v.id ≠ id) (table : later.table = cache.table)
    (queue : later.queue = cache.queue) : later.Shields key id value left := by
  refine shields.keep (by rw [table]) ?_ queue
  have untouched : id ∉ victims.map Victim.id := by
    intro victim
    obtain ⟨v, member, same⟩ := List.mem_map.mp victim
    exact others v member same
  rw [SlotPool.value?, releases.get?, if_neg untouched, SlotPool.value?]

theorem releaseValues (shields : cache.Shields key id value left) (consistent : cache.Consistent)
    (budget : Nat) : (cache.releaseValues budget).1.Shields key id value left := by
  refine shields.release (cache.releases_releaseValues budget) ?_ rfl rfl
  rintro v member rfl
  exact shields.pins_ne_zero consistent (consistent.mem_releaseValues member).2.2

theorem releaseValueOf (shields : cache.Shields key id value left) (consistent : cache.Consistent)
    {other : K} (apart : other ≠ key) :
    (cache.releaseValueOf other).1.Shields key id value left := by
  refine shields.release (cache.releases_releaseValueOf other) ?_ ?_ ?_
  · rintro v member rfl
    exact apart (consistent.key_unique (mem_releaseValueOf member) shields.installed)
  · rw [Cache.releaseValueOf]
    split <;> rfl
  · rw [Cache.releaseValueOf]
    split <;> rfl

theorem takeOut (shields : cache.Shields key id value left) {other : K} (apart : other ≠ key) :
    (cache.takeOut other).1.Shields key id value left := by
  rw [Cache.takeOut]
  split
  · exact shields
  · refine shields.keep ?_ rfl rfl
    simp only [tally, ShardedMap.get?_erase, if_neg (Ne.symm apart)]

/-- Taking an entry out that does not lead from the key to its slot. -/
theorem takeOutSlot (shields : cache.Shields key id value left) {other : K} {slot : SlotId}
    (apart : ¬(other = key ∧ cache.table.get? key = some slot)) :
    (cache.takeOutSlot other slot).1.Shields key id value left := by
  refine shields.keep ?_ rfl rfl
  have stays : ¬(key = other ∧ cache.table.get? other = some slot) := by
    rintro ⟨rfl, current⟩
    exact apart ⟨rfl, current⟩
  simp only [Cache.takeOutSlot, ShardedMap.get?_eraseIfSame, if_neg stays]

/-- A look-up takes out no entry but that of a dead slot. -/
theorem touch (shields : cache.Shields key id value left) {k : K}
    (room : (cache.table.get? k).isSome = true →
      ∀ other, (cache.pin other).Shields key id value left) :
    (cache.touch k).1.Shields key id value left := by
  rw [Cache.touch]
  cases bound : cache.table.get? k with
  | none => exact shields.keep rfl rfl rfl
  | some other =>
    have pinned := room (by rw [bound, Option.isSome_some]) other
    dsimp only
    cases read : (cache.pin other).pool.value? other with
    | some _ => exact pinned.keep rfl rfl rfl
    | none =>
      have apart : ¬(k = key ∧ (cache.pin other).table.get? key = some other) := by
        rintro ⟨-, current⟩
        rw [pinned.installed] at current
        cases current
        rw [pinned.holds] at read
        cases read
      exact (pinned.takeOutSlot apart).keep rfl rfl rfl

/-- A new slot under another key. -/
theorem store (shields : cache.Shields key id value (left + 1)) (consistent : cache.Consistent)
    {other : K} (apart : other ≠ key) (new : V) :
    (cache.store other new).1.Shields key id value left := by
  have known : id ≠ cache.pool.nextId := Nat.ne_of_lt (consistent.lt_nextId shields.installed)
  have made : Shields { cache with pool := cache.pool.add (.fresh other new) } key id value
      (left + 1) := by
    refine shields.keep rfl ?_ rfl
    show (cache.pool.add (.fresh other new)).value? id = cache.pool.value? id
    rw [SlotPool.value?, SlotPool.get?_add, if_neg known, SlotPool.value?]
  have parts : Consistent { cache with pool := cache.pool.add (.fresh other new) } :=
    ⟨consistent.pins.add other new, consistent.table,
      consistent.keyed.grow (cache.pool.grows_add _) fun _ _ found => found⟩
  refine (made.pin parts cache.pool.nextId).keep ?_ rfl rfl
  simp only [Cache.store, tally, ShardedMap.get?_insert, if_neg (Ne.symm apart)]

/-- One move takes away one of the pins that are left, if it pins, and nothing else. -/
theorem effect {m : Move K V} (shields : cache.Shields key id value
      (left + if m.pinsOn cache then 1 else 0)) (consistent : cache.Consistent)
    {flight : List SlotId} (accounts : cache.Accounts flight) (board : PressureBoard)
    (calm : m.disturbs cache key = false) : (m.effect board cache).Shields key id value left := by
  cases m with
  | sweep c => exact shields.sweep consistent accounts
  | releaseValues c budget => exact shields.releaseValues consistent budget
  | releaseValue c k => exact shields.releaseValueOf consistent (by simpa [Move.disturbs] using calm)
  | takeOut c k => exact shields.takeOut (by simpa [Move.disturbs] using calm)
  | takeOutSlot c k slot =>
    apply shields.takeOutSlot
    rintro ⟨rfl, current⟩
    have taken := (ShardedMap.isCurrent_iff _ _ _).mpr current
    simp [Move.disturbs, taken] at calm
  | look c k =>
    by_cases pins : (cache.table.get? k).isSome = true
    · simp only [Move.pinsOn, pins, if_true] at shields
      have spared : cache.Shields key id value left := by
        obtain ⟨earlier, later, places, room⟩ := shields.queued
        exact ⟨shields.installed, shields.holds, earlier, later, places, by omega⟩
      exact spared.touch fun _ other => shields.pin consistent other
    · simp only [Move.pinsOn, pins] at shields
      exact shields.touch fun found => absurd found pins
  | place c k new => exact shields.store consistent (by simpa [Move.disturbs] using calm) new
  | unpinAll c => cases calm
  | dropEntries c => cases calm
  | _ => exact shields.keep rfl rfl rfl

end Cache.Shields

/-- A slot that was just touched is safe for all pins that the queue has room for. -/
theorem Move.Touches.shields {c : CacheId} {cache : Cache K V} {key : K} {m : Move K V}
    {id : SlotId} {value : V} (touches : Touches c cache key m id value)
    (consistent : cache.Consistent) {left : Nat} (room : left < cache.queue.capacity)
    (board : PressureBoard) : (m.effect board cache).Shields key id value left := by
  have bounded := consistent.pins.bounded
  have positive : 0 < cache.queue.capacity := by omega
  cases touches with
  | hit installed holds =>
    have value := (PinQueue.sameValues_pin cache.queue cache.pool id).value? id
    rw [effect, Cache.touch, installed]
    simp only [Cache.pin, value, holds]
    refine ⟨installed, value.trans holds, cache.queue.ids.drop _, [],
      PinQueue.ids_pin _ _ positive bounded, ?_⟩
    simp only [Cache.tally, PinQueue.capacity_pin, List.length_nil]
    omega
  | stored value =>
    refine ⟨?_, ?_, cache.queue.ids.drop _, [], PinQueue.ids_pin _ _ positive bounded, ?_⟩
    · rw [effect, Cache.get?_store, if_pos rfl]
    · rw [effect, Cache.value?_store, if_pos rfl]
    · simp only [effect, Cache.store, Cache.tally, Cache.pin, PinQueue.capacity_pin,
        List.length_nil]
      omega

/-! ### Steps in a row -/

namespace Host

/-- A cache of the host shields a slot. -/
def Shields (h : Host K V) (c : CacheId) (key : K) (id : SlotId) (value : V) (left : Nat) : Prop :=
  ∃ cache, h.cache? c = some cache ∧ cache.Shields key id value left

/-- A slot is installed under a key of a cache, and its value is found there. -/
def Finds (h : Host K V) (c : CacheId) (key : K) (id : SlotId) (value : V) : Prop :=
  ∃ cache, h.cache? c = some cache ∧ cache.table.get? key = some id ∧
    cache.pool.value? id = some value ∧ cache.peek key = some value

variable {c : CacheId} {key : K} {id : SlotId} {value : V} {left : Nat}

theorem Shields.finds {h : Host K V} (shields : h.Shields c key id value left) :
    h.Finds c key id value := by
  obtain ⟨cache, found, shields⟩ := shields
  exact ⟨cache, found, shields.installed, shields.holds, shields.peek⟩

/-- One step takes away one of the pins that are left, if it pins a slot of the cache. -/
theorem Shields.step {s : Step K V}
    (shields : s.before.Shields c key id value (left + if s.pinsIn c then 1 else 0))
    (consistent : s.before.Consistent) {flight : Flight} (accounts : s.before.Accounts flight)
    (calm : s.disturbsIn c key = false) : s.after.Shields c key id value left := by
  obtain ⟨cache, found, shields⟩ := shields
  refine ⟨_, Move.cache?_make_of_some found s.move, ?_⟩
  by_cases here : s.move.target = some c
  · simp only [Step.pinsIn, Step.disturbsIn, here, found, decide_true, Bool.true_and,
      Option.any_some] at shields calm
    rw [Move.effectOn, if_pos here]
    exact shields.effect (consistent c cache found) (accounts.present c cache found) _ calm
  · simp only [Step.pinsIn, here, decide_false, Bool.false_and, Bool.false_eq_true, if_false]
      at shields
    rw [Move.effectOn, if_neg here]
    exact shields

/-- As long as there are no more pins than the slot is safe for, and its key is not disturbed, the
    slot stays. -/
theorem Shields.steps {steps : List (Step K V)}
    (chained : steps.IsChain fun s t => t.before = s.after)
    (sound : ∀ s ∈ steps, s.before.Consistent ∧ ∃ flight, s.before.Accounts flight)
    (start : ∀ s ∈ steps.head?, s.before.Shields c key id value left)
    (few : steps.countP (Step.pinsIn c) ≤ left)
    (calm : ∀ s ∈ steps, s.disturbsIn c key = false) :
    ∀ s ∈ steps, s.before.Finds c key id value ∧ s.after.Finds c key id value := by
  induction steps generalizing left with
  | nil => simp
  | cons first rest ih =>
    obtain ⟨follows, chained⟩ := List.isChain_cons.mp chained
    obtain ⟨⟨consistent, flight, accounts⟩, sound⟩ := List.forall_mem_cons.mp sound
    obtain ⟨calmFirst, calm⟩ := List.forall_mem_cons.mp calm
    rw [List.countP_cons] at few
    obtain ⟨spare, rfl⟩ : ∃ spare, left = spare + if first.pinsIn c then 1 else 0 :=
      Nat.exists_eq_add_of_le' (Nat.le_trans (Nat.le_add_left _ _) few)
    have before := start first rfl
    have after := before.step consistent accounts calmFirst
    rw [List.forall_mem_cons]
    refine ⟨⟨before.finds, after.finds⟩, ih chained sound ?_ (Nat.le_of_add_le_add_right few) calm⟩
    intro next head
    rw [follows next head]
    exact after

theorem Shields.noteServed {h : Host K V} (shields : h.Shields c key id value left) (d : CacheId)
    (request : Request K V) (reply : Reply V) :
    ((Move.noteServed d request reply).make h).1.Shields c key id value left := by
  obtain ⟨cache, found, shields⟩ := shields
  refine ⟨cache, ?_, shields⟩
  rw [Move.cache?_make_of_none rfl (fun _ same => by cases same), found]

/-- The same for all work that is done on a host. -/
theorem Shields.work {α : Type} {w : Work K V α} {h : Host K V}
    (start : h.Shields c key id value left) (consistent : h.Consistent)
    (accounts : h.Accounts fun _ => []) (settles : w.Settles)
    (few : (w.steps h).countP (Step.pinsIn c) ≤ left)
    (calm : ∀ s ∈ w.steps h, s.disturbsIn c key = false) :
    (∀ s ∈ w.steps h, s.before.Finds c key id value) ∧ (w.run h).1.Finds c key id value := by
  have sound : ∀ s ∈ w.steps h, s.before.Consistent ∧ ∃ flight, s.before.Accounts flight :=
    fun s member => ⟨(consistent.work w).1 s member,
      (settles _ h consistent accounts).2 s member⟩
  have steps := Shields.steps (w.chained_steps h) sound
    (fun s first => w.before_of_head first ▸ start) few calm
  refine ⟨fun s member => (steps s member).1, ?_⟩
  exact w.invariant_of_steps (P := fun h => h.Finds c key id value)
    (fun s member _ => (steps s member).2) start.finds

/-- A cache that the host has, and how many pins it may have. -/
def HasRoom (h : Host K V) (c : CacheId) (capacity : Nat) : Prop :=
  ∃ cache, h.cache? c = some cache ∧ cache.queue.capacity = capacity

end Host

omit [DecidableEq K] in
/-- A cache that can be built may have pins. -/
theorem Config.pinCapacity_pos {config : Config K V} (checked : config.check = .ok ()) :
    0 < config.pinCapacity := by
  rw [check] at checked
  split at checked
  · cases checked
  · omega

theorem Cache.capacity_effect (cache : Cache K V) (m : Move K V) (board : PressureBoard) :
    (m.effect board cache).queue.capacity = cache.queue.capacity := by
  cases m with
  | look c key =>
    rw [Move.effect, touch]
    split
    · rfl
    · dsimp only
      split <;> exact PinQueue.capacity_pin _ _ _
  | place c key value => exact PinQueue.capacity_pin _ _ _
  | releaseValue c key =>
    rw [Move.effect, releaseValueOf]
    split <;> rfl
  | takeOut c key =>
    rw [Move.effect, takeOut]
    split <;> rfl
  | _ => rfl

namespace Host

variable {h : Host K V} {c : CacheId} {capacity : Nat}

theorem HasRoom.make (room : h.HasRoom c capacity) (m : Move K V) :
    (m.make h).1.HasRoom c capacity := by
  obtain ⟨cache, found, rfl⟩ := room
  refine ⟨_, Move.cache?_make_of_some found m, ?_⟩
  rw [Move.effectOn]
  split
  · exact cache.capacity_effect m h.board
  · rfl

theorem HasRoom.run {α : Type} (room : h.HasRoom c capacity) (w : Work K V α) :
    (w.run h).1.HasRoom c capacity :=
  (w.invariant (P := fun h => h.HasRoom c capacity) (fun m _ holds => holds.make m) room).2

/-- Every cache may have a pin. -/
def Roomy (h : Host K V) : Prop := ∀ c capacity, h.HasRoom c capacity → 0 < capacity

theorem Roomy.make (roomy : h.Roomy) (m : Move K V) : (m.make h).1.Roomy := by
  rintro d _ ⟨cache, found, rfl⟩
  rcases Move.exists_of_cache?_make m found with ⟨old, there, rfl⟩ | ⟨_, config, _, checked, made⟩
  · rw [Move.effectOn]
    split
    · rw [old.capacity_effect m h.board]
      exact roomy d _ ⟨old, there, rfl⟩
    · exact roomy d _ ⟨old, there, rfl⟩
  · rw [PinQueue.capacity_create (Cache.new_assemble made).queue]
    exact Config.pinCapacity_pos checked

/-! ### Commands -/

/-- Right after a value was touched its slot is safe for all but one of the pins that the queue has
    room for. -/
theorem shields_of_touches {key : K} {value : V} {cache : Cache K V} {m : Move K V} {id : SlotId}
    (room : 0 < capacity)
    (fits : h.HasRoom c capacity) (consistent : h.Consistent) (found : h.cache? c = some cache)
    (touches : m.Touches c cache key id value) :
    (m.make h).1.Shields c key id value (capacity - 1) := by
  obtain ⟨same, there, rfl⟩ := fits
  rw [found] at there
  cases there
  have target : m.target = some c := by cases touches <;> rfl
  exact ⟨_, Move.cache?_make_of_target found target,
    touches.shields (consistent c cache found) (by omega) h.board⟩

theorem shields_place (room : 0 < capacity) (fits : h.HasRoom c capacity)
    (consistent : h.Consistent) (key : K) (value : V) :
    ∃ id, ((Move.place c key value).make h).1.Shields c key id value (capacity - 1) := by
  have ⟨cache, found, _⟩ := fits
  exact ⟨_, shields_of_touches room fits consistent found (.stored value)⟩

theorem shields_look (room : 0 < capacity) (fits : h.HasRoom c capacity)
    (consistent : h.Consistent) {key : K} {value : V}
    (hit : ((Move.look c key).make h).2 = some value) :
    ∃ id, ((Move.look c key).make h).1.Shields c key id value (capacity - 1) := by
  have ⟨cache, found, _⟩ := fits
  obtain ⟨id, reads⟩ := (Move.look_snd_eq_some_iff found key value).mp hit
  exact ⟨id, shields_of_touches room fits consistent found reads⟩

section

variable (room : 0 < capacity) (fits : h.HasRoom c capacity) (consistent : h.Consistent)
  (run : CallbackRunner K V)

include room fits consistent

theorem shields_insert (key : K) (value : V) :
    ∃ id, ((Work.insert run c key value).run h).1.Shields c key id value (capacity - 1) := by
  rw [Work.run_insert]
  exact shields_place room (fits.run _) (consistent.work _).2 key value

theorem shields_get {key : K} {value : V}
    (hit : ((Work.get run c key).run h).2 = some value) :
    ∃ id, ((Work.get run c key).run h).1.Shields c key id value (capacity - 1) := by
  rw [Work.run_get] at hit ⊢
  exact shields_look room (fits.run _) (consistent.work _).2 hit

end

end Host

/-- A command together with its answer returned the value under a key, or stored it there. -/
inductive Command.Touches (key : K) (value : V) : Command K V → Answer K V → Prop where
  | get : Touches key value (.request (.get key)) (.reply (.value (some value)))
  | insert (answer : Answer K V) : Touches key value (.request (.insert key value)) answer
  | insertShared (answer : Answer K V) : Touches key value (.insertShared key value) answer
  | insertOptional (answer : Answer K V) :
      Touches key value (.insertOptional key (some value)) answer
  | getOrCompute (compute : Routine K V (Except Panic V)) (computed : Bool) :
      Touches key value (.getOrCompute key compute) (.obtained value computed)

theorem Host.shields_getOrCompute {h : Host K V} {c : CacheId} {capacity : Nat} {key : K}
    {value : V} (room : 0 < capacity) (fits : h.HasRoom c capacity) (consistent : h.Consistent)
    {limit : Nat} {compute : Routine K V (Except Panic V)} {computed : Bool}
    (got : ((Work.getOrCompute limit c key compute).run h).2 = .ok (value, computed)) :
    ∃ id, ((Work.getOrCompute limit c key compute).run h).1.Shields c key id value
      (capacity - 1) := by
  have hit : ((Work.get (runCallbacks limit) c key).run h).2 = some value → _ :=
    shields_get room fits consistent (runCallbacks limit)
  have kept := (consistent.work (Work.get (Host.runCallbacks limit) c key)).2
  have room' := fits.run (Work.get (Host.runCallbacks limit) c key)
  rw [Work.getOrCompute, Work.run_bind] at got ⊢
  generalize (Work.get (Host.runCallbacks limit) c key).run h = looked at *
  rcases looked with ⟨looked, _ | there⟩
  · dsimp only at *
    rw [Work.run_bind] at got ⊢
    have more := (kept.work (Work.follow limit compute)).2
    have room'' := room'.run (Work.follow limit compute)
    generalize (Work.follow limit compute).run looked = followed at *
    rcases followed with ⟨followed, p | new⟩
    · cases got
    · dsimp only at *
      rw [Work.run_bind, Work.run_pure] at got ⊢
      cases got
      exact shields_insert room room'' more _ key value
  · cases got
    exact hit rfl

theorem Host.shields_command [BEq V] {h : Host K V} {c : CacheId} {capacity : Nat} {key : K}
    {value : V} (room : 0 < capacity) (fits : h.HasRoom c capacity) (consistent : h.Consistent)
    (limit : Nat) (cursors : Cursors K) {command : Command K V}
    (touches : command.Touches key value ((command.work limit cursors c).run h).2.2) :
    ∃ id, ((command.work limit cursors c).run h).1.Shields c key id value (capacity - 1) := by
  have ⟨cache, found, _⟩ := fits
  rw [Work.run_command found] at touches ⊢
  generalize same : ((command.workOn limit cursors c cache).run h).2.2 = answer at touches
  cases touches with
  | get =>
    rw [Command.workOn, Work.run_bind, Work.run_pure, serve, Work.run_perform _ found,
      Work.performOn, Work.run_map] at same ⊢
    have hit : ((Work.get (runCallbacks limit) c key).run h).2 = some value := by
      simpa using same
    obtain ⟨id, shields⟩ := shields_get room fits consistent (runCallbacks limit) hit
    dsimp only
    exact ⟨id, shields.noteServed _ _ _⟩
  | insert answer =>
    rw [Command.workOn, Work.run_bind, Work.run_pure, serve, Work.run_perform _ found,
      Work.performOn, Work.run_map]
    dsimp only
    obtain ⟨id, shields⟩ := shields_insert room fits consistent (runCallbacks limit) key value
    exact ⟨id, shields.noteServed _ _ _⟩
  | insertShared answer =>
    rw [Command.workOn, Work.run_bind, Work.run_pure, Work.run_insertShared]
    dsimp only
    exact shields_place room (fits.run _) (consistent.work _).2 key value
  | insertOptional answer =>
    rw [Command.workOn, Work.run_bind, Work.insertOptional, Work.run_map]
    dsimp only
    rw [Work.run_pure]
    exact shields_insert room fits consistent _ key value
  | getOrCompute compute computed =>
    rw [Command.workOn, Work.run_bind, Work.run_pure] at same ⊢
    -- The answer is given back as it is, so that a touch is told from it.
    have got : ((Work.getOrCompute limit c key compute).run h).2 = .ok (value, computed) := by
      cases given : ((Work.getOrCompute limit c key compute).run h).2 with
      | error p => simp [given, Answer.ofExcept] at same
      | ok pair => simpa [given, Answer.ofExcept, Prod.ext_iff] using same
    exact shields_getOrCompute room fits consistent got

/-! ### Runs -/

namespace Session

variable [BEq V]

theorem roomy_run (limit : Nat) (board : PressureBoard) (acts : List (Act K V)) :
    ((empty board : Session K V).run limit acts).1.host.Roomy := by
  have start : (Host.empty board : Host K V).Roomy := by
    rintro c _ ⟨cache, found, _⟩
    simp [Host.empty, Host.cache?] at found
  exact ((Act.workAll limit ([] : Cursors K) acts).invariant (P := Host.Roomy)
    (fun m _ roomy => roomy.make m) start).2

/-- The moves of a run are made on sound hosts, each on what the one before it left behind. -/
theorem chained_history (limit : Nat) (board : PressureBoard) (acts : List (Act K V)) :
    ((empty board : Session K V).history limit acts).IsChain fun s t => t.before = s.after :=
  Work.chained_steps _ _

/-- What a step of a run touches stays while other slots are pinned, fewer than the queue may hold,
    and its key is not disturbed. -/
theorem finds_touched {limit : Nat} {board : PressureBoard} {acts : List (Act K V)}
    {before between later : List (Step K V)} {s : Step K V} {c : CacheId} {cache : Cache K V}
    {key : K} {id : SlotId} {value : V}
    (split : (empty board).history limit acts = before ++ s :: (between ++ later))
    (found : s.before.cache? c = some cache) (touches : s.move.Touches c cache key id value)
    (few : between.countP (Step.pinsIn c) < cache.queue.capacity)
    (calm : ∀ t ∈ between, t.disturbsIn c key = false) :
    ∀ t ∈ s :: between, t.after.Finds c key id value := by
  have chained := chained_history limit board acts
  have sound : ∀ t ∈ (empty board).history limit acts,
      t.before.Consistent ∧ ∃ flight, t.before.Accounts flight := fun t member =>
    ⟨consistent_before limit board acts t member, (accounts_run limit board acts).2 t member⟩
  rw [split] at chained sound
  have shields := Host.shields_of_touches (by omega) ⟨cache, found, rfl⟩
    (sound s (by simp)).1 found touches
  rw [List.forall_mem_cons]
  refine ⟨shields.finds, fun t member => ?_⟩
  have follows := List.isChain_cons.mp chained.right_of_append
  refine (Host.Shields.steps follows.2.left_of_append (fun t member => sound t (by simp [member]))
    ?_ (Nat.le_sub_one_of_lt few) calm t member).2
  intro next first
  rw [follows.1 next (List.mem_head?_append_of_mem_head? first)]
  exact shields

/-- Raises some signals, each through a cache. -/
def raising (limit : Nat) (s : Session K V) (raises : List (CacheId × SignalId)) : Session K V :=
  raises.foldl (fun s r => (s.step limit r.1 (.request (.raise r.2))).1) s

/-- Raising signals keeps a host ready, and leaves every cache alone. -/
theorem ready_raising {s : Session K V} {c : CacheId} {cache : Cache K V}
    (ready : s.host.Ready c cache) (limit : Nat) (raises : List (CacheId × SignalId)) :
    (s.raising limit raises).host.Ready c cache := by
  induction raises generalizing s with
  | nil => exact ready
  | cons r rest ih =>
    apply ih
    have alone : (s.step limit r.1 (.request (.raise r.2))).1.host.cache? c = some cache := by
      rw [← ready.found]
      cases found : s.host.cache? r.1 with
      | none => rw [step, carryOut, Work.run_command_of_none found]
      | some other =>
        simp only [step, carryOut, Work.run_command found, Command.workOn, Work.run_bind,
          Work.run_pure]
        exact Host.cache?_perform_raise _ _ _ _ _
    exact ready.work (Work.inherited_settles.act limit s.cursors
      (.on r.1 (.request (.raise r.2)))) alone

/-- A session that a run leads to. -/
def Reachable (limit : Nat) (board : PressureBoard) (s : Session K V) : Prop :=
  ∃ acts, s = ((empty board).run limit acts).1

/-- Whatever is done next, the value is found in its slot as long as fewer slots are pinned than a
    queue may hold, and its key is not disturbed. -/
def Protects (limit : Nat) (s : Session K V) (c : CacheId) (key : K) (id : SlotId) (value : V)
    (capacity : Nat) : Prop :=
  ∀ more, (s.history limit more).countP (Step.pinsIn c) < capacity →
    (∀ t ∈ s.history limit more, t.disturbsIn c key = false) →
    ∀ h ∈ s.states limit more, h.Finds c key id value

theorem protects_of_command {limit : Nat} {board : PressureBoard} {s : Session K V}
    (reachable : s.Reachable limit board) {c : CacheId} {cache : Cache K V}
    (found : s.host.cache? c = some cache) {key : K} {value : V} {command : Command K V}
    (touches : command.Touches key value (s.step limit c command).2) :
    ∃ id, (s.step limit c command).1.Protects limit c key id value cache.queue.capacity := by
  obtain ⟨acts, rfl⟩ := reachable
  have room : 0 < cache.queue.capacity := roomy_run limit board acts c _ ⟨cache, found, rfl⟩
  have consistent := consistent_run limit board acts
  obtain ⟨id, shields⟩ := Host.shields_command room ⟨cache, found, rfl⟩ consistent limit _ touches
  have settled := Work.inherited_settles.act limit ((empty board).run limit acts).1.cursors
    (.on c command) _ _ consistent (accounts_run limit board acts).1
  refine ⟨id, fun more few calm h seen => ?_⟩
  obtain ⟨meanwhile, last⟩ := shields.work (consistent.work _).2 settled.1
    (Work.inherited_settles.workAll limit _ more) (Nat.le_sub_one_of_lt few) calm
  rcases List.mem_append.mp seen with seen | seen
  · obtain ⟨t, member, rfl⟩ := List.mem_map.mp seen
    exact meanwhile t member
  · rw [List.mem_singleton] at seen
    exact seen ▸ last

/-- A value that was just stored is found by a look-up, whatever the policy asks for and however
    often signals were raised in between, if the cleaner is quiet. -/
theorem get_after_insert {limit : Nat} {board : PressureBoard} {s : Session K V}
    (reachable : s.Reachable limit board) {c : CacheId} {cache : Cache K V}
    (found : s.host.cache? c = some cache) (quiet : cache.Quiet) (key : K) (value : V)
    (raises : List (CacheId × SignalId)) :
    (((s.step limit c (.request (.insert key value))).1.raising limit raises).step limit c
      (.request (.get key))).2 = .reply (.value (some value)) := by
  obtain ⟨acts, rfl⟩ := reachable
  have room : 0 < cache.queue.capacity := roomy_run limit board acts c _ ⟨cache, found, rfl⟩
  have ready : ((empty board).run limit acts).1.host.Ready c cache :=
    ⟨found, consistent_run limit board acts, (accounts_run limit board acts).1, quiet⟩
  obtain ⟨id, stored, there, shields⟩ := Host.shields_command room ⟨cache, found, rfl⟩
    ready.consistent limit ((empty board).run limit acts).1.cursors
    (.insert _ : Command.Touches key value (.request (.insert key value)) _)
  have after : ((((empty board).run limit acts).1.step limit c
      (.request (.insert key value))).1).host.Ready c stored :=
    ready.work (Work.inherited_settles.act limit _ (.on c (.request (.insert key value)))) there
  have raised := ready_raising after limit raises
  obtain ⟨later, lost, _, may, _, answer⟩ := raised.get limit key
  have kept : key ∉ lost := by
    intro member
    obtain ⟨_, other, installed, none⟩ := may key member
    rw [shields.installed] at installed
    cases installed
    exact shields.pins_ne_zero raised.here none
  rw [answer_step_request raised.found, Work.performOn, Work.run_map, answer, PlainMap.without,
    if_neg kept, shields.peek]

/-- Values that were touched recently are protected: those that any move of a run touched, on
    whatever level of nesting, as well as those that a command touched. A look-up right after an
    insertion finds what was stored. -/
theorem touched_values_protected (limit : Nat) (board : PressureBoard) :
    (∀ (acts : List (Act K V)) (before between later : List (Step K V)) (s : Step K V)
        (c : CacheId) (cache : Cache K V) (key : K) (id : SlotId) (value : V),
      (empty board).history limit acts = before ++ s :: (between ++ later) →
      s.before.cache? c = some cache → s.move.Touches c cache key id value →
      between.countP (Step.pinsIn c) < cache.queue.capacity →
      (∀ t ∈ between, t.disturbsIn c key = false) →
      ∀ t ∈ s :: between, t.after.Finds c key id value) ∧
    ∀ s : Session K V, s.Reachable limit board →
      ∀ (c : CacheId) (cache : Cache K V), s.host.cache? c = some cache →
        (∀ (key : K) (value : V) (command : Command K V),
          command.Touches key value (s.step limit c command).2 →
          ∃ id, (s.step limit c command).1.Protects limit c key id value cache.queue.capacity) ∧
        (cache.Quiet → ∀ (key : K) (value : V) (raises : List (CacheId × SignalId)),
          (((s.step limit c (.request (.insert key value))).1.raising limit raises).step limit c
            (.request (.get key))).2 = .reply (.value (some value))) := by
  refine ⟨?_, fun s reachable c cache found => ⟨?_, ?_⟩⟩
  · intro acts before between later s c cache key id value split found touches few calm
    exact finds_touched split found touches few calm
  · intro key value command touches
    exact protects_of_command reachable found touches
  · intro quiet key value raises
    exact get_after_insert reachable found quiet key value raises

end Session

end

/-- A cache of two pins. Its cleaner stores another value, releases what it can, and fails. -/
def Config.guarded : Config UInt64 Nat where
  pinCapacity := 2
  shards := some 2
  hasher := .standard
  cleaner := some {
    callbacks := fun call =>
      .inTurn 0 [.insert (call.key + 6) (call.value + 1), .releaseUnpinned] ()
    verdict := fun _ => .failed (.cleanup "refused") }
  policy := .manual
  signal := none

/-- Three values are stored in such a cache. -/
def guardedActs : List (Act UInt64 Nat) :=
  [.build .guarded, .on 0 (.request (.insert 1 10)), .on 0 (.request (.insert 2 20)),
    .on 0 (.request (.insert 3 30))]

/-- What the cleaner of the first value stores is found until the end, although a pass that releases
    the third value comes in between; so is the second value, which is looked up before. With a quiet
    cleaner a signal may be raised between storing and looking up. -/
theorem touched_values_protected_guarded :
    (∃ before s between, (Session.empty .empty).history 1
        (guardedActs ++ [.on 0 (.request .releaseUnpinned)]) = before ++ s :: between ∧
      s.before.active = 1 ∧ s.move = .place 0 7 11 ∧ between.length = 15 ∧
      ∀ t ∈ s :: between, t.after.Finds 0 7 3 11) ∧
    (∃ id, ∀ h ∈ (((Session.empty .empty).run 1 guardedActs).1.step 1 0
        (.request (.get 2))).1.states 1 [.on 0 (.request .releaseUnpinned)],
      h.Finds 0 2 id 20) ∧
    ((((((Session.empty .empty).run 1 [.build .forgetful, .on 0 (.request (.insert 2 20))]).1.step
      1 0 (.request (.insert 1 10))).1.raising 1 [(0, 0)]).step 1 0 (.request (.get 1))).2 =
        .reply (.value (some 10))) := by
  refine ⟨?_, ?_, ?_⟩
  · have there : ∃ s, ((Session.empty .empty).history 1
        (guardedActs ++ [.on 0 (.request .releaseUnpinned)]))[27]? = some s ∧
          s.move = .place 0 7 11 := ⟨_, rfl, rfl⟩
    obtain ⟨s, at27, placed⟩ := there
    have facts : (((Session.empty .empty).history 1
        (guardedActs ++ [.on 0 (.request .releaseUnpinned)]))[27]?.bind fun s =>
          (s.before.cache? 0).map fun cache =>
            (s.before.active, cache.pool.nextId, cache.queue.capacity)) = some (1, 3, 2) := by
      decide +kernel
    rw [at27, Option.bind_some] at facts
    obtain ⟨cache, found, shown⟩ := Option.map_eq_some_iff.mp facts
    obtain ⟨active, next, capacity⟩ : _ ∧ _ ∧ _ := by simpa using shown
    obtain ⟨inside, rfl⟩ := List.getElem?_eq_some_iff.mp at27
    have split := (List.take_append_drop 27 ((Session.empty .empty).history 1
      (guardedActs ++ [.on 0 (.request .releaseUnpinned)]))).symm
    rw [List.drop_eq_getElem_cons inside] at split
    refine ⟨_, _, _, split, active, placed, by decide +kernel, ?_⟩
    rw [← List.append_nil (List.drop _ _)] at split
    refine (Session.touched_values_protected 1 .empty).1 _ _ _ _ _ 0 cache 7 3 11 split found ?_ ?_ ?_
    · rw [placed, ← next]
      exact .stored 11
    · rw [capacity]
      decide +kernel
    · decide +kernel
  · have there : (((Session.empty .empty).run 1 guardedActs).1.host.cache? 0).map
        (fun cache => cache.queue.capacity) = some 2 := by decide +kernel
    obtain ⟨cache, found, capacity⟩ := Option.map_eq_some_iff.mp there
    have answer : (((Session.empty .empty).run 1 guardedActs).1.step 1 0 (.request (.get 2))).2 =
        .reply (.value (some 20)) := by rfl
    obtain ⟨id, protects⟩ := ((Session.touched_values_protected 1 .empty).2 _ ⟨guardedActs, rfl⟩ 0
      cache found).1 2 20 (.request (.get 2)) (answer ▸ .get)
    refine ⟨id, protects _ ?_ ?_⟩
    · rw [capacity]
      decide +kernel
    · decide +kernel
  · have there : (((Session.empty .empty).run 1 [.build .forgetful,
        .on 0 (.request (.insert 2 20))]).1.host.cache? 0).map Cache.cleaner =
          some Config.forgetful.cleaner := rfl
    obtain ⟨cache, found, cleaner⟩ := Option.map_eq_some_iff.mp there
    have quiet : cache.Quiet := by
      rw [Cache.Quiet, cleaner]
      rintro _ same call
      cases same
      exact ⟨rfl, fun _ => trivial⟩
    exact ((Session.touched_values_protected 1 .empty).2 _ ⟨_, rfl⟩ 0 cache found).2 quiet 1 10 _

end ReclaimableCache
