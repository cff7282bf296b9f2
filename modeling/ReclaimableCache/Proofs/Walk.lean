import ReclaimableCache.Proofs.Quiescence

/-!
# Walks over a cache that changes

A cursor goes on in turns: at each turn it looks at one entry that it copied earlier, or copies one
more shard. What is shown here holds for any sequence of states of a cache in which the shard of a
key stays the same, whatever else is done to the cache from one call to the next: as a key has one
shard, each shard is copied once, and an entry is yielded only if the table still leads to its slot,
no key is yielded twice, and an entry that stays is not missed.
-/

namespace ReclaimableCache

variable {K V : Type} [DecidableEq K]

namespace Cursor

/-! ### Turns -/

/-- One turn of a cursor: it looks at the next entry of the copied shard, or copies the next shard,
    if there is one. Without a result the cursor takes another turn. -/
def turn (c : Cache K V) (cursor : Cursor K) : Cursor K × Option (Option (K × V)) :=
  match cursor.upcoming with
  | e :: rest =>
      match current? c e with
      | some item => ({ cursor with upcoming := rest, last := some e }, some (some item))
      | none => ({ cursor with upcoming := rest }, none)
  | [] =>
      match c.table.shardEntries? cursor.nextShard with
      | some entries =>
          ({ cursor with nextShard := cursor.nextShard + 1, upcoming := entries }, none)
      | none => (cursor, some none)

/-- Takes turns until there is a result, no more than a number of them. -/
def turns (c : Cache K V) : Nat → Cursor K → Option (Cursor K × Option (K × V))
  | 0, _ => none
  | limit + 1, cursor =>
      match turn c cursor with
      | (later, some item) => some (later, item)
      | (later, none) => turns c limit later

/-- What a turn can be. -/
inductive Turns (c : Cache K V) : Cursor K → Cursor K × Option (Option (K × V)) → Prop where
  | yield (nextShard : Nat) (e : K × SlotId) (rest : List (K × SlotId))
      (last : Option (K × SlotId)) {item : K × V} (current : current? c e = some item) :
      Turns c ⟨nextShard, e :: rest, last⟩ (⟨nextShard, rest, some e⟩, some (some item))
  | skip (nextShard : Nat) (e : K × SlotId) (rest : List (K × SlotId))
      (last : Option (K × SlotId)) (stale : current? c e = none) :
      Turns c ⟨nextShard, e :: rest, last⟩ (⟨nextShard, rest, last⟩, none)
  | copy {nextShard : Nat} (last : Option (K × SlotId)) (left : nextShard < c.table.shardCount) :
      Turns c ⟨nextShard, [], last⟩
        (⟨nextShard + 1, c.table.shardEntries nextShard, last⟩, none)
  | stop {nextShard : Nat} (last : Option (K × SlotId)) (done : c.table.shardCount ≤ nextShard) :
      Turns c ⟨nextShard, [], last⟩ (⟨nextShard, [], last⟩, some none)

omit [DecidableEq K] in
theorem shardEntries?_of_lt {m : ShardedMap K} {index : Nat} (inside : index < m.shardCount) :
    m.shardEntries? index = some (m.shardEntries index) := by
  have there : m.shards[index]? = some m.shards[index] := Array.getElem?_eq_getElem inside
  simp [ShardedMap.shardEntries, ShardedMap.shardEntries?, there]

omit [DecidableEq K] in
theorem shardEntries?_of_le {m : ShardedMap K} {index : Nat} (past : m.shardCount ≤ index) :
    m.shardEntries? index = none := by
  have none : m.shards[index]? = none := Array.getElem?_eq_none past
  rw [ShardedMap.shardEntries?, none, Option.map_none]

theorem turns_turn (c : Cache K V) (cursor : Cursor K) : Turns c cursor (turn c cursor) := by
  rcases cursor with ⟨nextShard, _ | ⟨e, rest⟩, last⟩
  · rcases Nat.lt_or_ge nextShard c.table.shardCount with left | done
    · simp only [turn, shardEntries?_of_lt left]
      exact .copy last left
    · simp only [turn, shardEntries?_of_le done]
      exact .stop last done
  · cases current : current? c e with
    | some item =>
      simp only [turn, current]
      exact .yield nextShard e rest last current
    | none =>
      simp only [turn, current]
      exact .skip nextShard e rest last current

/-- A call of `next` is a turn and, if that has no result, another call. -/
theorem next_of_turns {c : Cache K V} {cursor later : Cursor K} {result : Option (Option (K × V))}
    (turn : Turns c cursor (later, result)) :
    next c cursor = result.elim (next c later) fun item => (later, item) := by
  cases turn with
  | yield nextShard e rest last current =>
    rw [next, advance.eq_def]
    simp only [firstCurrent, current]
    rfl
  | skip nextShard e rest last stale =>
    simp only [next, Option.elim]
    rw [advance.eq_def, advance.eq_def c _ ⟨nextShard, rest, last⟩]
    simp only [firstCurrent, stale]
  | @copy nextShard last left =>
    have more : c.table.shardCount - nextShard = c.table.shardCount - (nextShard + 1) + 1 := by
      omega
    rw [next, more, advance.eq_def]
    simp only [firstCurrent, shardEntries?_of_lt left]
    rfl
  | @stop nextShard last done =>
    have none : c.table.shardCount - nextShard = 0 := by omega
    rw [next, none, advance.eq_def]
    rfl

/-- A call of `next` comes to its end after as many turns as there are entries and shards ahead, and
    one more. -/
theorem turns_eq_next (c : Cache K V) (limit : Nat) (cursor : Cursor K)
    (enough : (cursor.ahead c).length + (c.table.shardCount - cursor.nextShard) < limit) :
    turns c limit cursor = some (next c cursor) := by
  induction limit generalizing cursor with
  | zero => omega
  | succ limit ih =>
    have turned := turns_turn c cursor
    rw [turns]
    generalize turn c cursor = result at turned ⊢
    rcases result with ⟨later, result⟩
    rw [next_of_turns turned]
    cases turned with
    | yield nextShard e rest last current => rfl
    | skip nextShard e rest last stale =>
      apply ih
      simp only [ahead, List.cons_append, List.length_cons] at enough ⊢
      omega
    | @copy nextShard last left =>
      apply ih
      simp only [ahead, List.nil_append] at enough
      rw [List.drop_eq_getElem_cons (by rwa [List.length_range])] at enough
      simp only [List.getElem_range, List.flatMap_cons] at enough
      simp only [ahead]
      omega
    | stop last done => rfl

/-- A call of `next` as the turns that it takes. -/
inductive Calls (c : Cache K V) : Cursor K → Cursor K × Option (K × V) → Prop where
  | last {cursor later : Cursor K} {item : Option (K × V)}
      (turn : Turns c cursor (later, some item)) : Calls c cursor (later, item)
  | more {cursor later : Cursor K} {ended : Cursor K × Option (K × V)}
      (turn : Turns c cursor (later, none)) (rest : Calls c later ended) : Calls c cursor ended

theorem calls_of_turns {c : Cache K V} {limit : Nat} {cursor : Cursor K}
    {ended : Cursor K × Option (K × V)} (taken : turns c limit cursor = some ended) :
    Calls c cursor ended := by
  induction limit generalizing cursor with
  | zero => cases taken
  | succ limit ih =>
    have turned := turns_turn c cursor
    rw [turns] at taken
    generalize turn c cursor = result at turned taken
    rcases result with ⟨later, _ | item⟩
    · exact .more turned (ih taken)
    · cases taken
      exact .last turned

theorem calls_next (c : Cache K V) (cursor : Cursor K) : Calls c cursor (next c cursor) :=
  calls_of_turns (turns_eq_next c _ cursor (Nat.lt_succ_self _))

end Cursor

/-! ### Where a cursor stands -/

/-- The parts of a cache agree, and its keys have certain shards. -/
structure Cache.Laid (home : K → Nat) (count : Nat) (c : Cache K V) : Prop where
  consistent : c.Consistent
  shard : ∀ key, c.table.shardIndex key = home key
  count : c.table.shardCount = count

namespace Cursor

theorem current?_eq_some {c : Cache K V} {e : K × SlotId} {item : K × V}
    (current : current? c e = some item) :
    item.1 = e.1 ∧ c.table.get? e.1 = some e.2 ∧ c.pool.value? e.2 = some item.2 := by
  rw [current?] at current
  split at current
  · rename_i installed
    obtain ⟨value, holds, rfl⟩ := Option.map_eq_some_iff.mp current
    exact ⟨rfl, (ShardedMap.isCurrent_iff _ _ _).mp installed, holds⟩
  · cases current

theorem current?_of_liveSlot? {c : Cache K V} {key : K} {id : SlotId}
    (live : c.liveSlot? key = some id) : ∃ value, current? c (key, id) = some (key, value) := by
  obtain ⟨installed, live⟩ := Option.filter_eq_some_iff.mp live
  obtain ⟨value, holds⟩ := Option.isSome_iff_exists.mp live
  refine ⟨value, ?_⟩
  rw [current?, if_pos ((ShardedMap.isCurrent_iff _ _ _).mpr installed), Cache.liveEntry?, holds]
  rfl

/-- The key of what is yielded, if anything is. -/
def keyOf : Option (K × V) → List K
  | some item => [item.1]
  | none => []

/-- Where a cursor can stand that has yielded some keys. The keys that it copied are all of the last
    shard, and none of those that it has yielded is copied again. -/
structure Stands (home : K → Nat) (cursor : Cursor K) (seen : List K) : Prop where
  distinct : seen.Nodup
  passed : ∀ key ∈ seen, home key < cursor.nextShard
  copied : (cursor.upcoming.map Prod.fst).Nodup
  shard : ∀ key ∈ cursor.upcoming.map Prod.fst, home key + 1 = cursor.nextShard
  apart : ∀ key ∈ cursor.upcoming.map Prod.fst, key ∉ seen

/-- A slot under a key was yielded, or it is still to come. -/
def Reaches (home : K → Nat) (cursor : Cursor K) (seen : List K) (key : K) (id : SlotId) : Prop :=
  key ∈ seen ∨ (key, id) ∈ cursor.upcoming ∨ cursor.nextShard ≤ home key

/-- A cursor at the end of a walk over a number of shards. -/
def Ended (count : Nat) (cursor : Cursor K) : Prop :=
  cursor.upcoming = [] ∧ count ≤ cursor.nextShard

section

variable {home : K → Nat} {count : Nat} {c : Cache K V} (laid : c.Laid home count)
  {cursor : Cursor K} {seen : List K} {key : K} {id : SlotId}

omit [DecidableEq K] in
theorem stands_start (home : K → Nat) : Stands home (start : Cursor K) [] :=
  ⟨List.nodup_nil, by simp, List.nodup_nil, by simp [start], by simp [start]⟩

omit [DecidableEq K] in
theorem reaches_start (home : K → Nat) (key : K) (id : SlotId) :
    Reaches home (start : Cursor K) [] key id :=
  .inr (.inr (Nat.zero_le _))

include laid

/-- A turn keeps the cursor where it can stand. -/
theorem Stands.turn (stands : Stands home cursor seen) {later : Cursor K}
    {result : Option (Option (K × V))} (turn : Turns c cursor (later, result)) :
    Stands home later (seen ++ keyOf result.join) := by
  obtain ⟨distinct, passed, copied, shard, apart⟩ := stands
  cases turn with
  | @yield nextShard e rest last item current =>
    have same : item.1 = e.1 := (current?_eq_some current).1
    simp only [List.map_cons, List.nodup_cons, List.mem_cons, forall_eq_or_imp] at copied shard apart
    show Stands home _ (seen ++ [item.1])
    rw [same]
    refine ⟨?_, ?_, copied.2, shard.2, ?_⟩
    · exact List.nodup_append.mpr ⟨distinct, List.nodup_singleton _, by
        rintro k earlier _ now rfl
        exact apart.1 (List.mem_singleton.mp now ▸ earlier)⟩
    · intro k member
      rcases List.mem_append.mp member with earlier | now
      · exact passed k earlier
      · rw [List.mem_singleton.mp now]
        show home e.1 < nextShard
        omega
    · intro k upcoming member
      rcases List.mem_append.mp member with earlier | now
      · exact apart.2 k upcoming earlier
      · exact copied.1 (List.mem_singleton.mp now ▸ upcoming)
  | skip nextShard e rest last stale =>
    simp only [List.map_cons, List.nodup_cons, List.mem_cons, forall_eq_or_imp] at copied shard apart
    show Stands home _ (seen ++ [])
    rw [List.append_nil]
    exact ⟨distinct, passed, copied.2, shard.2, apart.2⟩
  | @copy nextShard last left =>
    show Stands home _ (seen ++ [])
    rw [List.append_nil]
    have ordered := laid.consistent.table.toOrdered
    -- What was seen so far belongs in shards before this one, so nothing in the copy was seen.
    have here : ∀ k ∈ (c.table.shardEntries nextShard).map Prod.fst, home k = nextShard := by
      intro k member
      obtain ⟨⟨_, id⟩, entry, rfl⟩ := List.mem_map.mp member
      rw [← laid.shard]
      exact ((ShardedMap.mem_shardEntries_iff ordered).mp entry).2
    refine ⟨distinct, fun k member => Nat.lt_succ_of_lt (passed k member),
      ShardedMap.nodup_shardEntries_keys ordered _, fun k member => ?_, fun k member earlier => ?_⟩
    · rw [here k member]
    · have before : home k < nextShard := passed k earlier
      rw [here k member] at before
      exact Nat.lt_irrefl _ before
  | stop last done =>
    show Stands home _ (seen ++ [])
    rw [List.append_nil]
    exact ⟨distinct, passed, copied, shard, apart⟩

theorem Stands.calls (stands : Stands home cursor seen) {ended : Cursor K × Option (K × V)}
    (calls : Calls c cursor ended) : Stands home ended.1 (seen ++ keyOf ended.2) := by
  induction calls with
  | last turn => exact stands.turn laid turn
  | more turn rest ih =>
    have later := stands.turn laid turn
    rw [Option.join_none, keyOf, List.append_nil] at later
    exact ih later

/-- A turn does not go past a slot that is installed and live without yielding it. -/
theorem Reaches.turn (reaches : Reaches home cursor seen key id)
    (live : c.liveSlot? key = some id) {later : Cursor K} {result : Option (Option (K × V))}
    (turn : Turns c cursor (later, result)) :
    Reaches home later (seen ++ keyOf result.join) key id := by
  obtain ⟨value, current⟩ := current?_of_liveSlot? live
  rcases reaches with before | copied | ahead
  · exact .inl (List.mem_append_left _ before)
  · cases turn with
    | @yield nextShard e rest last item yielded =>
      rcases List.mem_cons.mp copied with rfl | later
      · rw [current] at yielded
        cases yielded
        exact .inl (List.mem_append_right _ (List.mem_singleton_self _))
      · exact .inr (.inl later)
    | skip nextShard e rest last stale =>
      rcases List.mem_cons.mp copied with rfl | later
      · rw [current] at stale
        cases stale
      · exact .inr (.inl later)
    | copy last left => cases copied
    | stop last done => cases copied
  · cases turn with
    | yield => exact .inr (.inr ahead)
    | skip => exact .inr (.inr ahead)
    | @copy nextShard last left =>
      rcases Nat.eq_or_lt_of_le ahead with here | further
      · have bound := (Option.filter_eq_some_iff.mp live).1
        have entry := (ShardedMap.mem_shardEntries_iff laid.consistent.table.toOrdered).mpr
          ⟨bound, (laid.shard key).trans here.symm⟩
        exact .inr (.inl entry)
      · exact .inr (.inr further)
    | stop last done => exact .inr (.inr ahead)

theorem Reaches.calls (reaches : Reaches home cursor seen key id)
    (live : c.liveSlot? key = some id) {ended : Cursor K × Option (K × V)}
    (calls : Calls c cursor ended) : Reaches home ended.1 (seen ++ keyOf ended.2) key id := by
  induction calls with
  | last turn => exact reaches.turn laid live turn
  | more turn rest ih =>
    have later := reaches.turn laid live turn
    rw [Option.join_none, keyOf, List.append_nil] at later
    exact ih later

/-- A call that yields nothing leaves the cursor at the end. -/
theorem ended_of_calls {later : Cursor K} (calls : Calls c cursor (later, none)) :
    Ended count later := by
  generalize same : (later, (none : Option (K × V))) = ended at calls
  induction calls with
  | last turn =>
    cases same
    cases turn with
    | stop last done => exact ⟨rfl, laid.count ▸ done⟩
  | more turn rest ih => exact ih same

/-- At the end a cursor stays where it is and yields nothing. -/
theorem Ended.calls (atEnd : Ended count cursor) {ended : Cursor K × Option (K × V)}
    (calls : Calls c cursor ended) : ended = (cursor, none) := by
  rcases cursor with ⟨nextShard, upcoming, last⟩
  obtain ⟨rfl, done⟩ : upcoming = [] ∧ count ≤ nextShard := atEnd
  cases calls with
  | last turn =>
    cases turn with
    | stop last done => rfl
  | more turn rest =>
    cases turn with
    | copy last left =>
      have := laid.count
      omega

omit laid in
theorem current_of_calls {ended : Cursor K × Option (K × V)} (calls : Calls c cursor ended)
    {item : K × V} (yields : ended.2 = some item) :
    ∃ id, c.table.get? item.1 = some id ∧ c.pool.value? id = some item.2 := by
  induction calls with
  | last turn =>
    cases turn with
    | yield nextShard e rest last current =>
      cases yields
      obtain ⟨same, installed, holds⟩ := current?_eq_some current
      exact ⟨e.2, same ▸ installed, holds⟩
    | stop last done => cases yields
  | more turn rest ih => exact ih yields

end

/-! ### Walks -/

/-- What a cursor yields in the course of calls that it gets when the cache is in certain states. -/
def walk : Cursor K → List (Cache K V) → List (Cache K V × Option (K × V))
  | _, [] => []
  | cursor, c :: rest =>
      let called := next c cursor
      (c, called.2) :: walk called.1 rest

/-- Where a cursor is after the calls of a walk. -/
def after : Cursor K → List (Cache K V) → Cursor K
  | cursor, [] => cursor
  | cursor, c :: rest => after (next c cursor).1 rest

theorem walk_append (cursor : Cursor K) (first second : List (Cache K V)) :
    walk cursor (first ++ second) = walk cursor first ++ walk (after cursor first) second := by
  induction first generalizing cursor with
  | nil => rfl
  | cons c rest ih =>
    rw [List.cons_append, walk, walk, ih]
    rfl

theorem fst_walk (cursor : Cursor K) (caches : List (Cache K V)) :
    (walk cursor caches).map Prod.fst = caches := by
  induction caches generalizing cursor with
  | nil => rfl
  | cons c rest ih =>
    rw [walk, List.map_cons, ih]

/-- The keys that are yielded in the course of a walk. -/
def walkedKeys (walk : List (Cache K V × Option (K × V))) : List K :=
  walk.flatMap fun call => keyOf call.2

/-- What can be relied on when a cursor walks over a cache that changes. -/
structure Contract (walk : List (Cache K V × Option (K × V))) : Prop where
  /-- No key is yielded twice. -/
  once : (walkedKeys walk).Nodup
  /-- What is yielded is what the cache holds under the key at that time. -/
  current : ∀ (now : Cache K V) (item : K × V), (now, some item) ∈ walk →
    ∃ id, now.table.get? item.1 = some id ∧ now.pool.value? id = some item.2 ∧
      now.peek item.1 = some item.2
  /-- A slot that is installed and live until the walk comes to an end is yielded once. -/
  complete : ∀ (earlier later : List (Cache K V × Option (K × V))) (now : Cache K V) (key : K)
    (id : SlotId), walk = earlier ++ (now, none) :: later →
    (∀ call ∈ earlier, call.1.liveSlot? key = some id) → now.liveSlot? key = some id →
    (walkedKeys earlier).count key = 1
  /-- A walk that has come to an end yields nothing more. -/
  final : ∀ (earlier later : List (Cache K V × Option (K × V))) (now : Cache K V),
    walk = earlier ++ (now, none) :: later → ∀ call ∈ later, call.2 = none

section

variable {home : K → Nat} {count : Nat} {cursor : Cursor K} {seen : List K}
  {caches : List (Cache K V)} (laid : ∀ c ∈ caches, c.Laid home count)

include laid

theorem nodup_walkedKeys (stands : Stands home cursor seen) :
    (seen ++ walkedKeys (walk cursor caches)).Nodup := by
  induction caches generalizing cursor seen with
  | nil => simpa [walk, walkedKeys] using stands.distinct
  | cons c rest ih =>
    obtain ⟨first, others⟩ := List.forall_mem_cons.mp laid
    have later := ih others (stands.calls first (calls_next c cursor))
    rwa [List.append_assoc] at later

theorem walk_of_ended (atEnd : Ended count cursor) : ∀ call ∈ walk cursor caches, call.2 = none := by
  induction caches with
  | nil => simp [walk]
  | cons c rest ih =>
    obtain ⟨first, others⟩ := List.forall_mem_cons.mp laid
    have stays := atEnd.calls first (calls_next c cursor)
    simp only [walk, stays, List.forall_mem_cons]
    exact ⟨trivial, ih others⟩

theorem walk_final {earlier later : List (Cache K V × Option (K × V))} {now : Cache K V}
    (split : walk cursor caches = earlier ++ (now, none) :: later) :
    ∀ call ∈ later, call.2 = none := by
  induction caches generalizing cursor earlier with
  | nil => simp [walk] at split
  | cons c rest ih =>
    obtain ⟨first, others⟩ := List.forall_mem_cons.mp laid
    cases earlier with
    | nil =>
      obtain ⟨head, rfl⟩ := List.cons.inj split
      have calls := calls_next c cursor
      rcases called : next c cursor with ⟨cursor', item⟩
      rw [called] at head calls
      cases head
      exact walk_of_ended others (ended_of_calls first calls)
    | cons call earlier => exact ih others (List.cons.inj split).2

omit laid in
theorem current_of_walk {now : Cache K V} {item : K × V}
    (member : (now, some item) ∈ walk cursor caches) :
    ∃ id, now.table.get? item.1 = some id ∧ now.pool.value? id = some item.2 := by
  induction caches generalizing cursor with
  | nil => simp [walk] at member
  | cons c rest ih =>
    rcases List.mem_cons.mp member with here | further
    · obtain ⟨rfl, yields⟩ := Prod.mk.inj here
      exact current_of_calls (calls_next now cursor) yields.symm
    · exact ih further

/-- When a walk has come to an end it has yielded what was there at every call. -/
theorem mem_walkedKeys {earlier later : List (Cache K V × Option (K × V))} {now : Cache K V}
    {key : K} {id : SlotId} (reaches : Reaches home cursor seen key id)
    (split : walk cursor caches = earlier ++ (now, none) :: later)
    (live : ∀ call ∈ earlier, call.1.liveSlot? key = some id) (still : now.liveSlot? key = some id) :
    key ∈ seen ++ walkedKeys earlier := by
  induction caches generalizing cursor seen earlier with
  | nil => simp [walk] at split
  | cons c rest ih =>
    obtain ⟨first, others⟩ := List.forall_mem_cons.mp laid
    have calls := calls_next c cursor
    cases earlier with
    | nil =>
      obtain ⟨head, -⟩ := List.cons.inj split
      generalize next c cursor = called at head calls
      rcases called with ⟨ended, item⟩
      cases head
      obtain ⟨nothing, done⟩ := ended_of_calls first calls
      rcases reaches.calls first still calls with before | copied | ahead
      · exact before
      · rw [nothing] at copied
        cases copied
      · have below : home key < count := first.shard key ▸ first.count ▸ now.table.shardIndex_lt key
        have past : ended.nextShard ≤ home key := ahead
        omega
    | cons call earlier =>
      obtain ⟨rfl, onwards⟩ := List.cons.inj split
      obtain ⟨here, further⟩ := List.forall_mem_cons.mp live
      have yielded := ih others (reaches.calls first here calls) onwards further
      rwa [List.append_assoc] at yielded

end

/-- Whatever happens to a cache between the calls, the walk of a cursor over it keeps the contract. -/
theorem contract_walk (home : K → Nat) (count : Nat) {caches : List (Cache K V)}
    (laid : ∀ c ∈ caches, c.Laid home count) : Contract (walk (start : Cursor K) caches) := by
  have stands := stands_start (K := K) home
  refine ⟨?_, ?_, ?_, ?_⟩
  · exact nodup_walkedKeys laid stands
  · intro now item member
    obtain ⟨id, installed, holds⟩ := current_of_walk member
    refine ⟨id, installed, holds, ?_⟩
    rw [Cache.peek, installed, Option.bind_some, holds]
  · intro earlier later now key id split live still
    have yielded := mem_walkedKeys laid (reaches_start home key id) split live still
    have once := nodup_walkedKeys laid stands
    rw [List.nil_append, split, walkedKeys, List.flatMap_append] at once
    exact List.count_eq_one_of_mem (List.nodup_append.mp once).1 yielded
  · intro earlier later now split
    exact walk_final laid split

/-! ### Exhausting a cursor -/

/-- What is left to a cursor, by what one turn yields. -/
theorem rest_of_turns {c : Cache K V} {cursor later : Cursor K} {result : Option (Option (K × V))}
    (turn : Turns c cursor (later, result)) :
    rest c cursor = result.elim (rest c later) fun item => item.elim (later, []) fun first =>
      ((rest c later).1, first :: (rest c later).2) := by
  cases turn with
  | yield nextShard e entries last current =>
    simp only [rest, ahead, List.cons_append, List.filter_cons, current, Option.isSome_some, if_true,
      List.filterMap_cons, Option.elim]
    generalize (List.filter _ (entries ++ _)) = yielded
    cases yielded with
    | nil => rfl
    | cons first others => simp [List.getLast?_cons]
  | skip nextShard e entries last stale =>
    simp only [rest, ahead, List.cons_append, List.filter_cons, stale, Option.isSome_none,
      Bool.false_eq_true, if_false, Option.elim]
  | @copy nextShard last left =>
    have inside : nextShard < (List.range c.table.shardCount).length := by
      rwa [List.length_range]
    have most : max nextShard c.table.shardCount = max (nextShard + 1) c.table.shardCount := by
      omega
    simp only [rest, ahead, List.nil_append, List.drop_eq_getElem_cons inside, List.getElem_range,
      List.flatMap_cons, most, Option.elim]
  | @stop nextShard last done =>
    have past : (List.range c.table.shardCount).length ≤ nextShard := by
      rwa [List.length_range]
    simp only [rest, ahead, List.nil_append, List.drop_eq_nil_of_le past, List.flatMap_nil,
      List.filter_nil, List.getLast?_nil, Option.none_or, List.filterMap_nil, Nat.max_eq_left done,
      Option.elim]

theorem rest_of_calls {c : Cache K V} {cursor : Cursor K} {ended : Cursor K × Option (K × V)}
    (calls : Calls c cursor ended) :
    rest c cursor = ended.2.elim (ended.1, []) fun first =>
      ((rest c ended.1).1, first :: (rest c ended.1).2) := by
  induction calls with
  | last turn => rw [rest_of_turns turn, Option.elim_some]
  | more turn more ih => rw [rest_of_turns turn, Option.elim_none, ih]

/-- Exhausting a cursor is calling `next` until it yields nothing. -/
theorem walk_rest (c : Cache K V) (cursor : Cursor K) :
    walk cursor (List.replicate ((rest c cursor).2.length + 1) c) =
        ((rest c cursor).2.map some ++ [none]).map (fun item => (c, item)) ∧
      after cursor (List.replicate ((rest c cursor).2.length + 1) c) = (rest c cursor).1 := by
  generalize left : (rest c cursor).2 = items
  induction items generalizing cursor with
  | nil =>
    have called := rest_of_calls (calls_next c cursor)
    cases yielded : (next c cursor).2 with
    | none =>
      rw [yielded, Option.elim_none] at called
      simp [walk, after, yielded, called]
    | some item =>
      rw [yielded, Option.elim_some] at called
      rw [called] at left
      cases left
  | cons item items ih =>
    have called := rest_of_calls (calls_next c cursor)
    cases yielded : (next c cursor).2 with
    | none =>
      rw [yielded, Option.elim_none] at called
      rw [called] at left
      cases left
    | some first =>
      rw [yielded, Option.elim_some] at called
      rw [called] at left
      obtain ⟨rfl, others⟩ := List.cons.inj left
      obtain ⟨further, ends⟩ := ih (next c cursor).1 others
      rw [List.length_cons, List.replicate_succ, walk, after, further, ends, yielded, called]
      exact ⟨rfl, rfl⟩

/-! ### What was yielded last -/

/-- What a cursor yielded last does not matter to what it yields next. -/
theorem advance_last (c : Cache K V) (shardsLeft nextShard : Nat) (upcoming : List (K × SlotId))
    (last other : Option (K × SlotId)) :
    (advance c shardsLeft ⟨nextShard, upcoming, last⟩).2 =
        (advance c shardsLeft ⟨nextShard, upcoming, other⟩).2 ∧
      (advance c shardsLeft ⟨nextShard, upcoming, last⟩).1.forgetLast =
        (advance c shardsLeft ⟨nextShard, upcoming, other⟩).1.forgetLast := by
  induction shardsLeft generalizing nextShard upcoming with
  | zero =>
    rw [advance.eq_def, advance.eq_def c 0 ⟨nextShard, upcoming, other⟩]
    dsimp only
    cases firstCurrent c upcoming <;> exact ⟨rfl, rfl⟩
  | succ shardsLeft ih =>
    rw [advance.eq_def, advance.eq_def c (shardsLeft + 1) ⟨nextShard, upcoming, other⟩]
    dsimp only
    cases firstCurrent c upcoming with
    | some found => exact ⟨rfl, rfl⟩
    | none =>
      dsimp only
      cases c.table.shardEntries? nextShard with
      | some entries => exact ih (nextShard + 1) entries
      | none => exact ⟨rfl, rfl⟩

theorem walk_of_forgetLast {a b : Cursor K} (same : a.forgetLast = b.forgetLast)
    (caches : List (Cache K V)) : walk a caches = walk b caches := by
  induction caches generalizing a b with
  | nil => rfl
  | cons c rest ih =>
    rcases a with ⟨nextShard, upcoming, last⟩
    rcases b with ⟨nextShard', upcoming', other⟩
    obtain ⟨rfl, rfl⟩ : nextShard = nextShard' ∧ upcoming = upcoming' := by
      simpa [forgetLast] using same
    obtain ⟨yields, further⟩ :=
      advance_last c (c.table.shardCount - nextShard) nextShard upcoming last other
    simp only [walk, next, yields, ih further]

/-- The slot that a call of `next` yields. -/
def slotOf (call : Cache K V × Option (K × V)) : Option (K × SlotId) :=
  call.2.bind fun item => (call.1.table.get? item.1).map fun id => (item.1, id)

/-- The slot that was yielded last in the course of a walk. -/
def lastSlot (walk : List (Cache K V × Option (K × V))) : Option (K × SlotId) :=
  (walk.filterMap slotOf).getLast?

theorem last_of_calls {c : Cache K V} {cursor : Cursor K} {ended : Cursor K × Option (K × V)}
    (calls : Calls c cursor ended) : ended.1.last = (slotOf (c, ended.2)).or cursor.last := by
  induction calls with
  | last turn =>
    cases turn with
    | yield nextShard e rest last current =>
      obtain ⟨same, installed, _⟩ := current?_eq_some current
      simp [slotOf, same, installed]
    | stop last done => rfl
  | more turn rest ih =>
    rw [ih]
    cases turn <;> rfl

/-- What a cursor has yielded last is what it yielded last in the course of the walk, if anything. -/
theorem last_after (cursor : Cursor K) (caches : List (Cache K V)) :
    (after cursor caches).last = (lastSlot (walk cursor caches)).or cursor.last := by
  induction caches generalizing cursor with
  | nil => rfl
  | cons c rest ih =>
    rw [after, ih, last_of_calls (calls_next c cursor), walk, lastSlot, lastSlot, List.filterMap_cons]
    cases slotOf (c, (next c cursor).2) with
    | none => rw [Option.none_or]
    | some e =>
      rw [Option.some_or, List.getLast?_cons]
      cases (List.filterMap slotOf (walk (next c cursor).1 rest)).getLast? <;> rfl

/-- What is yielded last is installed in one of the caches, when the cursor is called on it. -/
theorem installed_of_lastSlot {cursor : Cursor K} {caches : List (Cache K V)} {e : K × SlotId}
    (last : lastSlot (walk cursor caches) = some e) :
    ∃ c ∈ caches, c.table.get? e.1 = some e.2 := by
  have listed := List.mem_of_getLast? last
  obtain ⟨call, called, yields⟩ := List.mem_filterMap.mp listed
  obtain ⟨item, _, found⟩ := Option.bind_eq_some_iff.mp yields
  obtain ⟨id, installed, rfl⟩ := Option.map_eq_some_iff.mp found
  exact ⟨call.1, fst_walk cursor caches ▸ List.mem_map_of_mem called, installed⟩

end Cursor

end ReclaimableCache
