import ReclaimableCache.Proofs.Draining
import ReclaimableCache.Proofs.Shape
import ReclaimableCache.Proofs.Walk

/-!
# Retaining

A walk that takes out what a predicate does not want to keep. The predicate may do anything to the
cache before it answers, so that what the walk did is told as the list of the questions that it put
and of what became of each entry. Each shard is copied when it is reached, and a key has one shard;
hence no key is asked about twice. If the predicate leaves the cache alone, every live entry is asked
about, and the walk filters the map.
-/

namespace ReclaimableCache

variable {K V : Type} [DecidableEq K]

/-! ### Taking out an entry that may be gone -/

/-- Nothing is done to a cache but that an entry, if one is named, is taken out if it is there. -/
structure Cache.TakesOut (cache : Cache K V) (entry : Option (K × SlotId)) (taken : Bool)
    (later : Cache K V) : Prop where
  iff : taken = true ↔ ∃ e ∈ entry, cache.table.get? e.1 = some e.2
  rest : later = { cache with table := later.table }
  table : ∀ key id, later.table.get? key = some id ↔
    cache.table.get? key = some id ∧ (key, id) ∉ entry
  size : later.size + taken.toNat = cache.size

/-- Nothing is done to a host but that an entry, if one is named, is taken out of a cache if it is
    there. -/
structure Host.TakesOut (h : Host K V) (c : CacheId) (entry : Option (K × SlotId)) (taken : Bool)
    (g : Host K V) : Prop where
  here : ∃ cache later, h.cache? c = some cache ∧ g.cache? c = some later ∧
    cache.TakesOut entry taken later
  others : ∀ d, d ≠ c → g.cache? d = h.cache? d
  rest : g = { h with caches := g.caches }
  untouched : taken = false → g = h

namespace Cache

/-- Where the entry is gone already, or none is named, nothing is done. -/
theorem takesOut_of_gone {cache : Cache K V} {entry : Option (K × SlotId)}
    (gone : ∀ e ∈ entry, cache.table.get? e.1 ≠ some e.2) : cache.TakesOut entry false cache := by
  refine ⟨?_, rfl, fun key id => ?_, rfl⟩
  · simpa using gone
  · exact ⟨fun bound => ⟨bound, fun member => gone _ member bound⟩, And.left⟩

theorem Consistent.takesOut {cache : Cache K V} (consistent : cache.Consistent) (key : K)
    (id : SlotId) :
    cache.TakesOut (some (key, id)) (cache.takeOutSlot key id).2 (cache.takeOutSlot key id).1 := by
  refine ⟨by simp [Cache.takeOutSlot], rfl, fun k slot => ?_, ?_⟩
  · rw [Cache.takeOutSlot, ShardedMap.get?_eraseIfSame, Option.mem_some, Prod.mk.injEq]
    by_cases here : k = key ∧ cache.table.get? key = some id
    · obtain ⟨rfl, bound⟩ := here
      rw [if_pos ⟨rfl, bound⟩, bound]
      refine ⟨fun gone => (Option.some_ne_none slot gone.symm).elim, ?_⟩
      rintro ⟨same, other⟩
      exact (other ⟨rfl, Option.some.inj same⟩).elim
    · rw [if_neg here]
      refine ⟨fun bound => ⟨bound, ?_⟩, And.left⟩
      rintro ⟨rfl, rfl⟩
      exact here ⟨rfl, bound⟩
  · exact consistent.table.size_eraseIfSame key id

end Cache

namespace Host

variable {h : Host K V} {c : CacheId} {cache : Cache K V} (found : h.cache? c = some cache)

include found

theorem takesOut_of_gone {entry : Option (K × SlotId)}
    (gone : ∀ e ∈ entry, cache.table.get? e.1 ≠ some e.2) : h.TakesOut c entry false h :=
  ⟨⟨cache, cache, found, found, Cache.takesOut_of_gone gone⟩, fun _ _ => rfl, rfl, fun _ => rfl⟩

theorem takesOut_make (consistent : h.Consistent) (key : K) (id : SlotId) :
    h.TakesOut c (some (key, id)) ((Move.takeOutSlot c key id).make h).2
      ((Move.takeOutSlot c key id).make h).1 := by
  have made : (Move.takeOutSlot c key id).make h =
      (h.setCache c (cache.takeOutSlot key id).1, (cache.takeOutSlot key id).2) := by
    rw [Move.make, onCache, found]
  have out := Host.cache?_setCache found (cache.takeOutSlot key id).1
  rw [made]
  refine ⟨⟨cache, _, found, (out c).trans (if_pos rfl), (consistent c cache found).takesOut key id⟩,
    fun d other => (out d).trans (if_neg other), rfl, fun stale => ?_⟩
  have same : (cache.takeOutSlot key id).1 = cache := by
    have current : cache.table.isCurrent key id = false := stale
    simp [Cache.takeOutSlot, ShardedMap.eraseIfSame, current]
  rw [same]
  exact setCache_self found

end Host

/-! ### Questions -/

/-- A question that the walk puts to its predicate, what the host is before and after it, and what is
    answered. -/
structure Question (K V : Type) where
  before : Host K V
  key : K
  slot : SlotId
  value : V
  after : Host K V
  /-- The replies to what the predicate requests before it answers. -/
  replies : List (Reply V)
  kept : Bool
  /-- Whether the entry is taken out then. -/
  taken : Bool

namespace Question

omit [DecidableEq K]

/-- The entry that the predicate is asked about. -/
def item (q : Question K V) : K × V := (q.key, q.value)

/-- What the predicate remembers of the question. -/
def heard (q : Question K V) : Heard K V := ⟨q.item, q.replies⟩

/-- The entry of the table that the predicate is asked about. -/
def entry (q : Question K V) : K × SlotId := (q.key, q.slot)

/-- The entry of the table, if it is not to be kept. -/
def rejected (q : Question K V) : Option (K × SlotId) := if q.kept then none else some q.entry

/-- The entry is live when the predicate is asked, and the predicate, which has been asked before,
    does what it does and answers. -/
structure Put [DecidableEq K] (limit : Nat) (c : CacheId) (keep : Predicate K V)
    (heard : List (Heard K V)) (q : Question K V) : Prop where
  live : ∃ cache, q.before.cache? c = some cache ∧ cache.table.get? q.key = some q.slot ∧
    cache.pool.value? q.slot = some q.value
  answered : ((keep heard q.key q.value).work (Host.serve limit)).run q.before =
    (q.after, q.replies, q.kept)

end Question

/-- Questions are put one after the other. Apart from what the predicate does, nothing is done but
    that entries which are not to be kept are taken out, each right after the answer and only if its
    slot is still the one under the key. The predicate remembers all questions that came before. -/
inductive Asks (limit : Nat) (c : CacheId) (keep : Predicate K V) :
    List (Heard K V) → Host K V → List (Question K V) → Host K V → Prop where
  | nil (heard : List (Heard K V)) (h : Host K V) : Asks limit c keep heard h [] h
  | cons {heard : List (Heard K V)} {q : Question K V} {next g : Host K V}
      {questions : List (Question K V)} (put : q.Put limit c keep heard)
      (leaves : q.after.TakesOut c q.rejected q.taken next)
      (rest : Asks limit c keep (heard ++ [q.heard]) next questions g) :
      Asks limit c keep heard q.before (q :: questions) g

/-- The hosts that the walk looks at: those before each question, and the one at the end. -/
def Question.moments (questions : List (Question K V)) (g : Host K V) : List (Host K V) :=
  questions.map Question.before ++ [g]

section

variable {limit : Nat} {c : CacheId} {keep : Predicate K V} {heard : List (Heard K V)}
  {h g f : Host K V} {questions others : List (Question K V)}

theorem Asks.append (first : Asks limit c keep heard h questions g)
    (second : Asks limit c keep (heard ++ questions.map Question.heard) g others f) :
    Asks limit c keep heard h (questions ++ others) f := by
  induction first with
  | nil heard h => rwa [List.map_nil, List.append_nil] at second
  | cons put leaves rest ih =>
    rw [List.map_cons, List.append_cons] at second
    exact .cons put leaves (ih second)

theorem Asks.mem_moments (asks : Asks limit c keep heard h questions g) :
    h ∈ Question.moments questions g := by
  cases asks with
  | nil => exact List.mem_singleton_self _
  | cons put leaves rest => exact List.mem_cons_self

omit [DecidableEq K] in
theorem Question.moments_append (questions others : List (Question K V)) (f : Host K V) :
    moments (questions ++ others) f = questions.map before ++ moments others f := by
  rw [moments, moments, List.map_append, List.append_assoc]

/-- What is looked at up to some point is looked at in the whole walk. -/
theorem Asks.moments_subset (asks : Asks limit c keep heard g others f)
    (questions : List (Question K V)) :
    ∀ m ∈ Question.moments questions g, m ∈ Question.moments (questions ++ others) f := by
  intro m member
  rw [Question.moments_append]
  rcases List.mem_append.mp member with earlier | last
  · exact List.mem_append_left _ earlier
  · rw [List.mem_singleton.mp last]
    exact List.mem_append_right _ asks.mem_moments

end

/-- An entry is passed over if it is asked about, or gone or dead when it is looked at. -/
def Passed (c : CacheId) (questions : List (Question K V)) (g : Host K V) (e : K × SlotId) : Prop :=
  e ∈ questions.map Question.entry ∨
    ∃ m ∈ Question.moments questions g, ∀ cache, m.cache? c = some cache →
      Cursor.current? cache e = none

theorem Passed.append {limit : Nat} {c : CacheId} {keep : Predicate K V} {heard : List (Heard K V)}
    {questions others : List (Question K V)} {g f : Host K V}
    (asks : Asks limit c keep heard g others f) {e : K × SlotId} (passed : Passed c questions g e) :
    Passed c (questions ++ others) f e := by
  rcases passed with asked | ⟨m, moment, gone⟩
  · exact .inl (List.map_append ▸ List.mem_append_left _ asked)
  · exact .inr ⟨m, asks.moments_subset questions m moment, gone⟩

theorem Passed.of_later {c : CacheId} (questions : List (Question K V))
    {others : List (Question K V)} {f : Host K V} {e : K × SlotId} (passed : Passed c others f e) :
    Passed c (questions ++ others) f e := by
  rcases passed with asked | ⟨m, moment, gone⟩
  · exact .inl (List.map_append ▸ List.mem_append_right _ asked)
  · refine .inr ⟨m, ?_, gone⟩
    rw [Question.moments_append]
    exact List.mem_append_right _ moment

namespace Work

omit [DecidableEq K] in
/-- How far the walk has come after some questions. -/
def Retention.after (r : Retention K V) (questions : List (Question K V)) : Retention K V :=
  ⟨r.removed + questions.countP Question.taken, r.heard ++ questions.map Question.heard⟩

omit [DecidableEq K] in
theorem Retention.seen_after (r : Retention K V) (questions : List (Question K V)) :
    (r.after questions).seen = r.seen ++ questions.map Question.item := by
  rw [seen, after, List.map_append, List.map_map]
  rfl

omit [DecidableEq K] in
theorem Retention.after_append (r : Retention K V) (questions others : List (Question K V)) :
    (r.after questions).after others = r.after (questions ++ others) := by
  simp [after, Nat.add_assoc]

/-! ### The walk -/

variable (limit : Nat) {c : CacheId} (keep : Predicate K V) {h : Host K V}
  (consistent : h.Consistent)

include consistent

/-- One entry is passed. -/
theorem asks_entry (r : Retention K V) (e : K × SlotId) :
    ∃ questions, Asks limit c keep r.heard h questions ((retainEntry limit c keep r e).run h).1 ∧
      ((retainEntry limit c keep r e).run h).2 = r.after questions ∧
      (questions.map Question.entry).Sublist [e] ∧
      Passed c questions ((retainEntry limit c keep r e).run h).1 e := by
  rw [retainEntry, run_bind, run_make]
  simp only [Move.make]
  cases current : (h.cache? c).bind fun cache => Cursor.current? cache e with
  | none =>
    refine ⟨[], .nil _ h, by simp [Retention.after], List.nil_sublist _,
      .inr ⟨h, List.mem_singleton_self _, fun cache found => ?_⟩⟩
    rwa [found, Option.bind_some] at current
  | some item =>
    obtain ⟨cache, found, shown⟩ := Option.bind_eq_some_iff.mp current
    obtain ⟨same, installed, holds⟩ := Cursor.current?_eq_some shown
    dsimp only
    rw [run_bind]
    generalize answered : ((keep r.heard item.1 item.2).work (Host.serve limit)).run h = asked
    rw [same] at answered
    have after : asked.1 = (((keep r.heard e.1 item.2).work (Host.serve limit)).run h).1 := by
      rw [answered]
    obtain ⟨later, there, _⟩ :=
      h.grows_run ((keep r.heard e.1 item.2).work (Host.serve limit)) c cache found
    rw [← after] at there
    have live : ∃ cache, h.cache? c = some cache ∧ cache.table.get? e.1 = some e.2 ∧
        cache.pool.value? e.2 = some item.2 := ⟨cache, found, installed, holds⟩
    have shape : item = (e.1, item.2) := Prod.ext same rfl
    rcases asked with ⟨g, replies, kept⟩
    cases kept with
    | true =>
      have asks := Asks.cons (q := ⟨h, e.1, e.2, item.2, g, replies, true, false⟩) ⟨live, answered⟩
        (Host.takesOut_of_gone there (by simp [Question.rejected])) (.nil _ g)
      rw [if_pos rfl, run_pure]
      refine ⟨_, asks, ?_, List.Sublist.refl _, .inl (List.mem_singleton_self _)⟩
      rw [shape]
      rfl
    | false =>
      -- The predicate may have put another slot under the key, so that nothing is taken out.
      have settled : g.Consistent := by
        rw [show g = _ from after]
        exact (consistent.work _).2
      have leaves := Host.takesOut_make there settled e.1 e.2
      rw [if_neg Bool.false_ne_true, run_bind, run_make, run_pure]
      generalize (Move.takeOutSlot c e.1 e.2).make g = taken at leaves ⊢
      have asks := Asks.cons (q := ⟨h, e.1, e.2, item.2, g, replies, false, taken.2⟩)
        ⟨live, answered⟩ leaves (.nil _ taken.1)
      refine ⟨_, asks, ?_, List.Sublist.refl _, .inl (List.mem_singleton_self _)⟩
      rw [shape]
      rcases taken with ⟨f, out⟩
      cases out <;> rfl

/-- Several entries are passed one after the other. -/
theorem asks_entries (r : Retention K V) (entries : List (K × SlotId)) :
    ∃ questions,
      Asks limit c keep r.heard h questions
        ((entries.foldlM (retainEntry limit c keep) r).run h).1 ∧
      ((entries.foldlM (retainEntry limit c keep) r).run h).2 = r.after questions ∧
      (questions.map Question.entry).Sublist entries ∧
      ∀ e ∈ entries,
        Passed c questions ((entries.foldlM (retainEntry limit c keep) r).run h).1 e := by
  induction entries generalizing h r with
  | nil => exact ⟨[], .nil _ h, by simp [Retention.after], List.Sublist.refl _, by simp⟩
  | cons e entries ih =>
    obtain ⟨first, asks, tells, inside, passed⟩ := asks_entry limit keep consistent r e
    obtain ⟨others, more, tellsMore, insideMore, passedMore⟩ := ih (consistent.work _).2 (r.after first)
    rw [List.foldlM_cons, run_bind, tells]
    refine ⟨first ++ others, asks.append more, ?_, ?_, ?_⟩
    · rw [tellsMore, Retention.after_append]
    · rw [List.map_append]
      exact inside.append insideMore
    · intro other member
      rcases List.mem_cons.mp member with rfl | later
      · exact passed.append more
      · exact (passedMore other later).of_later first

variable {home : K → Nat} {count : Nat} (lays : h.Lays c home count)

include lays

/-- A shard is passed. It is copied when it is reached, and holds keys of its own only. -/
theorem asks_shard (r : Retention K V) (index : Nat) :
    ∃ questions,
      Asks limit c keep r.heard h questions ((retainShard limit c keep r index).run h).1 ∧
      ((retainShard limit c keep r index).run h).2 = r.after questions ∧
      (questions.map Question.key).Nodup ∧ (∀ q ∈ questions, home q.key = index) ∧
      ∀ e : K × SlotId, home e.1 = index →
        Passed c questions ((retainShard limit c keep r index).run h).1 e := by
  obtain ⟨cache, found, rfl, rfl⟩ := lays
  have ordered := (consistent c cache found).table.toOrdered
  obtain ⟨questions, asks, tells, inside, passed⟩ :=
    asks_entries limit keep consistent r (cache.table.shardEntries index)
  have keys : questions.map Question.key = (questions.map Question.entry).map Prod.fst := by
    rw [List.map_map]
    rfl
  rw [retainShard, run_bind, run_make]
  simp only [Move.make, found]
  refine ⟨questions, asks, tells, ?_, fun q member => ?_, fun e here => ?_⟩
  · rw [keys]
    exact (ShardedMap.nodup_shardEntries_keys ordered index).sublist (inside.map Prod.fst)
  · have listed := inside.subset (List.mem_map_of_mem member)
    exact ((ShardedMap.mem_shardEntries_iff ordered).mp listed).2
  · by_cases bound : cache.table.get? e.1 = some e.2
    · exact passed e ((ShardedMap.mem_shardEntries_iff ordered).mpr ⟨bound, here⟩)
    · refine .inr ⟨h, asks.mem_moments, fun now there => ?_⟩
      rw [found] at there
      cases there
      rw [Cursor.current?, if_neg]
      rwa [ShardedMap.isCurrent_iff]

/-- The shards are passed one after the other. -/
theorem asks_shards (r : Retention K V) (index shards : Nat) :
    ∃ questions, Asks limit c keep r.heard h questions
        (((List.range' index shards).foldlM (retainShard limit c keep) r).run h).1 ∧
      (((List.range' index shards).foldlM (retainShard limit c keep) r).run h).2 =
        r.after questions ∧
      (questions.map Question.key).Nodup ∧
      (∀ q ∈ questions, index ≤ home q.key ∧ home q.key < index + shards) ∧
      ∀ e : K × SlotId, index ≤ home e.1 → home e.1 < index + shards →
        Passed c questions
          (((List.range' index shards).foldlM (retainShard limit c keep) r).run h).1 e := by
  induction shards generalizing h r index with
  | zero =>
    refine ⟨[], .nil _ h, by simp [Retention.after], List.nodup_nil, by simp,
      fun e from' below => ?_⟩
    omega
  | succ shards ih =>
    obtain ⟨first, asks, tells, distinct, homes, passed⟩ :=
      asks_shard limit keep consistent lays r index
    obtain ⟨others, more, tellsMore, distinctMore, homesMore, passedMore⟩ :=
      ih (consistent.work _).2 (lays.run _) (r.after first) (index + 1)
    rw [List.range'_succ, List.foldlM_cons, run_bind, tells]
    refine ⟨first ++ others, asks.append more, ?_, ?_, fun q member => ?_, fun e from' below => ?_⟩
    · rw [tellsMore, Retention.after_append]
    · rw [List.map_append, List.nodup_append]
      refine ⟨distinct, distinctMore, ?_⟩
      -- Keys belong in one shard, and the shards that follow are others.
      intro key before other later same
      obtain ⟨q, asked, rfl⟩ := List.mem_map.mp before
      obtain ⟨p, askedLater, rfl⟩ := List.mem_map.mp later
      have here := homes q asked
      have there := (homesMore p askedLater).1
      rw [same] at here
      omega
    · rcases List.mem_append.mp member with asked | asked
      · have here := homes q asked
        omega
      · have there := homesMore q asked
        omega
    · rcases Nat.eq_or_lt_of_le from' with here | later
      · exact (passed e here.symm).append more
      · exact (passedMore e later (by omega)).of_later first

omit lays in
/-- All shards are passed, and so every entry. No key is asked about twice. -/
theorem asks_retain {cache : Cache K V} (found : h.cache? c = some cache) :
    ∃ questions, Asks limit c keep [] h questions ((retain limit c keep).run h).1 ∧
      ((retain limit c keep).run h).2.removed = questions.countP Question.taken ∧
      ((retain limit c keep).run h).2.seen = questions.map Question.item ∧
      (questions.map Question.key).Nodup ∧
      ∀ e : K × SlotId, Passed c questions ((retain limit c keep).run h).1 e := by
  have lays : h.Lays c cache.table.shardIndex cache.table.shardCount := ⟨cache, found, rfl, rfl⟩
  obtain ⟨questions, asks, tells, distinct, _, passed⟩ :=
    asks_shards limit keep consistent lays .start 0 cache.table.shardCount
  rw [retain, run_bind, run_make]
  simp only [Move.make, found, List.range_eq_range']
  refine ⟨questions, asks, ?_, ?_, distinct, fun e => passed e (Nat.zero_le _) ?_⟩
  · rw [tells]
    exact Nat.zero_add _
  · rw [tells, Retention.seen_after]
    rfl
  · rw [Nat.zero_add]
    exact cache.table.shardIndex_lt e.1

end Work

/-! ### Predicates that leave the cache alone -/

section

variable {limit : Nat} {c : CacheId} {keep : Predicate K V} {heard : List (Heard K V)}
  {h g : Host K V} {questions : List (Question K V)} {cache : Cache K V}

/-- From a cache the entries are taken out that were not to be kept. -/
structure Cache.Culled (cache : Cache K V) (questions : List (Question K V)) (later : Cache K V) :
    Prop where
  rest : later = { cache with table := later.table }
  table : ∀ key id, later.table.get? key = some id ↔
    cache.table.get? key = some id ∧ ∀ q ∈ questions, (key, id) ∉ q.rejected

namespace Question

omit [DecidableEq K] in
theorem mem_rejected {q : Question K V} {e : K × SlotId} :
    e ∈ q.rejected ↔ q.kept = false ∧ e = q.entry := by
  rw [rejected]
  cases q.kept with
  | true => simp
  | false => simp [eq_comm]

/-- An entry that is there is taken out if it is not to be kept. -/
theorem taken_eq {q : Question K V} {later : Cache K V}
    (takes : cache.TakesOut q.rejected q.taken later)
    (installed : cache.table.get? q.key = some q.slot) : q.taken = !q.kept := by
  have known := takes.iff
  cases answer : q.kept with
  | true =>
    rw [Bool.not_true, ← Bool.not_eq_true, known]
    rintro ⟨e, member, _⟩
    rw [mem_rejected, answer] at member
    cases member.1
  | false => exact known.mpr ⟨q.entry, mem_rejected.mpr ⟨answer, rfl⟩, installed⟩

end Question

namespace Asks

variable (asks : Asks limit c keep heard h questions g)
  (gentle : ∀ q ∈ questions, q.after.cache? c = q.before.cache? c)
  (found : h.cache? c = some cache)

include asks gentle found

/-- The walk itself does nothing to the cache but taking out what is not to be kept. -/
theorem culled :
    (∃ later, g.cache? c = some later ∧ cache.Culled questions later) ∧
    (∀ q ∈ questions, cache.table.get? q.key = some q.slot ∧
      cache.pool.value? q.slot = some q.value ∧ q.taken = !q.kept) ∧
    ∀ m ∈ Question.moments questions g, ∃ now, m.cache? c = some now ∧ now.pool = cache.pool ∧
      ∀ key id, cache.table.get? key = some id →
        now.table.get? key = some id ∨ ∃ q ∈ questions, (key, id) ∈ q.rejected := by
  induction asks generalizing cache with
  | nil heard h =>
    refine ⟨⟨cache, found, rfl, by simp⟩, by simp, fun m member => ?_⟩
    rw [List.mem_singleton.mp member]
    exact ⟨cache, found, rfl, fun _ _ bound => .inl bound⟩
  | @cons heard q next g others put leaves rest ih =>
    obtain ⟨gentleHere, gentle⟩ := List.forall_mem_cons.mp gentle
    obtain ⟨_, same, installed, holds⟩ := put.live
    rw [found] at same
    cases same
    obtain ⟨_, left, same, there, takes⟩ := leaves.here
    rw [gentleHere, found] at same
    cases same
    obtain ⟨⟨later, ends, culled⟩, asked, looked⟩ := ih gentle there
    have pool : left.pool = cache.pool := by rw [takes.rest]
    have kept : ∀ key id, left.table.get? key = some id → cache.table.get? key = some id :=
      fun key id bound => ((takes.table key id).mp bound).1
    refine ⟨⟨later, ends, ?_, fun key id => ?_⟩, fun p member => ?_, fun m member => ?_⟩
    · rw [culled.rest, takes.rest]
    · rw [culled.table, takes.table, List.forall_mem_cons, and_assoc]
    · rcases List.mem_cons.mp member with rfl | later
      · exact ⟨installed, holds, Question.taken_eq takes installed⟩
      · obtain ⟨bound, value, taken⟩ := asked p later
        exact ⟨kept _ _ bound, pool ▸ value, taken⟩
    · rcases List.mem_cons.mp member with rfl | later
      · exact ⟨cache, found, rfl, fun _ _ bound => .inl bound⟩
      · obtain ⟨now, here, same, still⟩ := looked m later
        refine ⟨now, here, same.trans pool, fun key id bound => ?_⟩
        by_cases out : (key, id) ∈ q.rejected
        · exact .inr ⟨q, List.mem_cons_self, out⟩
        · rcases still key id ((takes.table key id).mpr ⟨bound, out⟩) with bound | ⟨p, asked, out⟩
          · exact .inl bound
          · exact .inr ⟨p, List.mem_cons_of_mem _ asked, out⟩

/-- A live entry that is passed is asked about. -/
theorem asked_of_live {key : K} {id : SlotId} {value : V} (passed : Passed c questions g (key, id))
    (installed : cache.table.get? key = some id) (holds : cache.pool.value? id = some value) :
    (key, id) ∈ questions.map Question.entry := by
  obtain ⟨_, _, looked⟩ := asks.culled gentle found
  rcases passed with asked | ⟨m, moment, gone⟩
  · exact asked
  · obtain ⟨now, here, pool, still⟩ := looked m moment
    rcases still key id installed with bound | ⟨q, asked, out⟩
    · have nothing := gone now here
      rw [Cursor.current?, if_pos ((ShardedMap.isCurrent_iff _ _ _).mpr bound), Cache.liveEntry?,
        pool, holds] at nothing
      cases nothing
    · rw [(Question.mem_rejected.mp out).2]
      exact List.mem_map_of_mem asked

variable (distinct : (questions.map Question.key).Nodup)
  (passed : ∀ e : K × SlotId, Passed c questions g e)

include distinct passed

/-- Every live entry is asked about once. -/
theorem lists : PlainMap.Lists cache.peek (questions.map Question.item) := by
  obtain ⟨_, asked, _⟩ := asks.culled gentle found
  refine ⟨?_, fun key value => ?_⟩
  · rw [List.map_map]
    exact distinct
  · rw [List.mem_map, Cache.peek, Option.bind_eq_some_iff]
    constructor
    · rintro ⟨q, member, same⟩
      cases same
      obtain ⟨installed, holds, _⟩ := asked q member
      exact ⟨q.slot, installed, holds⟩
    · rintro ⟨id, installed, holds⟩
      have about := asks.asked_of_live gentle found (passed (key, id)) installed holds
      obtain ⟨q, member, same⟩ := List.mem_map.mp about
      cases same
      obtain ⟨_, value', _⟩ := asked q member
      rw [holds] at value'
      cases value'
      exact ⟨q, member, rfl⟩

/-- What is left of the live entries are those that were to be kept. -/
theorem lists_kept {later : Cache K V} (ends : g.cache? c = some later) :
    PlainMap.Lists later.peek ((questions.filter Question.kept).map Question.item) := by
  obtain ⟨⟨_, same, culled⟩, asked, _⟩ := asks.culled gentle found
  rw [ends] at same
  cases same
  have pool : later.pool = cache.pool := by rw [culled.rest]
  refine ⟨?_, fun key value => ?_⟩
  · rw [List.map_map]
    exact distinct.sublist (List.filter_sublist.map _)
  · rw [List.mem_map, Cache.peek, pool, Option.bind_eq_some_iff]
    constructor
    · rintro ⟨q, member, same⟩
      cases same
      obtain ⟨member, kept⟩ := List.mem_filter.mp member
      obtain ⟨installed, holds, _⟩ := asked q member
      refine ⟨q.slot, (culled.table _ _).mpr ⟨installed, fun p also out => ?_⟩, holds⟩
      obtain ⟨refused, entry⟩ := Question.mem_rejected.mp out
      have one : q = p := List.inj_on_of_nodup_map distinct member also (congrArg Prod.fst entry)
      rw [← one, kept] at refused
      cases refused
    · rintro ⟨id, bound, holds⟩
      obtain ⟨installed, stays⟩ := (culled.table key id).mp bound
      have about := asks.asked_of_live gentle found (passed (key, id)) installed holds
      obtain ⟨q, member, same⟩ := List.mem_map.mp about
      have kept : q.kept = true := by
        rw [← Bool.not_eq_false]
        exact fun refused => stays q member (Question.mem_rejected.mpr ⟨refused, same.symm⟩)
      cases same
      obtain ⟨_, value', _⟩ := asked q member
      rw [holds] at value'
      cases value'
      exact ⟨q, List.mem_filter.mpr ⟨member, kept⟩, rfl⟩

end Asks

theorem Asks.put (asks : Asks limit c keep heard h questions g) :
    ∀ q ∈ questions, ∃ heard, q.Put limit c keep heard := by
  induction asks with
  | nil heard h => simp
  | cons put leaves rest ih => exact List.forall_mem_cons.mpr ⟨⟨_, put⟩, ih⟩

/-- An entry is taken out that is not to be kept, if its slot is still there after the answer. -/
theorem Asks.taken_iff (asks : Asks limit c keep heard h questions g) :
    ∀ q ∈ questions, q.taken = true ↔ q.kept = false ∧
      ∃ now, q.after.cache? c = some now ∧ now.table.get? q.key = some q.slot := by
  induction asks with
  | nil heard h => simp
  | @cons heard q next g others put leaves rest ih =>
    refine List.forall_mem_cons.mpr ⟨?_, ih⟩
    obtain ⟨now, _, there, _, takes⟩ := leaves.here
    rw [takes.iff]
    constructor
    · rintro ⟨e, member, installed⟩
      obtain ⟨refused, rfl⟩ := Question.mem_rejected.mp member
      exact ⟨refused, now, there, installed⟩
    · rintro ⟨refused, _, same, installed⟩
      rw [there] at same
      cases same
      exact ⟨q.entry, Question.mem_rejected.mpr ⟨refused, rfl⟩, installed⟩

variable {kept : K → V → Bool}
  (gives : ∀ heard key value, (keep heard key value).Gives (kept key value))

include gives

theorem Question.Put.gentle {q : Question K V} (put : q.Put limit c keep heard) :
    q.kept = kept q.key q.value ∧ q.after.cache? c = q.before.cache? c := by
  obtain ⟨answer, still⟩ := (gives heard q.key q.value).run (Host.runCallbacks limit) q.before
  have answered : ((keep heard q.key q.value).work
    (Host.perform (Host.runCallbacks limit))).run q.before = _ := put.answered
  rw [answered] at answer still
  exact ⟨answer, still c⟩

/-- A predicate that raises signals at most is asked about every live entry once, and the walk takes
    out what it does not want to keep. -/
theorem Work.retain_gives (limit : Nat) (consistent : h.Consistent)
    (found : h.cache? c = some cache) :
    ∃ later seen, ((retain limit c keep).run h).1.cache? c = some later ∧
      later.pool = cache.pool ∧
      (∀ key, later.table.get? key =
        (cache.table.get? key).filter fun id => (cache.pool.value? id).all (kept key)) ∧
      PlainMap.Lists cache.peek seen ∧
      ((retain limit c keep).run h).2.removed = (seen.countP fun e => !kept e.1 e.2) ∧
      ((retain limit c keep).run h).2.seen = seen := by
  obtain ⟨questions, asks, removed, tells, distinct, passed⟩ := asks_retain limit keep consistent found
  have both : ∀ q ∈ questions, q.kept = kept q.key q.value ∧
      q.after.cache? c = q.before.cache? c := fun q member =>
    (asks.put q member).elim fun _ put => put.gentle gives
  have answers : ∀ q ∈ questions, q.kept = kept q.key q.value := fun q member => (both q member).1
  have gentle : ∀ q ∈ questions, q.after.cache? c = q.before.cache? c := fun q member =>
    (both q member).2
  obtain ⟨⟨later, ends, culled⟩, asked, _⟩ := asks.culled gentle found
  refine ⟨later, questions.map Question.item, ends, by rw [culled.rest], fun key => ?_,
    asks.lists gentle found distinct passed, ?_, tells⟩
  · refine Option.ext fun id => ?_
    rw [culled.table, Option.filter_eq_some_iff]
    apply and_congr_right
    intro installed
    constructor
    · intro stays
      cases holds : cache.pool.value? id with
      | none => rfl
      | some value =>
        have about := asks.asked_of_live gentle found (passed (key, id)) installed holds
        obtain ⟨q, member, same⟩ := List.mem_map.mp about
        have wanted : q.kept = true := by
          rw [← Bool.not_eq_false]
          exact fun refused => stays q member (Question.mem_rejected.mpr ⟨refused, same.symm⟩)
        cases same
        obtain ⟨_, value', _⟩ := asked q member
        rw [holds] at value'
        cases value'
        rw [Option.all_some, ← answers q member, wanted]
    · intro wanted q member out
      obtain ⟨refused, entry⟩ := Question.mem_rejected.mp out
      cases entry
      rw [(asked q member).2.1, Option.all_some, ← answers q member, refused] at wanted
      cases wanted
  · rw [removed, List.countP_map]
    refine List.countP_congr fun q member => ?_
    rw [(asked q member).2.2, Function.comp_apply, answers q member]
    rfl

/-- The walk takes out the bindings that the predicate does not want, and asks about each once. -/
theorem Host.Ready.retain (ready : h.Ready c cache) (limit : Nat) :
    ∃ later seen, ((Work.retain limit c keep).run h).1.cache? c = some later ∧
      later.peek = PlainMap.filter cache.peek kept ∧ PlainMap.Lists cache.peek seen ∧
      ((Work.retain limit c keep).run h).2.removed = (seen.countP fun e => !kept e.1 e.2) ∧
      ((Work.retain limit c keep).run h).2.seen = seen := by
  obtain ⟨later, seen, there, pool, table, lists, removed, tells⟩ :=
    Work.retain_gives gives limit ready.consistent ready.found
  refine ⟨later, seen, there, funext fun key => ?_, lists, removed, tells⟩
  rw [PlainMap.filter, Cache.peek, Cache.peek, table, pool]
  cases cache.table.get? key with
  | none => rfl
  | some id =>
    rw [Option.bind_some]
    cases value : cache.pool.value? id with
    | none => simp [Option.filter, value]
    | some v => by_cases wanted : kept key v = true <;> simp [Option.filter, value, wanted]

end

end ReclaimableCache
