import ReclaimableCache.Proofs.Parallel
import ReclaimableCache.Proofs.Shape

/-!
# The order of a walk

A walk over a cache passes its entries in the order in which the shards list them. Whether this order
can be seen depends on the predicate, which may remember what it was asked before and look at any
cache, the one that is walked over included. A predicate is steady if the walk ends in the same way in
whatever order the entries are passed. On hosts that are alike a walk with a steady predicate goes on
side by side.
-/

namespace ReclaimableCache

variable {K V : Type} [DecidableEq K]

namespace Work

/-- Passes entries in the order that is given. -/
def retainInOrder (limit : Nat) (c : CacheId) (keep : Predicate K V)
    (order : List (K × SlotId)) : Work K V (Retention K V) :=
  order.foldlM (retainEntry limit c keep) .start

/-- Two walks leave the same caches and signals, take out equally many entries, ask about the same
    ones, and lead to the same calls of cleaners. -/
structure SameEnd (w x : Work K V (Retention K V)) (h : Host K V) : Prop where
  caches : (x.run h).1.caches = (w.run h).1.caches
  aside : (x.run h).1.aside = (w.run h).1.aside
  removed : (x.run h).2.removed = (w.run h).2.removed
  seen : (x.run h).2.seen.Perm (w.run h).2.seen
  calls : (x.calls h).Perm (w.calls h)

end Work

/-- The entries of a cache that were not passed are as they were. -/
def Host.Spares (c : CacheId) (cache : Cache K V) (passed : List (K × SlotId)) (h : Host K V) :
    Prop :=
  ∃ now, h.cache? c = some now ∧
    ∀ key, key ∉ passed.map Prod.fst → now.table.get? key = cache.table.get? key

/-- Whatever the order in which the entries of a cache are passed, those that are not passed yet stay
    as they are, the entries of all caches can be counted, and the walk ends in the same way. -/
structure Predicate.Steady (limit : Nat) (c : CacheId) (keep : Predicate K V) (h : Host K V)
    (cache : Cache K V) : Prop where
  spares : ∀ passed left, (passed ++ left).Perm cache.table.toList →
    ((Work.retainInOrder limit c keep passed).run h).1.Spares c cache passed
  few : ∀ order, order.Perm cache.table.toList →
    ∀ s ∈ (Work.retainInOrder limit c keep order).steps h, s.before.Countable
  same : ∀ order, order.Perm cache.table.toList →
    (Work.retainInOrder limit c keep cache.table.toList).SameEnd
      (Work.retainInOrder limit c keep order) h

/-! ### The order in which shards are passed -/

namespace ShardedMap

/-- The entries of the first shards, each once. -/
structure Covers (m : ShardedMap K) (index : Nat) (passed : List (K × SlotId)) : Prop where
  nodup : passed.Nodup
  mem : ∀ key id, (key, id) ∈ passed ↔ m.get? key = some id ∧ m.shardIndex key < index

namespace Covers

variable {m : ShardedMap K} {index : Nat} {passed : List (K × SlotId)}

theorem nil (m : ShardedMap K) : m.Covers 0 [] := ⟨List.nodup_nil, by simp⟩

variable (covers : m.Covers index passed) (ordered : m.Ordered)

include covers ordered

/-- What is left are the entries of the other shards. -/
theorem split : ∃ left, (passed ++ left).Perm m.toList := by
  refine ⟨m.toList.filter fun e => index ≤ m.shardIndex e.1, ?_⟩
  have apart : passed.Disjoint (m.toList.filter fun e => index ≤ m.shardIndex e.1) := by
    rintro ⟨key, id⟩ before after
    have below := ((covers.mem key id).mp before).2
    have above := of_decide_eq_true (List.mem_filter.mp after).2
    dsimp only at above
    omega
  refine (List.perm_ext_iff_of_nodup (covers.nodup.append ((nodup_toList ordered).filter _) apart)
    (nodup_toList ordered)).mpr ?_
  rintro ⟨key, id⟩
  rw [List.mem_append, List.mem_filter, covers.mem, ← get?_eq_some_iff ordered, decide_eq_true_iff]
  have either := Nat.lt_or_ge (m.shardIndex key) index
  tauto

theorem perm (all : index = m.shardCount) : passed.Perm m.toList := by
  refine (List.perm_ext_iff_of_nodup covers.nodup (nodup_toList ordered)).mpr ?_
  rintro ⟨key, id⟩
  rw [covers.mem, ← get?_eq_some_iff ordered, all]
  exact and_iff_left (m.shardIndex_lt key)

omit ordered in
/-- One more shard is covered by what it lists, if what was not passed is as it was. -/
theorem shard {now : ShardedMap K} (also : now.Ordered) (home : now.shardIndex = m.shardIndex)
    (spared : ∀ key, key ∉ passed.map Prod.fst → now.get? key = m.get? key) :
    m.Covers (index + 1) (passed ++ now.shardEntries index) := by
  have listed : ∀ key id, (key, id) ∈ now.shardEntries index ↔
      m.get? key = some id ∧ m.shardIndex key = index := by
    intro key id
    rw [mem_shardEntries_iff also, home]
    refine and_congr_left fun here => ?_
    rw [spared key]
    rintro before
    obtain ⟨e, member, rfl⟩ := List.mem_map.mp before
    have below := ((covers.mem e.1 e.2).mp member).2
    omega
  refine ⟨covers.nodup.append (nodup_shardEntries_keys also index).of_map ?_, fun key id => ?_⟩
  · rintro ⟨key, id⟩ before after
    have below := ((covers.mem key id).mp before).2
    have here := ((listed key id).mp after).2
    omega
  · rw [List.mem_append, covers.mem, listed, Nat.lt_succ_iff_lt_or_eq]
    tauto

end Covers

end ShardedMap

namespace Work

variable {limit : Nat} {c : CacheId} {keep : Predicate K V} {h : Host K V} {cache : Cache K V}

theorem retainInOrder_append (passed left : List (K × SlotId)) :
    retainInOrder limit c keep (passed ++ left) =
      retainInOrder limit c keep passed >>= fun r => left.foldlM (retainEntry limit c keep) r :=
  List.foldlM_append

variable (consistent : h.Consistent) (found : h.cache? c = some cache)
  (spares : ∀ passed left, (passed ++ left).Perm cache.table.toList →
    ((retainInOrder limit c keep passed).run h).1.Spares c cache passed)

include consistent found spares

/-- The shards are passed in some order of their entries. -/
theorem exists_order_shards {index : Nat} {passed : List (K × SlotId)}
    (covers : cache.table.Covers index passed) (shards : Nat) :
    ∃ order, cache.table.Covers (index + shards) order ∧
      let walked := retainInOrder limit c keep passed >>= fun r =>
        (List.range' index shards).foldlM (retainShard limit c keep) r
      (retainInOrder limit c keep order).run h = walked.run h ∧
      (retainInOrder limit c keep order).calls h = walked.calls h := by
  induction shards generalizing index passed with
  | zero =>
    refine ⟨passed, covers, ?_, ?_⟩
    · rw [List.range'_zero, run_bind, List.foldlM_nil, run_pure]
    · rw [List.range'_zero, calls_bind, List.foldlM_nil, calls_pure, List.append_nil]
  | succ shards ih =>
    have ordered := (consistent c cache found).table.toOrdered
    obtain ⟨left, split⟩ := covers.split ordered
    obtain ⟨now, there, spared⟩ := spares passed left split
    have lays : h.Lays c cache.table.shardIndex cache.table.shardCount := ⟨cache, found, rfl, rfl⟩
    have home : now.table.shardIndex = cache.table.shardIndex :=
      ((lays.run _).unique ⟨now, there, rfl, rfl⟩).1.symm
    have also := ((consistent.work (retainInOrder limit c keep passed)).2 c now there).table.toOrdered
    obtain ⟨order, coversAll, ends, calls⟩ := ih (covers.shard also home spared)
    rw [Nat.add_right_comm, Nat.add_assoc] at coversAll
    -- The walk copies the shard as it is when it comes to it.
    have copied : ∀ r, (retainShard limit c keep r index).run
          ((retainInOrder limit c keep passed).run h).1 =
        ((now.table.shardEntries index).foldlM (retainEntry limit c keep) r).run
          ((retainInOrder limit c keep passed).run h).1 ∧
        (retainShard limit c keep r index).calls ((retainInOrder limit c keep passed).run h).1 =
          ((now.table.shardEntries index).foldlM (retainEntry limit c keep) r).calls
            ((retainInOrder limit c keep passed).run h).1 := by
      intro r
      have viewed : ∀ g : Host K V, (make (.view : Move K V)).calls g = [] := fun _ => rfl
      rw [retainShard, run_bind, calls_bind, viewed, run_make, List.nil_append]
      simp only [Move.make, there, and_self]
    refine ⟨order, coversAll, ?_, ?_⟩
    · rw [ends, retainInOrder_append, run_bind, run_bind, run_bind, List.range'_succ,
        List.foldlM_cons, run_bind, (copied _).1]
    · rw [calls, retainInOrder_append, calls_bind, run_bind, calls_bind, calls_bind, List.range'_succ,
        List.foldlM_cons, calls_bind, (copied _).1, (copied _).2, List.append_assoc]

/-- A walk passes the entries in some order, if those that are not passed yet stay as they are. -/
theorem exists_order : ∃ order, order.Perm cache.table.toList ∧
    (retain limit c keep).run h = (retainInOrder limit c keep order).run h ∧
    (retain limit c keep).calls h = (retainInOrder limit c keep order).calls h := by
  obtain ⟨order, covers, ends, calls⟩ :=
    exists_order_shards consistent found spares (.nil cache.table) cache.table.shardCount
  have ordered := (consistent c cache found).table.toOrdered
  have viewed : (make (.view : Move K V)).calls h = [] := rfl
  refine ⟨order, covers.perm ordered (Nat.zero_add _), ?_, ?_⟩
  · rw [ends, retain, run_bind, run_make]
    simp only [Move.make, found, List.range_eq_range']
    rfl
  · rw [calls, retain, calls_bind, viewed, run_make]
    simp only [Move.make, found, List.range_eq_range']
    rfl

end Work

/-! ### Walks side by side -/

/-- The slots of a cache are so many places further on. -/
theorem Cache.Kin.trails {past : Option Past} {c d : Cache K V} (kin : Cache.Kin past c d) :
    c.table.Trails (Past.before past) d.table := by
  cases past with
  | none =>
    cases kin
    intro key
    have same : (fun id : SlotId => Past.before none + id) = id := funext Nat.zero_add
    rw [same, Option.map_id_apply]
  | some p => exact Alike.table kin

namespace Work

variable {past : CacheId → Option Past} {limit : Nat} {c : CacheId} {keep : Predicate K V}
  {h g : Host K V} {cache twin : Cache K V} (alike : h.Alike past g)
  (here : h.cache? c = some cache) (there : g.cache? c = some twin)
  (kin : Cache.Kin (past c) cache twin) (steady : keep.Steady limit c h cache)

include alike here there kin steady

/-- Entries of the twin are passed side by side with those that they stand for. -/
theorem together_retainInOrder {passed left : List (K × SlotId)}
    (split : (passed ++ left).Perm twin.table.toList) :
    (retainInOrder limit c keep
        (passed.map fun e => (e.1, Past.before (past c) + e.2))).Together past Eq
      (retainInOrder limit c keep passed) h g := by
  have listed := (split.map fun e => (e.1, Past.before (past c) + e.2)).trans
    (kin.trails.toList_perm (alike.consistent c cache here).table.toOrdered
      (alike.also c twin there).table.toOrdered)
  rw [List.map_append] at listed
  refine parallel_retainEntries limit c keep .start passed h g alike fun s member => ?_
  refine steady.few _ listed s ?_
  rw [retainInOrder_append, steps_bind]
  exact List.mem_append_left _ member

/-- Entries of the twin that were not passed are as they were. -/
theorem spares_twin {passed left : List (K × SlotId)}
    (split : (passed ++ left).Perm twin.table.toList) :
    ((retainInOrder limit c keep passed).run g).1.Spares c twin passed := by
  have side := together_retainInOrder alike here there kin steady split
  have listed := (split.map fun e => (e.1, Past.before (past c) + e.2)).trans
    (kin.trails.toList_perm (alike.consistent c cache here).table.toOrdered
      (alike.also c twin there).table.toOrdered)
  rw [List.map_append] at listed
  obtain ⟨now, reached, spared⟩ := steady.spares _ _ listed
  rcases side.hosts.twins c with ⟨absent, _⟩ | ⟨later, copy, found, also, close, _⟩
  · rw [absent] at reached
    cases reached
  · rw [found] at reached
    cases reached
    refine ⟨copy, also, fun key left => ?_⟩
    have keys : (passed.map fun e => (e.1, Past.before (past c) + e.2)).map Prod.fst =
        passed.map Prod.fst := by
      rw [List.map_map]
      rfl
    have stays := spared key (keys ▸ left)
    rw [close.trails key, kin.trails key] at stays
    exact Option.map_injective (fun _ _ => Nat.add_left_cancel) stays

/-- On hosts that are alike the same entries are seen and taken out. -/
theorem together_retain_steady :
    (retain limit c keep).Together past (fun r q => q.removed = r.removed ∧ q.seen.Perm r.seen)
      (retain limit c keep) h g := by
  obtain ⟨order, listed, ends, calls⟩ := exists_order alike.consistent here steady.spares
  obtain ⟨other, alsoListed, alsoEnds, alsoCalls⟩ := exists_order alike.also there
    fun passed left split => spares_twin alike here there kin steady split
  have whole : (other ++ []).Perm twin.table.toList := by rwa [List.append_nil]
  have side := together_retainInOrder alike here there kin steady whole
  have shifted := (alsoListed.map fun e => (e.1, Past.before (past c) + e.2)).trans
    (kin.trails.toList_perm (alike.consistent c cache here).table.toOrdered
      (alike.also c twin there).table.toOrdered)
  have first := steady.same _ listed
  have second := steady.same _ shifted
  refine ⟨?_, ⟨?_, ?_⟩, ?_⟩
  · rw [ends, alsoEnds]
    refine side.hosts.of_caches (first.caches.trans second.caches.symm) rfl ?_
    rw [side.hosts.aside, first.aside, second.aside]
  · rw [ends, alsoEnds, ← side.results, second.removed, first.removed]
  · rw [ends, alsoEnds, ← side.results]
    exact second.seen.trans first.seen.symm
  · rw [calls, alsoCalls]
    exact side.calls.trans (second.calls.trans first.calls.symm)

end Work

/-- On hosts that are alike a walk with a steady predicate goes on side by side. -/
theorem Work.together_retain {past : CacheId → Option Past} {limit : Nat} {c : CacheId}
    {keep : Predicate K V} {h g : Host K V} (alike : h.Alike past g)
    (steady : ∀ cache, h.cache? c = some cache → keep.Steady limit c h cache) :
    (retain limit c keep).Together past (fun r q => q.removed = r.removed ∧ q.seen.Perm r.seen)
      (retain limit c keep) h g := by
  rcases alike.twins c with ⟨here, there⟩ | ⟨cache, twin, here, there, kin, _⟩
  · have absent : ∀ {h : Host K V}, h.cache? c = none →
        (retain limit c keep).run h = (h, .start) ∧ (retain limit c keep).calls h = [] := by
      intro h absent
      have viewed : (make (.view : Move K V)).calls h = [] := rfl
      rw [retain, run_bind, calls_bind, viewed, run_make]
      simp only [Move.make, absent]
      exact ⟨rfl, rfl⟩
    obtain ⟨ends, none⟩ := absent here
    obtain ⟨alsoEnds, alsoNone⟩ := absent there
    refine ⟨?_, ?_, ?_⟩
    · rw [ends, alsoEnds]
      exact alike
    · rw [ends, alsoEnds]
      exact ⟨rfl, List.Perm.refl []⟩
    · rw [none, alsoNone]
  · exact together_retain_steady alike here there kin (steady cache here)

end ReclaimableCache
