import Mathlib.Data.List.Nodup
import Mathlib.Data.List.Perm.Basic
import ReclaimableCache.ShardedMap

/-!
# Tables

A sharded map is well formed if every entry stands in the shard that its key belongs in, no shard
holds two entries of one key, and the count of entries is right. Such a map is one finite map: its
listing shows each binding exactly once, and storing and erasing act on the listing as they do on a
plain list of pairs.
-/

namespace ReclaimableCache

/-- Without duplicate keys, a look-up is membership. -/
theorem lookup_eq_some_iff_mem {K : Type} [DecidableEq K] {entries : List (K × SlotId)}
    (distinct : (entries.map Prod.fst).Nodup) {key : K} {id : SlotId} :
    entries.lookup key = some id ↔ (key, id) ∈ entries := by
  constructor
  · intro found
    obtain ⟨before, behind, rfl, _⟩ := List.lookup_eq_some_iff.mp found
    exact List.mem_append_right _ List.mem_cons_self
  · intro member
    have bound : (entries.lookup key).isSome :=
      List.lookup_isSome_iff.mpr ⟨(key, id), member, beq_self_eq_true key⟩
    obtain ⟨other, found⟩ := Option.isSome_iff_exists.mp bound
    obtain ⟨before, behind, split, _⟩ := List.lookup_eq_some_iff.mp found
    have there : (key, other) ∈ entries := split ▸ List.mem_append_right _ List.mem_cons_self
    have same : (key, other) = (key, id) := List.inj_on_of_nodup_map distinct there member rfl
    rw [found, (Prod.mk.inj same).2]

namespace ShardedMap

variable {K : Type}

/-- Every entry stands in the shard that its key belongs in, and no shard holds two entries of one
    key. -/
structure Ordered (m : ShardedMap K) : Prop where
  placed : ∀ (i : Nat) (s : Shard K), m.shards[i]? = some s → ∀ e ∈ s.entries,
    m.shardIndex e.1 = i
  distinct : ∀ (i : Nat) (s : Shard K), m.shards[i]? = some s → (s.entries.map Prod.fst).Nodup

/-- An ordered map whose entries are counted. -/
structure WellFormed (m : ShardedMap K) : Prop extends m.Ordered where
  counted : m.size = m.toList.length

/-! ### The listing -/

theorem mem_shardEntries {m : ShardedMap K} {i : Nat} {e : K × SlotId} :
    e ∈ m.shardEntries i ↔ ∃ s, m.shards[i]? = some s ∧ e ∈ s.entries := by
  rw [shardEntries, shardEntries?]
  cases m.shards[i]? with
  | none => simp
  | some s => simp [Shard.mem_listing]

/-- The listing holds the entries of all shards and no others. -/
theorem mem_toList {m : ShardedMap K} {e : K × SlotId} :
    e ∈ m.toList ↔ ∃ (i : Nat) (s : Shard K), m.shards[i]? = some s ∧ e ∈ s.entries := by
  simp only [toList, List.mem_flatMap, List.mem_range, mem_shardEntries]
  constructor
  · rintro ⟨i, _, s, found, member⟩
    exact ⟨i, s, found, member⟩
  · rintro ⟨i, s, found, member⟩
    exact ⟨i, (Array.getElem?_eq_some_iff.mp found).1, s, found, member⟩

theorem nodup_shardEntries_keys {m : ShardedMap K} (ordered : m.Ordered) (i : Nat) :
    ((m.shardEntries i).map Prod.fst).Nodup := by
  rw [shardEntries, shardEntries?]
  cases found : m.shards[i]? with
  | none => simp
  | some s =>
    have listed := (m.hasher.arrange_perm s.edits s.entries).map Prod.fst
    exact listed.nodup_iff.mpr (ordered.distinct i s found)

/-- The listing shows each key once. -/
theorem nodup_toList_keys {m : ShardedMap K} (ordered : m.Ordered) :
    (m.toList.map Prod.fst).Nodup := by
  rw [toList, List.map_flatMap, List.nodup_flatMap]
  refine ⟨fun i _ => nodup_shardEntries_keys ordered i, ?_⟩
  refine (List.nodup_range (n := m.shardCount)).imp fun {i j} different => ?_
  intro key inFirst inSecond
  obtain ⟨e, he, rfl⟩ := List.mem_map.mp inFirst
  obtain ⟨d, hd, same⟩ := List.mem_map.mp inSecond
  obtain ⟨s, foundFirst, he⟩ := mem_shardEntries.mp he
  obtain ⟨t, foundSecond, hd⟩ := mem_shardEntries.mp hd
  apply different
  rw [← ordered.placed i s foundFirst e he, ← ordered.placed j t foundSecond d hd, same]

theorem nodup_toList {m : ShardedMap K} (ordered : m.Ordered) : m.toList.Nodup :=
  (nodup_toList_keys ordered).of_map

/-! ### Changes keep the order -/

theorem ordered_empty (hasher : Hasher K) (shardCount : Nat) :
    (empty hasher shardCount).Ordered := by
  constructor <;> intro i s found <;> simp only [empty, Array.getElem?_replicate] at found <;>
    split at found <;> cases found <;> simp [Shard.empty]

theorem ordered_clear (m : ShardedMap K) : m.clear.Ordered := by
  constructor <;> intro i s found <;>
    simp only [clear, Array.getElem?_map, Option.map_eq_some_iff] at found <;>
    obtain ⟨t, _, rfl⟩ := found <;> simp [Shard.clear]

/-- Changing one shard keeps a map ordered if the shard stays in order. -/
theorem Ordered.modifyShard {m : ShardedMap K} (ordered : m.Ordered) (index size : Nat)
    (f : Shard K → Shard K)
    (placed : ∀ s, m.shards[index]? = some s → ∀ e ∈ (f s).entries, m.shardIndex e.1 = index)
    (distinct : ∀ s, m.shards[index]? = some s → ((f s).entries.map Prod.fst).Nodup) :
    (m.modifyShard index f size).Ordered := by
  have sameIndex : ∀ key, (m.modifyShard index f size).shardIndex key = m.shardIndex key := by
    intro key
    simp only [shardIndex, shardCount, ShardedMap.modifyShard, Array.size_modify]
  have split : ∀ (i : Nat) (t : Shard K), (m.modifyShard index f size).shards[i]? = some t →
      (i = index ∧ ∃ s, m.shards[index]? = some s ∧ t = f s) ∨ m.shards[i]? = some t := by
    intro i t found
    simp only [ShardedMap.modifyShard, Array.getElem?_modify] at found
    by_cases here : index = i
    · rw [if_pos here, Option.map_eq_some_iff] at found
      obtain ⟨s, found, rfl⟩ := found
      exact Or.inl ⟨here.symm, s, here ▸ found, rfl⟩
    · exact Or.inr (by rwa [if_neg here] at found)
  constructor
  · intro i t found e member
    rw [sameIndex]
    rcases split i t found with ⟨rfl, s, there, rfl⟩ | there
    · exact placed s there e member
    · exact ordered.placed i t there e member
  · intro i t found
    rcases split i t found with ⟨rfl, s, there, rfl⟩ | there
    · exact distinct s there
    · exact ordered.distinct i t there

section

variable [DecidableEq K]

/-! ### The listing as a map -/

/-- The listing shows what look-ups find. -/
theorem get?_eq_some_iff {m : ShardedMap K} (ordered : m.Ordered) {key : K} {id : SlotId} :
    m.get? key = some id ↔ (key, id) ∈ m.toList := by
  rw [get?, mem_toList, Option.bind_eq_some_iff]
  constructor
  · rintro ⟨s, found, bound⟩
    have distinct := ordered.distinct _ s found
    exact ⟨_, s, found, (lookup_eq_some_iff_mem distinct).mp bound⟩
  · rintro ⟨i, s, found, member⟩
    have home : m.shardIndex key = i := ordered.placed i s found _ member
    subst home
    have distinct := ordered.distinct _ s found
    exact ⟨s, found, (lookup_eq_some_iff_mem distinct).mpr member⟩

/-- A shard shows what look-ups of its keys find. -/
theorem mem_shardEntries_iff {m : ShardedMap K} (ordered : m.Ordered) {i : Nat} {key : K}
    {id : SlotId} :
    (key, id) ∈ m.shardEntries i ↔ m.get? key = some id ∧ m.shardIndex key = i := by
  rw [mem_shardEntries, get?_eq_some_iff ordered, mem_toList]
  constructor
  · rintro ⟨s, found, member⟩
    exact ⟨⟨i, s, found, member⟩, ordered.placed i s found _ member⟩
  · rintro ⟨⟨j, s, found, member⟩, home⟩
    have same : j = i := (ordered.placed j s found _ member).symm.trans home
    exact ⟨s, same ▸ found, member⟩

theorem Ordered.insert {m : ShardedMap K} (ordered : m.Ordered) (key : K) (id : SlotId) :
    (m.insert key id).Ordered := by
  apply ordered.modifyShard
  · intro s found e member
    simp only [Shard.insert, List.mem_append, List.mem_singleton] at member
    rcases member with member | rfl
    · exact ordered.placed _ s found e (List.mem_filter.mp member).1
    · rfl
  · intro s found
    have kept := (List.filter_sublist (p := fun e : K × SlotId => decide (e.1 ≠ key))
      (l := s.entries)).map Prod.fst
    simp only [Shard.insert, List.map_append, List.nodup_append]
    refine ⟨kept.nodup (ordered.distinct _ s found), by simp, ?_⟩
    intro a inKept b inNew same
    obtain ⟨e, he, rfl⟩ := List.mem_map.mp inKept
    have other := (List.mem_filter.mp he).2
    simp only [List.map_cons, List.map_nil, List.mem_singleton] at inNew
    simp [same, inNew] at other

theorem Ordered.erase {m : ShardedMap K} (ordered : m.Ordered) (key : K) :
    (m.erase key).Ordered := by
  unfold ShardedMap.erase
  split
  · apply ordered.modifyShard
    · intro s found e member
      exact ordered.placed _ s found e (List.mem_filter.mp member).1
    · intro s found
      have kept := (List.filter_sublist (p := fun e : K × SlotId => decide (e.1 ≠ key))
        (l := s.entries)).map Prod.fst
      exact kept.nodup (ordered.distinct _ s found)
  · exact ordered

/-- Erasing takes the binding of the key out of the listing. -/
theorem perm_toList_erase {m : ShardedMap K} (ordered : m.Ordered) (key : K) :
    (m.erase key).toList.Perm (m.toList.filter fun e => e.1 ≠ key) := by
  refine (List.perm_ext_iff_of_nodup (nodup_toList (ordered.erase key))
    ((nodup_toList ordered).filter _)).mpr ?_
  rintro ⟨k, id⟩
  rw [← get?_eq_some_iff (ordered.erase key), get?_erase, List.mem_filter,
    ← get?_eq_some_iff ordered]
  by_cases equal : k = key <;> simp [equal]

/-- Storing puts a binding in the place of the one of the same key. -/
theorem perm_toList_insert {m : ShardedMap K} (ordered : m.Ordered) (key : K) (id : SlotId) :
    (m.insert key id).toList.Perm ((key, id) :: m.toList.filter fun e => e.1 ≠ key) := by
  have fresh : (key, id) ∉ m.toList.filter fun e => e.1 ≠ key := by simp
  refine (List.perm_ext_iff_of_nodup (nodup_toList (ordered.insert key id))
    (List.nodup_cons.mpr ⟨fresh, (nodup_toList ordered).filter _⟩)).mpr ?_
  rintro ⟨k, slot⟩
  rw [← get?_eq_some_iff (ordered.insert key id), get?_insert, List.mem_cons, List.mem_filter,
    ← get?_eq_some_iff ordered]
  by_cases equal : k = key
  · simp [equal, eq_comm]
  · simp [equal]

/-- The bindings of other keys are all but one if the key is bound, and all if it is not. -/
theorem length_filter_ne {m : ShardedMap K} (ordered : m.Ordered) (key : K) :
    (m.toList.filter fun e => e.1 ≠ key).length =
      if m.contains key then m.toList.length - 1 else m.toList.length := by
  cases bound : m.get? key with
  | none =>
    have absent : ∀ e ∈ m.toList, e.1 ≠ key := by
      rintro ⟨k, id⟩ member rfl
      rw [(get?_eq_some_iff ordered).mpr member] at bound
      cases bound
    rw [List.filter_eq_self.mpr (by simpa using absent)]
    simp [contains, bound]
  | some id =>
    have member := (get?_eq_some_iff ordered).mp bound
    have rest : m.toList.Perm ((key, id) :: m.toList.filter fun e => e.1 ≠ key) := by
      refine (List.perm_ext_iff_of_nodup (nodup_toList ordered) (List.nodup_cons.mpr
        ⟨by simp, (nodup_toList ordered).filter _⟩)).mpr ?_
      rintro ⟨k, slot⟩
      rw [List.mem_cons, List.mem_filter, ← get?_eq_some_iff ordered]
      by_cases equal : k = key
      · simp [equal, bound, eq_comm]
      · simp [equal]
    rw [rest.length_eq]
    simp [contains, bound]

theorem wellFormed_empty (hasher : Hasher K) (shardCount : Nat) :
    (empty hasher shardCount).WellFormed := by
  refine ⟨ordered_empty hasher shardCount, ?_⟩
  have none : (empty hasher shardCount).toList = [] := by
    rw [List.eq_nil_iff_forall_not_mem]
    rintro ⟨key, id⟩ member
    rw [← get?_eq_some_iff (ordered_empty hasher shardCount), get?_empty] at member
    cases member
  rw [none]
  rfl

theorem toList_clear (m : ShardedMap K) : m.clear.toList = [] := by
  rw [List.eq_nil_iff_forall_not_mem]
  rintro ⟨key, id⟩ member
  rw [← get?_eq_some_iff (ordered_clear m), get?_clear] at member
  cases member

theorem wellFormed_clear (m : ShardedMap K) : m.clear.WellFormed :=
  ⟨ordered_clear m, by rw [toList_clear]; rfl⟩

theorem WellFormed.insert {m : ShardedMap K} (wf : m.WellFormed) (key : K) (id : SlotId) :
    (m.insert key id).WellFormed := by
  refine ⟨wf.toOrdered.insert key id, ?_⟩
  rw [(perm_toList_insert wf.toOrdered key id).length_eq, List.length_cons,
    length_filter_ne wf.toOrdered, ShardedMap.insert, ShardedMap.modifyShard, wf.counted]
  by_cases bound : m.contains key
  · have positive : 0 < m.toList.length := by
      obtain ⟨slot, found⟩ := Option.isSome_iff_exists.mp bound
      exact List.length_pos_of_mem ((get?_eq_some_iff wf.toOrdered).mp found)
    simp only [bound, if_true]
    omega
  · simp [bound]

theorem WellFormed.erase {m : ShardedMap K} (wf : m.WellFormed) (key : K) :
    (m.erase key).WellFormed := by
  refine ⟨wf.toOrdered.erase key, ?_⟩
  rw [(perm_toList_erase wf.toOrdered key).length_eq, length_filter_ne wf.toOrdered,
    ShardedMap.erase]
  by_cases bound : m.contains key
  · simp only [bound, if_true, ShardedMap.modifyShard, wf.counted]
  · simp [bound, wf.counted]

theorem WellFormed.eraseIfSame {m : ShardedMap K} (wf : m.WellFormed) (key : K) (id : SlotId) :
    (m.eraseIfSame key id).WellFormed := by
  unfold ShardedMap.eraseIfSame
  split
  · exact wf.erase key
  · exact wf

/-! ### Sizes -/

theorem size_insert (m : ShardedMap K) (key : K) (id : SlotId) :
    (m.insert key id).size = m.size + (m.get? key).isNone.toNat := by
  rw [ShardedMap.insert, modifyShard, contains]
  cases m.get? key <;> rfl

theorem WellFormed.size_pos {m : ShardedMap K} (wf : m.WellFormed) {key : K} {id : SlotId}
    (bound : m.get? key = some id) : 0 < m.size :=
  wf.counted ▸ List.length_pos_of_mem ((get?_eq_some_iff wf.toOrdered).mp bound)

theorem WellFormed.size_erase {m : ShardedMap K} (wf : m.WellFormed) (key : K) :
    (m.erase key).size + (m.get? key).isSome.toNat = m.size := by
  rw [ShardedMap.erase, modifyShard, contains]
  cases bound : m.get? key with
  | none => rfl
  | some id =>
    have positive := wf.size_pos bound
    simp only [Option.isSome_some, if_true, Bool.toNat_true]
    omega

theorem WellFormed.size_eraseIfSame {m : ShardedMap K} (wf : m.WellFormed) (key : K)
    (id : SlotId) : (m.eraseIfSame key id).size + (m.isCurrent key id).toNat = m.size := by
  rw [ShardedMap.eraseIfSame]
  cases current : m.isCurrent key id with
  | false => simp
  | true =>
    have bound := (m.isCurrent_iff key id).mp current
    have erased := wf.size_erase key
    rw [bound] at erased
    simpa using erased

end

end ShardedMap

end ReclaimableCache
