import ReclaimableCache.Fault
import ReclaimableCache.Hasher

/-!
# The sharded map

A map from keys to slots, split into shards: a key is in the shard that its digest names. The map
keeps a count of its entries beside them. Listings go shard by shard; inside a shard the order is
the hasher's.
-/

namespace ReclaimableCache

/-- One part of the map, with the number of changes that it has seen. -/
structure Shard (K : Type) where
  entries : List (K × SlotId)
  edits : Nat

namespace Shard

variable {K : Type}

/-- A shard that nothing was ever stored in. -/
def empty : Shard K := ⟨[], 0⟩

section

variable [DecidableEq K]

/-- The slot under a key. -/
def get? (s : Shard K) (key : K) : Option SlotId := s.entries.lookup key

/-- Takes the entry of a key out. -/
def erase (s : Shard K) (key : K) : Shard K :=
  ⟨s.entries.filter fun e => e.1 ≠ key, s.edits + 1⟩

/-- Stores a slot under a key in place of the one that was there. -/
def insert (s : Shard K) (key : K) (id : SlotId) : Shard K :=
  ⟨s.entries.filter (fun e => e.1 ≠ key) ++ [(key, id)], s.edits + 1⟩

end

/-- Takes all entries out, which changes nothing if there are none. -/
def clear (s : Shard K) : Shard K :=
  ⟨[], if s.entries.isEmpty then s.edits else s.edits + 1⟩

/-- The entries in the hasher's order. -/
def listing (s : Shard K) (hasher : Hasher K) : List (K × SlotId) :=
  hasher.arrange s.edits s.entries

section

variable [DecidableEq K]

/-- A list without the entries of a key has nothing under that key, and else what it had. -/
theorem lookup_filter_ne {α : Type} (entries : List (K × α)) (key k : K) :
    (entries.filter fun e => e.1 ≠ key).lookup k =
      if k = key then none else entries.lookup k := by
  induction entries with
  | nil => simp
  | cons e entries ih =>
    obtain ⟨head, id⟩ := e
    by_cases removed : head = key
    · rw [List.filter_cons_of_neg (by simp [removed]), ih]
      by_cases equal : k = key
      · rw [if_pos equal, if_pos equal]
      · have other : (k == head) = false := by simp [removed, equal]
        rw [if_neg equal, if_neg equal, List.lookup_cons, other]
    · rw [List.filter_cons_of_pos (by simp [removed]), List.lookup_cons, List.lookup_cons, ih]
      by_cases equal : k = head
      · subst equal
        simp [removed]
      · have other : (k == head) = false := by simp [equal]
        rw [other]

@[simp] theorem get?_empty (k : K) : (empty : Shard K).get? k = none := rfl

theorem get?_erase (s : Shard K) (key k : K) :
    (s.erase key).get? k = if k = key then none else s.get? k :=
  lookup_filter_ne s.entries key k

theorem get?_insert (s : Shard K) (key k : K) (id : SlotId) :
    (s.insert key id).get? k = if k = key then some id else s.get? k := by
  simp only [insert, get?]
  rw [List.lookup_append, lookup_filter_ne]
  by_cases equal : k = key
  · simp [equal]
  · have other : (k == key) = false := by simp [equal]
    rw [if_neg equal, if_neg equal, List.lookup_cons, other, List.lookup_nil, Option.or_none]

@[simp] theorem get?_clear (s : Shard K) (k : K) : s.clear.get? k = none := rfl

end

/-- However a shard is listed, its entries are those that were put in. -/
theorem mem_listing (s : Shard K) (hasher : Hasher K) (e : K × SlotId) :
    e ∈ s.listing hasher ↔ e ∈ s.entries :=
  (hasher.arrange_perm s.edits s.entries).mem_iff

end Shard

/-- A map from keys to slots in one or more shards. -/
structure ShardedMap (K : Type) where
  hasher : Hasher K
  shards : Array (Shard K)
  /-- The number of entries, kept as they come and go. -/
  size : Nat
  nonempty : 0 < shards.size

namespace ShardedMap

variable {K : Type}

/-- A map without entries; it has one shard at least. -/
def empty (hasher : Hasher K) (shardCount : Nat) : ShardedMap K where
  hasher := hasher
  shards := Array.replicate (max shardCount 1) Shard.empty
  size := 0
  nonempty := by
    rw [Array.size_replicate]
    omega

/-- The bytes that an empty shard takes. -/
def shardBytes : Nat := 56

/-- A map without entries, if there can be room for its shards. -/
def create (hasher : Hasher K) (shardCount : Nat) : Except Panic (ShardedMap K) := do
  Panic.reserve shardCount shardBytes
  return empty hasher shardCount

/-- The number of shards. -/
def shardCount (m : ShardedMap K) : Nat := m.shards.size

/-- The shard that a key belongs in. -/
def shardIndex (m : ShardedMap K) (key : K) : Nat :=
  (m.hasher.digest key).toNat % m.shardCount

/-- The entries of a shard; there is none past the last. -/
def shardEntries? (m : ShardedMap K) (index : Nat) : Option (List (K × SlotId)) :=
  m.shards[index]?.map fun s => s.listing m.hasher

/-- The entries of a shard, none if there is no such shard. -/
def shardEntries (m : ShardedMap K) (index : Nat) : List (K × SlotId) :=
  (m.shardEntries? index).getD []

/-- All entries, shard by shard. -/
def toList (m : ShardedMap K) : List (K × SlotId) :=
  (List.range m.shardCount).flatMap m.shardEntries

/-- The slots of all entries, shard by shard from shard `start` on and round to it again. -/
def slotsFrom (m : ShardedMap K) (start : Nat) : List SlotId :=
  (List.range m.shardCount).flatMap fun offset =>
    (m.shardEntries ((start + offset) % m.shardCount)).map Prod.snd

/-- Visits list elements in turn until a visit asks to stop. -/
def visitWhile {α σ : Type} (visit : σ → α → σ × Bool) : σ → List α → σ
  | state, [] => state
  | state, a :: rest =>
      match visit state a with
      | (state, true) => visitWhile visit state rest
      | (state, false) => state

/-- Visits slots from shard `start` on until a visit asks to stop. -/
def visitFrom {σ : Type} (m : ShardedMap K) (start : Nat) (visit : σ → SlotId → σ × Bool)
    (state : σ) : σ :=
  visitWhile visit state (m.slotsFrom start)

/-- Visits every entry, one shard after the other. -/
def visitAll {σ : Type} (m : ShardedMap K) (visit : σ → K × SlotId → σ) (state : σ) : σ :=
  m.shards.foldl (fun state s => (s.listing m.hasher).foldl visit state) state

/-- Takes every entry out. -/
def clear (m : ShardedMap K) : ShardedMap K where
  hasher := m.hasher
  shards := m.shards.map Shard.clear
  size := 0
  nonempty := by
    rw [Array.size_map]
    exact m.nonempty

/-- Every key belongs in one of the shards. -/
theorem shardIndex_lt (m : ShardedMap K) (key : K) : m.shardIndex key < m.shards.size :=
  Nat.mod_lt _ m.nonempty

/-- Every entry is visited once, in the order of the listing. -/
theorem visitAll_eq {σ : Type} (m : ShardedMap K) (visit : σ → K × SlotId → σ) (state : σ) :
    m.visitAll visit state = m.toList.foldl visit state := by
  have shard : ∀ i ∈ List.range m.shards.size,
      m.shardEntries i = ((m.shards.toList.map fun s => s.listing m.hasher)[i]?).getD [] := by
    intro i _
    simp [shardEntries, shardEntries?]
  have listed : m.toList = (m.shards.toList.map fun s => s.listing m.hasher).flatten := by
    unfold toList shardCount
    rw [List.flatMap_def, List.map_congr_left shard]
    congr 1
    apply List.ext_getElem
    · simp
    · intro i _ inside
      simp at inside
      simp [inside]
  rw [listed, List.foldl_flatten, List.foldl_map, visitAll, Array.foldl_toList]

section

variable [DecidableEq K]

/-- The slot under a key. -/
def get? (m : ShardedMap K) (key : K) : Option SlotId :=
  m.shards[m.shardIndex key]?.bind fun s => s.get? key

/-- Whether a key has an entry. -/
def contains (m : ShardedMap K) (key : K) : Bool := (m.get? key).isSome

/-- Whether a slot is the one under a key. -/
def isCurrent (m : ShardedMap K) (key : K) (id : SlotId) : Bool := m.get? key == some id

/-- Changes one shard and sets the number of entries. -/
def modifyShard (m : ShardedMap K) (index : Nat) (f : Shard K → Shard K) (size : Nat) :
    ShardedMap K where
  hasher := m.hasher
  shards := m.shards.modify index f
  size := size
  nonempty := by
    rw [Array.size_modify]
    exact m.nonempty

/-- Stores a slot under a key in place of the one that was there. -/
def insert (m : ShardedMap K) (key : K) (id : SlotId) : ShardedMap K :=
  m.modifyShard (m.shardIndex key) (fun s => s.insert key id)
    (if m.contains key then m.size else m.size + 1)

/-- Takes the entry of a key out, if there is one. -/
def erase (m : ShardedMap K) (key : K) : ShardedMap K :=
  if m.contains key then
    m.modifyShard (m.shardIndex key) (fun s => s.erase key) (m.size - 1)
  else m

/-- Takes the entry of a key out if it leads to a given slot. -/
def eraseIfSame (m : ShardedMap K) (key : K) (id : SlotId) : ShardedMap K :=
  if m.isCurrent key id then m.erase key else m

@[simp] theorem isCurrent_iff (m : ShardedMap K) (key : K) (id : SlotId) :
    m.isCurrent key id = true ↔ m.get? key = some id := by
  simp [isCurrent]

@[simp] theorem get?_empty (hasher : Hasher K) (shardCount : Nat) (k : K) :
    (empty hasher shardCount).get? k = none := by
  have inside := shardIndex_lt (empty hasher shardCount) k
  simp only [get?, empty, Array.size_replicate] at inside ⊢
  rw [Array.getElem?_replicate, if_pos inside]
  rfl

@[simp] theorem get?_clear (m : ShardedMap K) (k : K) : m.clear.get? k = none := by
  simp only [get?]
  generalize m.clear.shardIndex k = index
  simp only [clear, Array.getElem?_map]
  cases m.shards[index]? <;> rfl

/-- A look-up after one shard changed sees the change only if the key belongs in that shard. -/
theorem get?_modifyShard (m : ShardedMap K) (index size : Nat) (f : Shard K → Shard K) (k : K) :
    (m.modifyShard index f size).get? k =
      if index = m.shardIndex k then (m.shards[index]?).bind fun s => (f s).get? k
      else m.get? k := by
  have sameIndex : (m.modifyShard index f size).shardIndex k = m.shardIndex k := by
    simp only [shardIndex, shardCount, modifyShard, Array.size_modify]
  simp only [get?]
  rw [sameIndex]
  simp only [modifyShard, Array.getElem?_modify]
  by_cases same : index = m.shardIndex k
  · rw [if_pos same, if_pos same, Option.bind_map, same]
    rfl
  · rw [if_neg same, if_neg same]

/-- A key that is inserted leads to its slot, and the others to theirs. -/
theorem get?_insert (m : ShardedMap K) (key k : K) (id : SlotId) :
    (m.insert key id).get? k = if k = key then some id else m.get? k := by
  have inside := m.shardIndex_lt key
  rw [insert, get?_modifyShard]
  by_cases same : m.shardIndex key = m.shardIndex k
  · rw [if_pos same, get?, ← same, Array.getElem?_eq_getElem inside]
    simp only [Option.bind_some, Shard.get?_insert]
  · have other : k ≠ key := fun h => same (by rw [h])
    rw [if_neg same, if_neg other]

theorem get?_erase (m : ShardedMap K) (key k : K) :
    (m.erase key).get? k = if k = key then none else m.get? k := by
  have inside := m.shardIndex_lt key
  by_cases present : m.contains key = true
  · rw [erase, if_pos present, get?_modifyShard]
    by_cases same : m.shardIndex key = m.shardIndex k
    · rw [if_pos same, get?, ← same, Array.getElem?_eq_getElem inside]
      simp only [Option.bind_some, Shard.get?_erase]
    · have other : k ≠ key := fun h => same (by rw [h])
      rw [if_neg same, if_neg other]
  · have absent : m.get? key = none := by simpa [contains] using present
    rw [erase, if_neg present]
    by_cases equal : k = key
    · rw [if_pos equal, equal, absent]
    · rw [if_neg equal]

/-- Taking out by slot changes only the key that leads to that slot. -/
theorem get?_eraseIfSame (m : ShardedMap K) (key k : K) (id : SlotId) :
    (m.eraseIfSame key id).get? k =
      if k = key ∧ m.get? key = some id then none else m.get? k := by
  by_cases current : m.get? key = some id
  · rw [eraseIfSame, if_pos ((m.isCurrent_iff key id).mpr current), get?_erase]
    simp [current]
  · have stale : m.isCurrent key id = false := by simpa [isCurrent] using current
    simp [eraseIfSame, stale, current]

end

end ShardedMap

end ReclaimableCache
