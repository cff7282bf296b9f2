import ReclaimableCache.Proofs.Consistency

/-!
# Released values

What it means that the values of some slots are released: each of them was live, none is released
twice, and all other slots stay as they are. A reclaim releases one value in this sense; a pass
releases the values of the first slots in the order of its walk that are live and have no pins.
-/

namespace ReclaimableCache

variable {K V : Type}

namespace SlotPool

/-! ### Releasing values of slots -/

/-- One pool is the other once the values of the victims are released. -/
structure Releases (p q : SlotPool K V) (victims : List (Victim K V)) : Prop where
  nodup : (victims.map Victim.id).Nodup
  were : ∀ v ∈ victims, ∃ slot, p.get? v.id = some slot ∧ slot.key = v.key ∧
    slot.content = v.value ∧ slot.live = true
  get? : ∀ id, q.get? id =
    if id ∈ victims.map Victim.id then (p.get? id).map Slot.released else p.get? id
  nextId : q.nextId = p.nextId

theorem Releases.nothing (p : SlotPool K V) : p.Releases p [] :=
  ⟨List.nodup_nil, by simp, by simp, rfl⟩

/-- A value that is released is not released again. -/
theorem Releases.append {p q r : SlotPool K V} {vs ws : List (Victim K V)}
    (first : p.Releases q vs) (second : q.Releases r ws) : p.Releases r (vs ++ ws) := by
  have apart : ∀ v ∈ vs, ∀ w ∈ ws, v.id ≠ w.id := by
    intro v inFirst w inSecond same
    obtain ⟨slot, found, _, _, live⟩ := second.were w inSecond
    rw [← same, first.get?, if_pos (List.mem_map_of_mem inFirst), Option.map_eq_some_iff] at found
    obtain ⟨old, _, rfl⟩ := found
    cases live
  refine ⟨?_, ?_, ?_, second.nextId.trans first.nextId⟩
  · rw [List.map_append, List.nodup_append]
    refine ⟨first.nodup, second.nodup, ?_⟩
    intro a firstIds b secondIds
    obtain ⟨v, inFirst, rfl⟩ := List.mem_map.mp firstIds
    obtain ⟨w, inSecond, rfl⟩ := List.mem_map.mp secondIds
    exact apart v inFirst w inSecond
  · intro v member
    rcases List.mem_append.mp member with inFirst | inSecond
    · exact first.were v inFirst
    · obtain ⟨slot, found, facts⟩ := second.were v inSecond
      have kept : v.id ∉ vs.map Victim.id := by
        intro released
        obtain ⟨w, inFirst, same⟩ := List.mem_map.mp released
        exact apart w inFirst v inSecond same
      rw [first.get?, if_neg kept] at found
      exact ⟨slot, found, facts⟩
  · intro id
    rw [second.get?, first.get?, List.map_append]
    by_cases inSecond : id ∈ ws.map Victim.id
    · have kept : id ∉ vs.map Victim.id := by
        intro released
        obtain ⟨v, inFirst, same⟩ := List.mem_map.mp released
        obtain ⟨w, inSecond, equal⟩ := List.mem_map.mp inSecond
        exact apart v inFirst w inSecond (same.trans equal.symm)
      simp [inSecond, kept]
    · simp [inSecond]

/-- Letting go of the value in one slot, in which nothing else changes. -/
theorem releases_modify {p : SlotPool K V} {id : SlotId} {slot : Slot K V}
    (found : p.get? id = some slot) :
    p.Releases (p.modify id fun _ => slot.released)
      (slot.value?.map fun value => (⟨id, slot.key, value⟩ : Victim K V)).toList := by
  have released : ∀ k, (p.modify id fun _ => slot.released).get? k =
      if k = id then (p.get? k).map Slot.released else p.get? k := by
    intro k
    rw [get?_modify]
    by_cases here : k = id
    · subst here
      simp [found]
    · simp [here, Ne.symm here]
  cases live : slot.live with
  | true =>
    have value : slot.value? = some slot.content := by rw [Slot.value?, live]; rfl
    rw [value]
    refine ⟨List.nodup_singleton _, ?_, ?_, nextId_modify p _ id⟩
    · intro v member
      rw [Option.map_some, Option.toList_some, List.mem_singleton] at member
      subst member
      exact ⟨slot, found, rfl, rfl, live⟩
    · intro k
      simp [released]
  | false =>
    have value : slot.value? = none := by rw [Slot.value?, live]; rfl
    have already : slot.released = slot := by rw [Slot.released, ← live]
    rw [value]
    refine ⟨List.nodup_nil, by simp, fun k => ?_, nextId_modify p _ id⟩
    rw [released]
    by_cases here : k = id
    · subst here
      simp [found, already]
    · simp [here]

theorem releases_detach (p : SlotPool K V) (id : SlotId) :
    p.Releases (p.detach id).1 (p.detach id).2.toList := by
  rw [detach]
  cases found : p.get? id with
  | none => exact .nothing p
  | some slot => exact releases_modify found

theorem get?_modify_self {p : SlotPool K V} {id : SlotId} {slot : Slot K V}
    (found : p.get? id = some slot) (k : SlotId) :
    (p.modify id fun _ => slot).get? k = p.get? k := by
  rw [get?_modify]
  by_cases here : id = k
  · subst here
    simp [found]
  · simp [here]

theorem releases_detachUnlessPinned (p : SlotPool K V) (id : SlotId) :
    p.Releases (p.detachUnlessPinned id).1 (p.detachUnlessPinned id).2.toList := by
  rw [detachUnlessPinned]
  cases found : p.get? id with
  | none => exact .nothing p
  | some slot =>
    dsimp only
    unfold Slot.detachUnlessPinned
    split
    · exact releases_modify found
    · exact ⟨List.nodup_nil, by simp, by simp [get?_modify_self found], nextId_modify p _ id⟩

theorem releases_detachAll (p : SlotPool K V) (ids : List SlotId) :
    p.Releases (p.detachAll ids).1 (p.detachAll ids).2 := by
  induction ids generalizing p with
  | nil => exact .nothing p
  | cons id ids ih => exact (releases_detachUnlessPinned p id).append (ih _)

/-- Slots without pins that are live, each named once, all lose their values and no others do. -/
theorem ids_detachAll {p : SlotPool K V} {ids : List SlotId} (distinct : ids.Nodup)
    (ready : ∀ id ∈ ids, p.evictable id = true) : (p.detachAll ids).2.map Victim.id = ids := by
  induction ids generalizing p with
  | nil => rfl
  | cons id ids ih =>
    have first := List.nodup_cons.mp distinct
    have here := ready id List.mem_cons_self
    rw [evictable] at here
    cases found : p.get? id with
    | none => simp [found] at here
    | some slot =>
      simp only [found, Option.any_some, Slot.evictable, Bool.and_eq_true, beq_iff_eq] at here
      have taken : p.detachUnlessPinned id =
          (p.modify id fun _ => slot.released, some ⟨id, slot.key, slot.content⟩) := by
        simp [detachUnlessPinned, found, Slot.detachUnlessPinned, here.2, Slot.detach, Slot.value?,
          here.1]
      rw [detachAll, taken, Option.toList_some, List.singleton_append, List.map_cons]
      congr 1
      apply ih first.2
      intro k member
      have other : id ≠ k := by
        rintro rfl
        exact first.1 member
      rw [evictable, get?_modify, if_neg other]
      exact ready k (List.mem_cons_of_mem _ member)

end SlotPool

/-! ### Dead slots -/

namespace SlotPool

/-- Whether the value of a slot is released. -/
def isDead (p : SlotPool K V) (id : SlotId) : Bool := (p.get? id).any fun slot => !slot.live

theorem isDead_iff {p : SlotPool K V} {id : SlotId} :
    p.isDead id = true ↔ ∃ slot, p.get? id = some slot ∧ slot.live = false := by
  rw [isDead, Option.any_eq_true]
  simp

/-- A slot that was made is either live or dead. -/
theorem isLive_eq_not_isDead {p : SlotPool K V} {id : SlotId} (known : id < p.nextId) :
    p.isLive id = !p.isDead id := by
  obtain ⟨slot, found⟩ := exists_get? known
  simp [isLive, value?, isDead, found, Slot.value?_isSome]

theorem isDead_of_le {p : SlotPool K V} {id : SlotId} (unknown : p.nextId ≤ id) :
    p.isDead id = false := by
  cases found : p.get? id with
  | none => simp [isDead, found]
  | some slot => exact absurd (lt_nextId found) (Nat.not_lt.mpr unknown)

theorem Grows.isDead {p q : SlotPool K V} (grows : p.Grows q) {id : SlotId}
    (dead : p.isDead id = true) : q.isDead id = true := by
  obtain ⟨slot, found, released⟩ := isDead_iff.mp dead
  obtain ⟨later, there, ages⟩ := grows.ages id slot found
  refine isDead_iff.mpr ⟨later, there, ?_⟩
  cases live : later.live with
  | false => rfl
  | true =>
    rw [ages.live live] at released
    cases released

theorem Releases.isDead {p q : SlotPool K V} {victims : List (Victim K V)}
    (releases : p.Releases q victims) {id : SlotId} :
    q.isDead id = true ↔ id ∈ victims.map Victim.id ∨ p.isDead id = true := by
  rw [SlotPool.isDead, releases.get?]
  by_cases victim : id ∈ victims.map Victim.id
  · obtain ⟨v, member, rfl⟩ := List.mem_map.mp victim
    obtain ⟨slot, found, _⟩ := releases.were v member
    simp [victim, found, Slot.released]
  · simp [victim, SlotPool.isDead]

/-- A release does not touch pins. -/
theorem Releases.pins {p q : SlotPool K V} {victims : List (Victim K V)}
    (releases : p.Releases q victims) (id : SlotId) : q.pins id = p.pins id := by
  rw [SlotPool.pins, SlotPool.pins, releases.get?]
  by_cases victim : id ∈ victims.map Victim.id
  · rw [if_pos victim]
    cases p.get? id <;> rfl
  · rw [if_neg victim]

/-- Two pools have the same values in their slots, whatever the pins. -/
def SameValues (p q : SlotPool K V) : Prop :=
  ∀ id, (q.get? id).map Slot.value? = (p.get? id).map Slot.value?

theorem SameValues.trans {p q r : SlotPool K V} (first : p.SameValues q)
    (second : q.SameValues r) : p.SameValues r := fun id => (second id).trans (first id)

theorem SameValues.value? {p q : SlotPool K V} (same : p.SameValues q) (id : SlotId) :
    q.value? id = p.value? id := by
  have bound := congrArg Option.join (same id)
  rwa [← Option.bind_id_eq_join, ← Option.bind_id_eq_join, Option.bind_map, Option.bind_map] at bound

theorem SameValues.isDead {p q : SlotPool K V} (same : p.SameValues q) (id : SlotId) :
    q.isDead id = p.isDead id := by
  have hidden : ∀ r : SlotPool K V,
      r.isDead id = ((r.get? id).map Slot.value?).any fun value => !value.isSome := by
    intro r
    rw [SlotPool.isDead, Option.any_map]
    simp only [Slot.value?_isSome]
  rw [hidden, hidden, same id]

theorem sameValues_modify (p : SlotPool K V) (id : SlotId) {f : Slot K V → Slot K V}
    (same : ∀ slot, (f slot).value? = slot.value?) : p.SameValues (p.modify id f) := by
  intro k
  rw [get?_modify]
  split
  · rw [Option.map_map]
    congr 1
    exact funext same
  · rfl

theorem sameValues_addPin (p : SlotPool K V) (id : SlotId) : p.SameValues (p.addPin id) :=
  p.sameValues_modify id fun _ => rfl

theorem sameValues_dropPin (p : SlotPool K V) (id : SlotId) : p.SameValues (p.dropPin id) :=
  p.sameValues_modify id fun _ => rfl

end SlotPool

namespace PinQueue

theorem sameValues_pin (q : PinQueue) (p : SlotPool K V) (id : SlotId) :
    p.SameValues (q.pin p id).2 := by
  unfold pin
  split
  · exact fun _ => rfl
  · apply (p.sameValues_addPin id).trans
    unfold trim
    split
    · split
      · exact fun _ => rfl
      · exact SlotPool.sameValues_dropPin _ _
    · exact fun _ => rfl

theorem sameValues_clear (q : PinQueue) (p : SlotPool K V) : p.SameValues (q.clear p).2 := by
  have drops : ∀ (ids : List SlotId) (p : SlotPool K V),
      p.SameValues (ids.foldl SlotPool.dropPin p) := by
    intro ids
    induction ids with
    | nil => exact fun p _ => rfl
    | cons id ids ih => exact fun p => (p.sameValues_dropPin id).trans (ih _)
  exact drops q.ids p

end PinQueue

/-! ### The slots that a pass chooses -/

theorem ShardedMap.visitWhile_collect (keep : SlotId → Bool) (budget : Nat) (ids : List SlotId)
    (found : Array SlotId) (room : found.size < budget) :
    (visitWhile (fun (found : Array SlotId) id =>
      let found := if keep id then found.push id else found
      (found, decide (found.size < budget))) found ids).toList =
        found.toList ++ (ids.filter keep).take (budget - found.size) := by
  induction ids generalizing found with
  | nil => simp [visitWhile]
  | cons id ids ih =>
    rw [visitWhile]
    by_cases kept : keep id = true
    · by_cases more : (found.push id).size < budget
      · simp only [kept, if_true, more, decide_true]
        rw [ih _ more, List.filter_cons_of_pos kept, Array.toList_push, Array.size_push,
          List.append_assoc, List.singleton_append]
        have left : budget - found.size = budget - (found.size + 1) + 1 := by
          rw [Array.size_push] at more
          omega
        rw [left, List.take_succ_cons]
      · simp only [kept, if_true, more, decide_false]
        rw [Array.size_push] at more
        have last : budget - found.size = 0 + 1 := by omega
        rw [List.filter_cons_of_pos kept, last, List.take_succ_cons, Array.toList_push,
          List.take_zero]
    · simp only [kept, Bool.false_eq_true, if_false, room, decide_true]
      rw [ih found room, List.filter_cons_of_neg kept]

namespace ShardedMap

/-- Going round the shards from any of them on reaches each once. -/
theorem perm_rounds {n : Nat} (positive : 0 < n) (start : Nat) :
    ((List.range n).map fun offset => (start + offset) % n).Perm (List.range n) := by
  have reached : List.range n ⊆ (List.range n).map fun offset => (start + offset) % n := by
    intro i inside
    rw [List.mem_range] at inside
    refine List.mem_map.mpr ⟨(i + (n - start % n)) % n, List.mem_range.mpr (Nat.mod_lt _ positive), ?_⟩
    have small := Nat.mod_lt start positive
    have sum : start % n + (i + (n - start % n)) = i + n := by omega
    rw [Nat.add_mod_mod, ← Nat.mod_add_mod, sum, Nat.add_mod_right, Nat.mod_eq_of_lt inside]
  refine ((List.subperm_of_subset List.nodup_range reached).perm_of_length_le ?_).symm
  exact Nat.le_of_eq (List.length_map _)

/-- The walk round the shards passes every entry once. -/
theorem perm_slotsFrom (m : ShardedMap K) (start : Nat) :
    (m.slotsFrom start).Perm (m.toList.map Prod.snd) := by
  have rounds := (perm_rounds m.nonempty start).flatMap_right
    fun i => (m.shardEntries i).map Prod.snd
  rw [List.flatMap_map] at rounds
  rw [toList, List.map_flatMap]
  exact rounds

end ShardedMap

namespace Cache

/-- A pass takes as many slots as it may, in the order of its walk. -/
theorem candidates_eq (c : Cache K V) (budget start : Nat) :
    c.candidates budget start =
      ((c.table.slotsFrom start).filter c.pool.evictable).take budget := by
  rw [candidates]
  by_cases none : budget = 0
  · rw [if_pos none, none, List.take_zero]
  · rw [if_neg none, ShardedMap.visitFrom, ShardedMap.visitWhile_collect]
    · simp
    · exact Nat.pos_of_ne_zero none

section

variable [DecidableEq K] {c : Cache K V} (consistent : c.Consistent)

include consistent

theorem Consistent.nodup_slots : (c.table.toList.map Prod.snd).Nodup := by
  have ordered := consistent.table.toOrdered
  refine List.Nodup.map_on ?_ (ShardedMap.nodup_toList ordered)
  rintro ⟨key, id⟩ first ⟨other, _⟩ second rfl
  have bound := (ShardedMap.get?_eq_some_iff ordered).mpr first
  have also := (ShardedMap.get?_eq_some_iff ordered).mpr second
  rw [consistent.key_unique bound also]

theorem Consistent.nodup_candidates (budget start : Nat) : (c.candidates budget start).Nodup := by
  rw [candidates_eq]
  have walked := (c.table.perm_slotsFrom start).nodup_iff.mpr consistent.nodup_slots
  exact (walked.filter _).sublist (List.take_sublist _ _)

theorem Consistent.mem_candidates {budget start : Nat} {id : SlotId}
    (chosen : id ∈ c.candidates budget start) :
    (∃ key, c.table.get? key = some id) ∧ c.pool.evictable id = true := by
  rw [candidates_eq] at chosen
  obtain ⟨walked, ready⟩ := List.mem_filter.mp (List.mem_of_mem_take chosen)
  obtain ⟨⟨key, _⟩, listed, rfl⟩ :=
    List.mem_map.mp ((c.table.perm_slotsFrom start).mem_iff.mp walked)
  exact ⟨⟨key, (ShardedMap.get?_eq_some_iff consistent.table.toOrdered).mpr listed⟩, ready⟩

/-- A pass releases the values of the slots that it chooses. -/
theorem Consistent.ids_releaseValues (budget : Nat) :
    (c.releaseValues budget).2.map Victim.id = c.candidates budget c.startShard :=
  SlotPool.ids_detachAll (consistent.nodup_candidates budget _) fun _ chosen =>
    (consistent.mem_candidates chosen).2

end

theorem releases_releaseValues (c : Cache K V) (budget : Nat) :
    c.pool.Releases (c.releaseValues budget).1.pool (c.releaseValues budget).2 :=
  SlotPool.releases_detachAll _ _

theorem releases_releaseValueOf [DecidableEq K] (c : Cache K V) (key : K) :
    c.pool.Releases (c.releaseValueOf key).1.pool (c.releaseValueOf key).2.toList := by
  unfold releaseValueOf
  split
  · exact .nothing _
  · exact SlotPool.releases_detach _ _

/-- A reclaim releases the value of the slot under the key. -/
theorem mem_releaseValueOf [DecidableEq K] {c : Cache K V} {key : K} {v : Victim K V}
    (member : v ∈ (c.releaseValueOf key).2.toList) : c.table.get? key = some v.id := by
  rw [releaseValueOf] at member
  cases bound : c.table.get? key with
  | none => simp [bound] at member
  | some id =>
    rw [bound] at member
    simp only [releaseValue, SlotPool.detach] at member
    split at member
    · simp at member
    · rw [Option.mem_toList, Option.map_eq_some_iff] at member
      obtain ⟨value, _, rfl⟩ := member
      rfl

end Cache

end ReclaimableCache
