import ReclaimableCache.Proofs.Effect
import ReclaimableCache.Proofs.Pins
import ReclaimableCache.Proofs.Work

/-!
# Growth

What can never be undone. A slot keeps its key and its content, a value that is released stays
released, and a slot that is not in the table when it could be will never enter the table again.
Every move goes along with this, so that of any two states of a run the later one has grown out of
the earlier.
-/

namespace ReclaimableCache

variable {K V : Type}

/-! ### Slots -/

/-- A slot can lose its value and change its pins, and nothing else. -/
structure Slot.Ages (s t : Slot K V) : Prop where
  key : t.key = s.key
  content : t.content = s.content
  live : t.live = true → s.live = true

namespace Slot

theorem Ages.refl (s : Slot K V) : s.Ages s := ⟨rfl, rfl, id⟩

theorem Ages.trans {s t u : Slot K V} (first : s.Ages t) (second : t.Ages u) : s.Ages u :=
  ⟨second.key.trans first.key, second.content.trans first.content,
    fun live => first.live (second.live live)⟩

/-- A slot whose value is released does not get it back. -/
theorem ages_released (s : Slot K V) : s.Ages s.released := ⟨rfl, rfl, fun live => by cases live⟩

theorem ages_detachUnlessPinned (s : Slot K V) : s.Ages s.detachUnlessPinned.1 := by
  unfold detachUnlessPinned
  split
  · exact s.ages_released
  · exact .refl s

end Slot

/-- Slots are made and age, and are never lost. -/
structure SlotPool.Grows (p q : SlotPool K V) : Prop where
  made : p.nextId ≤ q.nextId
  ages : ∀ id slot, p.get? id = some slot → ∃ later, q.get? id = some later ∧ slot.Ages later

namespace SlotPool

theorem Grows.refl (p : SlotPool K V) : p.Grows p :=
  ⟨Nat.le_refl _, fun _ slot found => ⟨slot, found, .refl slot⟩⟩

/-- What grows twice has grown. -/
theorem Grows.trans {p q r : SlotPool K V} (first : p.Grows q) (second : q.Grows r) :
    p.Grows r := by
  refine ⟨Nat.le_trans first.made second.made, fun id slot found => ?_⟩
  obtain ⟨next, found, ages⟩ := first.ages id slot found
  obtain ⟨last, found, agesMore⟩ := second.ages id next found
  exact ⟨last, found, ages.trans agesMore⟩

/-- A new slot has a number that no slot had before. -/
theorem grows_add (p : SlotPool K V) (slot : Slot K V) : p.Grows (p.add slot) := by
  refine ⟨by rw [nextId_add]; exact Nat.le_succ _, fun id old found => ⟨old, ?_, .refl old⟩⟩
  rw [get?_add, if_neg (Nat.ne_of_lt (lt_nextId found)), found]

/-- If a slot ages, and the others stay as they are, the slots have grown. -/
theorem grows_modify (p : SlotPool K V) (i : SlotId) (f : Slot K V → Slot K V)
    (ages : ∀ slot, p.get? i = some slot → slot.Ages (f slot)) : p.Grows (p.modify i f) := by
  refine ⟨Nat.le_of_eq (nextId_modify p f i).symm, fun id slot found => ?_⟩
  rw [get?_modify]
  by_cases here : i = id
  · subst here
    exact ⟨f slot, by rw [if_pos rfl, found]; rfl, ages slot found⟩
  · exact ⟨slot, by rw [if_neg here, found], .refl slot⟩

theorem grows_addPin (p : SlotPool K V) (id : SlotId) : p.Grows (p.addPin id) :=
  p.grows_modify id _ fun _ _ => ⟨rfl, rfl, fun live => live⟩

theorem grows_dropPin (p : SlotPool K V) (id : SlotId) : p.Grows (p.dropPin id) :=
  p.grows_modify id _ fun _ _ => ⟨rfl, rfl, fun live => live⟩

/-- To release a value, whether pinned or not, lets its slot age. -/
theorem grows_detach (p : SlotPool K V) (id : SlotId) : p.Grows (p.detach id).1 := by
  unfold detach
  split
  · exact .refl p
  · rename_i slot found
    apply p.grows_modify id _
    intro other same
    rw [found] at same
    cases same
    exact slot.ages_released

theorem grows_detachUnlessPinned (p : SlotPool K V) (id : SlotId) :
    p.Grows (p.detachUnlessPinned id).1 := by
  unfold detachUnlessPinned
  split
  · exact .refl p
  · rename_i slot found
    apply p.grows_modify id _
    intro other same
    rw [found] at same
    cases same
    exact slot.ages_detachUnlessPinned

/-- So does a pass over candidates. -/
theorem grows_detachAll (p : SlotPool K V) (ids : List SlotId) : p.Grows (p.detachAll ids).1 := by
  induction ids generalizing p with
  | nil => exact .refl p
  | cons id ids ih => exact (p.grows_detachUnlessPinned id).trans (ih _)

end SlotPool

namespace PinQueue

/-- A pin that is too old is taken off, and the slot stays. -/
theorem grows_trim (q : PinQueue) (p : SlotPool K V) : p.Grows (q.trim p).2 := by
  unfold trim
  split
  · split
    · exact .refl p
    · exact p.grows_dropPin _
  · exact .refl p

theorem grows_pin (q : PinQueue) (p : SlotPool K V) (id : SlotId) : p.Grows (q.pin p id).2 := by
  unfold pin
  split
  · exact .refl p
  · exact (p.grows_addPin id).trans (grows_trim _ _)

/-- To take off all pins changes only the counts of pins. -/
theorem grows_clear (q : PinQueue) (p : SlotPool K V) : p.Grows (q.clear p).2 := by
  have drops : ∀ (ids : List SlotId) (p : SlotPool K V),
      p.Grows (ids.foldl SlotPool.dropPin p) := by
    intro ids
    induction ids with
    | nil => exact fun p => .refl p
    | cons id ids ih => exact fun p => (p.grows_dropPin id).trans (ih _)
  exact drops q.ids p

end PinQueue

/-! ### Caches -/

section

variable [DecidableEq K]

/-- Taking entries out of a table leaves those that stay as they are. -/
theorem Cache.get?_of_sweepOut {pool : SlotPool K V} {ids : List SlotId} {table : ShardedMap K}
    {key : K} {id : SlotId} (found : (sweepOut pool ids table).1.get? key = some id) :
    table.get? key = some id := by
  induction ids generalizing table with
  | nil => exact found
  | cons first ids ih =>
    rw [sweepOut] at found
    split at found
    · exact ih found
    · have kept := ih found
      rw [ShardedMap.get?_eraseIfSame] at kept
      split at kept
      · cases kept
      · exact kept

/-- Slots grow, only new slots enter the table, and the cleaner and the policy stay. -/
structure Cache.Grows (c d : Cache K V) : Prop where
  pool : c.pool.Grows d.pool
  entered : ∀ key id, d.table.get? key = some id →
    c.table.get? key = some id ∨ c.pool.nextId ≤ id
  cleaner : d.cleaner = c.cleaner
  policy : d.policy = c.policy

namespace Cache

theorem Grows.refl (c : Cache K V) : c.Grows c := ⟨.refl _, fun _ _ => Or.inl, rfl, rfl⟩

/-- A slot that entered in either step is new, since slots are never lost. -/
theorem Grows.trans {c d e : Cache K V} (first : c.Grows d) (second : d.Grows e) : c.Grows e := by
  refine ⟨first.pool.trans second.pool, fun key id found => ?_,
    second.cleaner.trans first.cleaner, second.policy.trans first.policy⟩
  rcases second.entered key id found with found | new
  · exact first.entered key id found
  · exact Or.inr (Nat.le_trans first.pool.made new)

theorem grows_sweep (c : Cache K V) : c.Grows c.sweep.1 :=
  ⟨.refl _, fun _ _ found => Or.inl (get?_of_sweepOut found), rfl, rfl⟩

/-- A value that is released leaves its entry in the table. -/
theorem grows_releaseValueOf (c : Cache K V) (key : K) : c.Grows (c.releaseValueOf key).1 := by
  unfold releaseValueOf
  split
  · exact .refl c
  · exact ⟨c.pool.grows_detach _, fun _ _ => Or.inl, rfl, rfl⟩

/-- A look-up pins a slot, and may take a dead entry out. -/
theorem grows_touch (c : Cache K V) (key : K) : c.Grows (c.touch key).1 := by
  have pinned : ∀ id, c.Grows (c.pin id) := fun id =>
    ⟨PinQueue.grows_pin _ _ id, fun _ _ => Or.inl, rfl, rfl⟩
  unfold touch
  split
  · exact ⟨.refl _, fun _ _ => Or.inl, rfl, rfl⟩
  · rename_i id bound
    dsimp only
    split
    · exact (pinned id).trans ⟨.refl _, fun _ _ => Or.inl, rfl, rfl⟩
    · refine (pinned id).trans ⟨.refl _, fun k slot found => Or.inl ?_, rfl, rfl⟩
      simp only [tally, ShardedMap.get?_eraseIfSame] at found
      split at found
      · cases found
      · exact found

/-- Only the new slot enters the table. -/
theorem grows_store (c : Cache K V) (key : K) (value : V) : c.Grows (c.store key value).1 := by
  refine ⟨(c.pool.grows_add _).trans (PinQueue.grows_pin _ _ _), fun k id found => ?_, rfl, rfl⟩
  simp only [store, tally, pin, ShardedMap.get?_insert] at found
  split at found
  · exact Or.inr (Nat.le_of_eq (Option.some.inj found))
  · exact Or.inl found

theorem grows_takeOut (c : Cache K V) (key : K) : c.Grows (c.takeOut key).1 := by
  unfold takeOut
  split
  · exact .refl c
  · refine ⟨.refl _, fun k id found => Or.inl ?_, rfl, rfl⟩
    simp only [tally, ShardedMap.get?_erase] at found
    split at found
    · cases found
    · exact found

/-- What is taken out leaves the other entries as they are. -/
theorem grows_takeOutSlot (c : Cache K V) (key : K) (id : SlotId) :
    c.Grows (c.takeOutSlot key id).1 := by
  refine ⟨.refl _, fun k slot found => Or.inl ?_, rfl, rfl⟩
  simp only [takeOutSlot, ShardedMap.get?_eraseIfSame] at found
  split at found
  · cases found
  · exact found

theorem grows_dropEntries (c : Cache K V) : c.Grows c.dropEntries :=
  ⟨.refl _, fun key id found => by simp [dropEntries] at found, rfl, rfl⟩

/-- Every move lets the cache grow that it is made on. -/
theorem grows_effect (c : Cache K V) (m : Move K V) (board : PressureBoard) :
    c.Grows (m.effect board c) := by
  cases m with
  | sweep _ => exact c.grows_sweep
  | releaseValues _ budget => exact ⟨c.pool.grows_detachAll _, fun _ _ => Or.inl, rfl, rfl⟩
  | releaseValue _ key => exact c.grows_releaseValueOf key
  | look _ key => exact c.grows_touch key
  | place _ key value => exact c.grows_store key value
  | takeOut _ key => exact c.grows_takeOut key
  | takeOutSlot _ key slot => exact c.grows_takeOutSlot key slot
  | unpinAll _ => exact ⟨PinQueue.grows_clear _ _, fun _ _ => Or.inl, rfl, rfl⟩
  | dropEntries _ => exact c.grows_dropEntries
  | _ => exact ⟨.refl _, fun _ _ => Or.inl, rfl, rfl⟩

/-- A move on another cache does nothing to this one. -/
theorem grows_effectOn (c : Cache K V) (m : Move K V) (board : PressureBoard) (d : CacheId) :
    c.Grows (m.effectOn board d c) := by
  unfold Move.effectOn
  split
  · exact c.grows_effect m board
  · exact .refl c

end Cache

/-! ### Hosts -/

/-- Every cache is still there, and grown. -/
def Host.Grows (h g : Host K V) : Prop :=
  ∀ d cache, h.cache? d = some cache → ∃ later, g.cache? d = some later ∧ cache.Grows later

namespace Host

theorem Grows.refl (h : Host K V) : h.Grows h := fun _ cache found => ⟨cache, found, .refl cache⟩

theorem Grows.trans {h g f : Host K V} (first : h.Grows g) (second : g.Grows f) : h.Grows f := by
  intro d cache found
  obtain ⟨next, found, grows⟩ := first d cache found
  obtain ⟨last, found, growsMore⟩ := second d next found
  exact ⟨last, found, grows.trans growsMore⟩

/-- Whatever move is made, every cache of the host grows. -/
theorem grows_make (m : Move K V) (h : Host K V) : h.Grows (m.make h).1 := fun d cache found =>
  ⟨_, Move.cache?_make_of_some found m, cache.grows_effectOn m h.board d⟩

/-- A host that some work is done on grows. -/
theorem grows_run {α : Type} (w : Work K V α) (h : Host K V) : h.Grows (w.run h).1 :=
  (w.invariant (P := h.Grows) (fun m _ grows => grows.trans (grows_make m _)) (.refl h)).2

/-- Of two states in the course of some work the later one has grown out of the earlier. -/
theorem grows_steps {α : Type} (w : Work K V α) (h : Host K V) :
    (w.steps h).Pairwise (fun s t => s.after.Grows t.before) ∧
      ∀ s ∈ w.steps h, s.after.Grows (w.run h).1 :=
  w.pairwise_steps Grows.refl Grows.trans grows_make h

end Host

end

end ReclaimableCache
