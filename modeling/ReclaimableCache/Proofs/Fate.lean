import ReclaimableCache.Proofs.Contents

/-!
# The fate of a value

Each slot enters the table once, by being stored. After that its value is released at most once, by
a reclaim or by a pass, and only while the slot is installed. A released value goes to the cleaner
once, with the key and the content that it was stored with, and is not shown to anybody from then
on. A slot that left the table with its value is never released.
-/

namespace ReclaimableCache

variable {K V : Type}

/-! ### What can be said of a slot at a point of time -/

namespace Host

/-- Whether a cache has made a slot. -/
def hasMade (h : Host K V) (c : CacheId) (id : SlotId) : Bool :=
  (h.cache? c).any fun cache => decide (id < cache.pool.nextId)

/-- Whether a cache has an entry of a slot. -/
def holds (h : Host K V) (c : CacheId) (id : SlotId) : Bool :=
  (h.cache? c).any fun cache => cache.table.toList.any fun e => e.2 == id

/-- Whether the value in a slot of a cache is released. -/
def isDead (h : Host K V) (c : CacheId) (id : SlotId) : Bool :=
  (h.cache? c).any fun cache => cache.pool.isDead id

/-- Whether a cache has a cleaner. -/
def hasCleaner (h : Host K V) (c : CacheId) : Bool :=
  (h.cache? c).any fun cache => cache.cleaner.isSome

end Host

section

variable [DecidableEq K]

namespace Step

/-- Whether a slot enters the table of a cache. -/
def installs (s : Step K V) (c : CacheId) (id : SlotId) : Bool :=
  !s.before.holds c id && s.after.holds c id

/-- Whether the value in a slot of a cache is released. -/
def releases (s : Step K V) (c : CacheId) (id : SlotId) : Bool :=
  !s.before.isDead c id && s.after.isDead c id

omit [DecidableEq K] in
/-- Whether a cleaner is called on a slot of a cache. -/
def cleans (s : Step K V) (c : CacheId) (id : SlotId) : Bool :=
  match s.move with
  | .enterCleaner d victim => d == c && victim.id == id
  | _ => false

end Step

/-! ### Entering the table -/

namespace PinQueue

omit [DecidableEq K] in
theorem nextId_pin (q : PinQueue) (p : SlotPool K V) (id : SlotId) :
    (q.pin p id).2.nextId = p.nextId := by
  unfold pin
  split
  · rfl
  · unfold trim
    split
    · split
      · exact SlotPool.nextId_modify _ _ _
      · exact (SlotPool.nextId_modify _ _ _).trans (SlotPool.nextId_modify _ _ _)
    · exact SlotPool.nextId_modify _ _ _

omit [DecidableEq K] in
theorem nextId_clear (q : PinQueue) (p : SlotPool K V) : (q.clear p).2.nextId = p.nextId := by
  have drops : ∀ (ids : List SlotId) (p : SlotPool K V),
      (ids.foldl SlotPool.dropPin p).nextId = p.nextId := by
    intro ids
    induction ids with
    | nil => exact fun p => rfl
    | cons id ids ih => exact fun p => (ih _).trans (SlotPool.nextId_modify _ _ _)
  exact drops q.ids p

end PinQueue

namespace Cache

/-- Only storing makes a slot. -/
theorem nextId_effect (c : Cache K V) {m : Move K V} (board : PressureBoard)
    (stores : ∀ d key value, m ≠ .place d key value) :
    (m.effect board c).pool.nextId = c.pool.nextId := by
  cases m with
  | place d key value => exact absurd rfl (stores d key value)
  | look d key =>
    rw [Move.effect, touch]
    split
    · rfl
    · dsimp only
      split <;> exact PinQueue.nextId_pin c.queue c.pool _
  | releaseValues d budget => exact (c.releases_releaseValues budget).nextId
  | releaseValue d key => exact (c.releases_releaseValueOf key).nextId
  | unpinAll d => exact PinQueue.nextId_clear c.queue c.pool
  | takeOut d key =>
    rw [Move.effect, takeOut]
    split <;> rfl
  | _ => rfl

theorem nextId_store (c : Cache K V) (key : K) (value : V) :
    (c.store key value).1.pool.nextId = c.pool.nextId + 1 :=
  (PinQueue.nextId_pin c.queue (c.pool.add (.fresh key value)) _).trans
    (SlotPool.nextId_add c.pool _)

/-- The slot that storing makes holds what is stored. -/
theorem exists_slot_store (c : Cache K V) (key : K) (value : V) :
    ∃ slot, (c.store key value).1.pool.get? c.pool.nextId = some slot ∧
      slot.key = key ∧ slot.content = value := by
  have made : (c.pool.add (.fresh key value)).get? c.pool.nextId = some (.fresh key value) := by
    rw [SlotPool.get?_add, if_pos rfl]
  obtain ⟨later, found, ages⟩ := (PinQueue.grows_pin c.queue _ c.pool.nextId).ages _ _ made
  exact ⟨later, found, ages.key, ages.content⟩

/-- A slot has an entry if it stands under a key. -/
theorem any_toList_iff {c : Cache K V} (consistent : c.Consistent) (id : SlotId) :
    (c.table.toList.any fun e => e.2 == id) = true ↔ ∃ key, c.table.get? key = some id := by
  have ordered := consistent.table.toOrdered
  rw [List.any_eq_true]
  constructor
  · rintro ⟨⟨key, slot⟩, member, same⟩
    rw [beq_iff_eq] at same
    exact ⟨key, (ShardedMap.get?_eq_some_iff ordered).mpr (same ▸ member)⟩
  · rintro ⟨key, bound⟩
    exact ⟨(key, id), (ShardedMap.get?_eq_some_iff ordered).mp bound, beq_self_eq_true id⟩

end Cache

namespace Host

variable {h : Host K V} {c : CacheId} {id : SlotId}

theorem holds_iff {cache : Cache K V} (consistent : h.Consistent)
    (found : h.cache? c = some cache) :
    h.holds c id = true ↔ ∃ key, cache.table.get? key = some id := by
  rw [holds, found, Option.any_some]
  exact Cache.any_toList_iff (consistent c cache found) id

theorem hasMade_of_holds (consistent : h.Consistent) (held : h.holds c id = true) :
    h.hasMade c id = true := by
  cases found : h.cache? c with
  | none => simp [holds, found] at held
  | some cache =>
    obtain ⟨key, bound⟩ := (holds_iff consistent found).mp held
    simpa [hasMade, found] using (consistent c cache found).lt_nextId bound

theorem holds_make_of_none {m : Move K V} (none : h.cache? c = none) :
    (m.make h).1.holds c id = false ∧ (m.make h).1.hasMade c id = false := by
  cases found : (m.make h).1.cache? c with
  | none => simp [holds, hasMade, found]
  | some cache =>
    rcases Move.exists_of_cache?_make m found with ⟨old, there, _⟩ | ⟨_, config, _, _, made⟩
    · rw [none] at there
      cases there
    · have new := Cache.new_assemble made
      have free : ¬ ∃ key, cache.table.get? key = some id := by
        rintro ⟨key, bound⟩
        rw [new.get?] at bound
        cases bound
      rw [← Cache.any_toList_iff new.consistent, Bool.not_eq_true] at free
      simp [holds, hasMade, found, free, new.pool, SlotPool.nextId, SlotPool.empty]

/-- What enters the table is a slot that was just made. -/
theorem holds_make (consistent : h.Consistent) {cache : Cache K V}
    (found : h.cache? c = some cache) {m : Move K V} (held : (m.make h).1.holds c id = true) :
    h.holds c id = true ∨
      ∃ key value, m = .place c key value ∧ id = cache.pool.nextId := by
  have after := Move.cache?_make_of_some found m
  have there := hasMade_of_holds (consistent.make m) held
  obtain ⟨key, bound⟩ := (holds_iff (consistent.make m) after).mp held
  rcases (cache.grows_effectOn m h.board c).entered key id bound with before | new
  · exact Or.inl ((holds_iff consistent found).mpr ⟨key, before⟩)
  · right
    simp only [hasMade, after, Option.any_some, decide_eq_true_eq] at there
    rw [Move.effectOn] at there
    by_cases stores : ∃ key value, m = .place c key value
    · obtain ⟨key, value, rfl⟩ := stores
      rw [Move.target, if_pos rfl, Move.effect, Cache.nextId_store] at there
      exact ⟨key, value, rfl, Nat.le_antisymm (Nat.le_of_lt_succ there) new⟩
    · split at there
      · rename_i target
        rw [Cache.nextId_effect] at there
        · exact absurd there (Nat.not_lt.mpr new)
        · rintro d key value rfl
          rw [Move.target, Option.some.injEq] at target
          exact stores ⟨key, value, by rw [target]⟩
      · exact absurd there (Nat.not_lt.mpr new)

/-- A slot that enters the table was just made for what is stored. -/
theorem exists_slot_of_installs (consistent : h.Consistent) {m : Move K V}
    (installs : (⟨h, m⟩ : Step K V).installs c id = true) :
    ∃ cache slot, (m.make h).1.cache? c = some cache ∧ cache.pool.get? id = some slot ∧
      m = .place c slot.key slot.content := by
  have split : (!h.holds c id && (m.make h).1.holds c id) = true := installs
  rw [Bool.and_eq_true, Bool.not_eq_true'] at split
  cases found : h.cache? c with
  | none =>
    rw [(holds_make_of_none found).1] at split
    cases split.2
  | some cache =>
    rcases holds_make consistent found split.2 with before | ⟨key, value, rfl, rfl⟩
    · rw [split.1] at before
      cases before
    · have after := Move.cache?_make_of_target found (m := .place c key value) rfl
      obtain ⟨slot, made, rfl, rfl⟩ := cache.exists_slot_store key value
      exact ⟨_, slot, after, made, rfl⟩

/-- Only storing a value makes a slot. -/
theorem hasMade_make_of_not_new {cache : Cache K V} (found : h.cache? c = some cache)
    (m : Move K V) (new : ¬ ∃ key value, m = .place c key value ∧ id = cache.pool.nextId) :
    (m.make h).1.hasMade c id = h.hasMade c id := by
  simp only [hasMade, found, Move.cache?_make_of_some found m, Option.any_some]
  unfold Move.effectOn
  split
  · rename_i target
    by_cases stores : ∃ d key value, m = .place d key value
    · obtain ⟨d, key, value, rfl⟩ := stores
      rw [Move.target, Option.some.injEq] at target
      subst target
      have other : id ≠ cache.pool.nextId := fun equal => new ⟨key, value, rfl, equal⟩
      rw [Move.effect, Cache.nextId_store, decide_eq_decide]
      exact ⟨fun below => Nat.lt_of_le_of_ne (Nat.le_of_lt_succ below) other, Nat.lt_succ_of_lt⟩
    · rw [Cache.nextId_effect cache h.board fun d key value equal => stores ⟨d, key, value, equal⟩]
  · rfl

/-- Each move makes the slots that it puts into the table, and no others. -/
theorem hasMade_make (consistent : h.Consistent) (m : Move K V) (c : CacheId) (id : SlotId) :
    (h.hasMade c id).toNat + (if (⟨h, m⟩ : Step K V).installs c id then 1 else 0) =
      ((m.make h).1.hasMade c id).toNat := by
  have installs : (⟨h, m⟩ : Step K V).installs c id =
      (!h.holds c id && (m.make h).1.holds c id) := rfl
  rw [installs]
  cases found : h.cache? c with
  | none =>
    have after : (m.make h).1.holds c id = false ∧ (m.make h).1.hasMade c id = false :=
      holds_make_of_none found
    rw [after.1, after.2]
    simp [hasMade, found]
  | some cache =>
    -- Only the slot that a value is placed in enters the table, and it is made by that move.
    by_cases new : ∃ key value, m = .place c key value ∧ id = cache.pool.nextId
    · obtain ⟨key, value, rfl, rfl⟩ := new
      have after := Move.cache?_make_of_target found (m := .place c key value) rfl
      have absent : h.hasMade c cache.pool.nextId = false := by simp [hasMade, found]
      have notHeld : h.holds c cache.pool.nextId = false := by
        cases held : h.holds c cache.pool.nextId with
        | false => rfl
        | true => rw [hasMade_of_holds consistent held] at absent; cases absent
      have held : ((Move.place c key value).make h).1.holds c cache.pool.nextId = true := by
        refine (holds_iff (consistent.make _) after).mpr ⟨key, ?_⟩
        rw [Move.effect, Cache.get?_store, if_pos rfl]
      rw [notHeld, held, absent, hasMade_of_holds (consistent.make _) held]
      rfl
    · have enters : (!h.holds c id && (m.make h).1.holds c id) = false := by
        cases held : (m.make h).1.holds c id with
        | false => rw [Bool.and_false]
        | true =>
          rcases holds_make consistent found held with before | stored
          · rw [before]
            rfl
          · exact absurd stored new
      rw [enters, hasMade_make_of_not_new found m new]
      rfl

end Host

/-! ### Being released -/

/-- Only values of installed slots are released, by a pass or by a reclaim. -/
theorem Cache.isDead_effect_cases {c : Cache K V} (consistent : c.Consistent) {m : Move K V}
    {board : PressureBoard} {id : SlotId} (alive : c.pool.isDead id = false)
    (dead : (m.effect board c).pool.isDead id = true) :
    (∃ key, c.table.get? key = some id) ∧ m.releases = true := by
  cases releases : m.releases with
  | false =>
    rw [c.isDead_effect board releases, alive] at dead
    cases dead
  | true =>
    refine ⟨?_, rfl⟩
    cases m with
    | releaseValues d budget =>
      rcases (c.releases_releaseValues budget).isDead.mp dead with victim | before
      · rw [consistent.ids_releaseValues] at victim
        exact (consistent.mem_candidates victim).1
      · rw [alive] at before
        cases before
    | releaseValue d key =>
      rcases (c.releases_releaseValueOf key).isDead.mp dead with victim | before
      · obtain ⟨v, member, rfl⟩ := List.mem_map.mp victim
        exact ⟨key, mem_releaseValueOf member⟩
      · rw [alive] at before
        cases before
    | _ => cases releases

namespace Host

variable {h : Host K V} {c : CacheId} {id : SlotId}

theorem isDead_make_of_none {m : Move K V} (none : h.cache? c = none) :
    (m.make h).1.isDead c id = false := by
  cases found : (m.make h).1.cache? c with
  | none => simp [isDead, found]
  | some cache =>
    rcases Move.exists_of_cache?_make m found with ⟨old, there, _⟩ | ⟨_, config, _, _, made⟩
    · rw [none] at there
      cases there
    · have new := Cache.new_assemble made
      simp [isDead, found, new.pool, SlotPool.isDead]

/-- A released value stays released. -/
theorem Grows.isDead {g : Host K V} (grows : h.Grows g) (dead : h.isDead c id = true) :
    g.isDead c id = true := by
  obtain ⟨cache, found, dead⟩ := Option.any_eq_true _ _ |>.mp dead
  obtain ⟨later, there, more⟩ := grows c cache found
  rw [Host.isDead, there, Option.any_some]
  exact more.pool.isDead dead

theorem isDead_make (h : Host K V) (m : Move K V) (c : CacheId) (id : SlotId) :
    (h.isDead c id).toNat + (if (⟨h, m⟩ : Step K V).releases c id then 1 else 0) =
      ((m.make h).1.isDead c id).toNat := by
  have releases : (⟨h, m⟩ : Step K V).releases c id =
      (!h.isDead c id && (m.make h).1.isDead c id) := rfl
  rw [releases]
  cases before : h.isDead c id with
  | true =>
    rw [(grows_make m h).isDead before]
    rfl
  | false => cases (m.make h).1.isDead c id <;> rfl

/-- Of a value that is released the slot was installed right before. -/
theorem of_releases (consistent : h.Consistent) {m : Move K V}
    (released : (⟨h, m⟩ : Step K V).releases c id = true) :
    h.holds c id = true ∧ m.target = some c ∧ m.releases = true := by
  have split : (!h.isDead c id && (m.make h).1.isDead c id) = true := released
  rw [Bool.and_eq_true, Bool.not_eq_true'] at split
  cases found : h.cache? c with
  | none =>
    rw [isDead_make_of_none found] at split
    cases split.2
  | some cache =>
    have after := Move.cache?_make_of_some found m
    simp only [isDead, found, after, Option.any_some] at split
    rw [Move.effectOn] at split
    by_cases target : m.target = some c
    · rw [if_pos target] at split
      obtain ⟨bound, releases⟩ :=
        Cache.isDead_effect_cases (consistent c cache found) split.1 split.2
      exact ⟨(holds_iff consistent found).mpr bound, target, releases⟩
    · rw [if_neg target, split.1] at split
      cases split.2

end Host

/-! ### Being cleaned -/

namespace Host

/-- The number of calls of a cleaner that a slot has to have seen: one, if its value is released and
    its cache has a cleaner. -/
def due (h : Host K V) (c : CacheId) (id : SlotId) : Nat :=
  (h.hasCleaner c && h.isDead c id).toNat

/-- A victim is a slot of a cache that has lost its value, with the key and the content that it was
    stored with. -/
def Lost (h : Host K V) (c : CacheId) (v : Victim K V) : Prop :=
  ∃ cache slot, h.cache? c = some cache ∧ cache.pool.get? v.id = some slot ∧ slot.key = v.key ∧
    slot.content = v.value ∧ slot.live = false

variable {h g : Host K V} {c : CacheId} {id : SlotId} {v : Victim K V}

theorem Grows.lost (grows : h.Grows g) (lost : h.Lost c v) : g.Lost c v := by
  obtain ⟨cache, slot, found, made, key, content, dead⟩ := lost
  obtain ⟨later, there, more⟩ := grows c cache found
  obtain ⟨old, still, ages⟩ := more.pool.ages v.id slot made
  refine ⟨later, old, there, still, ages.key.trans key, ages.content.trans content, ?_⟩
  cases live : old.live with
  | false => rfl
  | true =>
    rw [ages.live live] at dead
    cases dead

omit [DecidableEq K] in
theorem Lost.isDead (lost : h.Lost c v) : h.isDead c v.id = true := by
  obtain ⟨cache, slot, found, made, _, _, dead⟩ := lost
  rw [Host.isDead, found, Option.any_some]
  exact SlotPool.isDead_iff.mpr ⟨slot, made, dead⟩

theorem Grows.hasCleaner {cache : Cache K V} (grows : h.Grows g)
    (found : h.cache? c = some cache) : g.hasCleaner c = h.hasCleaner c := by
  obtain ⟨later, there, more⟩ := grows c cache found
  simp [Host.hasCleaner, found, there, more.cleaner]

/-- A slot keeps its key and its content. -/
theorem Grows.slot (grows : h.Grows g) {cache later : Cache K V} {slot last : Slot K V}
    (found : h.cache? c = some cache) (made : cache.pool.get? id = some slot)
    (there : g.cache? c = some later) (still : later.pool.get? id = some last) :
    last.key = slot.key ∧ last.content = slot.content := by
  obtain ⟨grown, same, more⟩ := grows c cache found
  rw [there] at same
  cases same
  obtain ⟨old, same, ages⟩ := more.pool.ages id slot made
  rw [still] at same
  cases same
  exact ⟨ages.key, ages.content⟩

/-- Calls become due by releases only. -/
theorem due_make {m : Move K V} (stays : m.releases = false) (h : Host K V) (c : CacheId)
    (id : SlotId) : (m.make h).1.due c id = h.due c id := by
  cases found : h.cache? c with
  | none =>
    have dead : (m.make h).1.isDead c id = false := isDead_make_of_none found
    have before : h.isDead c id = false := by simp [isDead, found]
    rw [due, due, dead, before, Bool.and_false, Bool.and_false]
  | some cache =>
    have after := Move.cache?_make_of_some found m
    have same : (m.make h).1.isDead c id = h.isDead c id := by
      simp only [isDead, found, after, Option.any_some]
      unfold Move.effectOn
      split
      · exact cache.isDead_effect h.board stays id
      · rfl
    rw [due, due, (grows_make m h).hasCleaner found, same]

end Host

/-- What a cleaner is called on has lost its value, and is handed over as it was stored. -/
def Step.Faithful (s : Step K V) : Prop :=
  ∀ c v, s.move = .enterCleaner c v → s.before.Lost c v

/-- How many calls of cleaners a slot still has to see. -/
abbrev Owed := CacheId → SlotId → Nat

/-- Nothing is owed. -/
def Owed.nothing : Owed := fun _ _ => 0

/-- Each victim of a cache is owed one call, if there is a cleaner. -/
def Owed.of (cleaner : Bool) (c : CacheId) (victims : List (Victim K V)) : Owed :=
  fun d id => if d = c ∧ cleaner = true then (victims.map Victim.id).count id else 0

omit [DecidableEq K] in
theorem Owed.of_nil (cleaner : Bool) (c : CacheId) :
    Owed.of cleaner c ([] : List (Victim K V)) = .nothing := by
  funext d id
  simp [Owed.of, Owed.nothing]

omit [DecidableEq K] in
theorem Owed.of_false (c : CacheId) (victims : List (Victim K V)) :
    Owed.of false c victims = .nothing := by
  funext d id
  simp [Owed.of, Owed.nothing]

namespace Work

variable {α β : Type}

/-- In the course of some work cleaners are called faithfully, and as often as calls become due,
    apart from those that are owed before and after it. -/
structure Cleans (w : Work K V α) (h : Host K V) (before after : Owed) : Prop where
  faithful : ∀ s ∈ w.steps h, s.Faithful
  counted : ∀ c id, h.due c id + (w.steps h).countP (fun s => s.cleans c id) + after c id =
    (w.run h).1.due c id + before c id

theorem Cleans.bind {w : Work K V α} {f : α → Work K V β} {h : Host K V}
    {before between after : Owed} (first : w.Cleans h before between)
    (second : (f (w.run h).2).Cleans (w.run h).1 between after) :
    (w >>= f).Cleans h before after := by
  constructor
  · intro s member
    rw [steps_bind] at member
    rcases List.mem_append.mp member with member | member
    · exact first.faithful s member
    · exact second.faithful s member
  · intro c id
    have counted := first.counted c id
    have more := second.counted c id
    rw [run_bind, steps_bind, List.countP_append]
    omega

theorem Cleans.frame {w : Work K V α} {h : Host K V} (cleans : w.Cleans h .nothing .nothing)
    (owed : Owed) : w.Cleans h owed owed := by
  refine ⟨cleans.faithful, fun c id => ?_⟩
  have counted := cleans.counted c id
  rw [Owed.nothing] at counted
  omega

theorem cleans_pure (a : α) (h : Host K V) (owed : Owed) :
    (pure a : Work K V α).Cleans h owed owed :=
  ⟨by simp, by simp⟩

theorem cleans_make {m : Move K V} (stays : m.releases = false)
    (calls : ∀ c v, m ≠ .enterCleaner c v) (h : Host K V) (owed : Owed) :
    (make m).Cleans h owed owed := by
  constructor
  · intro s member c v enters
    rw [steps_make, List.mem_singleton] at member
    subst member
    exact absurd enters (calls c v)
  · intro c id
    have none : (⟨h, m⟩ : Step K V).cleans c id = false := by
      cases m <;> first | rfl | exact absurd rfl (calls _ _)
    rw [steps_make, run_make, Host.due_make stays, List.countP_singleton, none]
    rfl

/-- Calling a cleaner on a victim pays what it is owed. -/
theorem cleans_enterCleaner {h : Host K V} {c : CacheId} {v : Victim K V} (lost : h.Lost c v)
    (victims : List (Victim K V)) :
    (make (.enterCleaner c v)).Cleans h (.of true c (v :: victims)) (.of true c victims) := by
  constructor
  · intro s member d w enters
    rw [steps_make, List.mem_singleton] at member
    subst member
    cases enters
    exact lost
  · intro d id
    have called : (⟨h, .enterCleaner c v⟩ : Step K V).cleans d id = (c == d && v.id == id) := rfl
    rw [steps_make, run_make, Host.due_make rfl, List.countP_singleton, called]
    by_cases here : d = c
    · subst here
      simp only [Owed.of, beq_self_eq_true, Bool.true_and, and_self, if_true, List.map_cons,
        List.count_cons]
      omega
    · simp [Owed.of, here, Ne.symm here]

/-- Work cleans all that it releases. -/
def Balanced (w : Work K V α) : Prop :=
  ∀ h : Host K V, h.Consistent → w.Cleans h .nothing .nothing

theorem Balanced.bind {w : Work K V α} {f : α → Work K V β} (first : w.Balanced)
    (second : ∀ a, (f a).Balanced) : (w >>= f).Balanced := fun h consistent =>
  (first h consistent).bind (second _ _ (consistent.work w).2)

section

variable {run : CallbackRunner K V} (callbacks : ∀ r, (run r).Balanced)

include callbacks

theorem cleans_clean {h : Host K V} (consistent : h.Consistent) {c : CacheId} {v : Victim K V}
    (lost : h.Lost c v) (victims : List (Victim K V)) :
    (clean run c v).Cleans h (.of (h.hasCleaner c) c (v :: victims))
      (.of (h.hasCleaner c) c victims) := by
  obtain ⟨cache, _, found, _⟩ := id lost
  apply Cleans.bind (cleans_make (m := .view) rfl (fun _ _ same => by cases same) h _)
  have seen : (((make .view : Work K V _).run h).2.cache? c).bind Cache.cleaner = cache.cleaner := by
    rw [run_make, Move.make, found, Option.bind_some]
  have has : h.hasCleaner c = cache.cleaner.isSome := by rw [Host.hasCleaner, found, Option.any_some]
  rw [seen, has]
  cases cache.cleaner with
  | none =>
    rw [Option.isSome_none, Owed.of_false, Owed.of_false]
    exact cleans_pure _ _ _
  | some cleaner =>
    apply Cleans.bind (cleans_enterCleaner lost victims)
    apply Cleans.bind ((callbacks _ _ (consistent.make _)).frame _)
    exact cleans_make rfl (fun _ _ same => by cases same) _ _

theorem cleans_cleanAll {c : CacheId} {victims : List (Victim K V)} {h : Host K V}
    (consistent : h.Consistent) (lost : ∀ v ∈ victims, h.Lost c v) :
    (cleanAll run c victims).Cleans h (.of (h.hasCleaner c) c victims)
      (.of (h.hasCleaner c) c ([] : List (Victim K V))) := by
  induction victims generalizing h with
  | nil => exact cleans_pure _ _ _
  | cons v victims ih =>
    have first := lost v List.mem_cons_self
    obtain ⟨cache, _, found, _⟩ := id first
    apply Cleans.bind (cleans_clean callbacks consistent first victims)
    apply Cleans.bind (cleans_make rfl (fun _ _ same => by cases same) _ _)
    have cleaned := (consistent.work (clean run c v)).2.make (.enqueue c v.id)
    have grows := (Host.grows_run (clean run c v) h).trans (Host.grows_make (.enqueue c v.id) _)
    have rest := ih cleaned fun w member => grows.lost (lost w (List.mem_cons_of_mem _ member))
    rw [grows.hasCleaner found] at rest
    exact rest.bind (cleans_pure _ _ _)

end

end Work

omit [DecidableEq K] in
theorem SlotPool.Releases.toNat_isDead {p q : SlotPool K V} {victims : List (Victim K V)}
    (releases : p.Releases q victims) (id : SlotId) :
    (p.isDead id).toNat + (victims.map Victim.id).count id = (q.isDead id).toNat := by
  by_cases victim : id ∈ victims.map Victim.id
  · obtain ⟨v, member, rfl⟩ := List.mem_map.mp victim
    obtain ⟨slot, found, _, _, live⟩ := releases.were v member
    have alive : p.isDead v.id = false := by simp [SlotPool.isDead, found, live]
    rw [alive, releases.isDead.mpr (Or.inl victim), List.count_eq_one_of_mem releases.nodup victim]
    rfl
  · have same : q.isDead id = p.isDead id := by
      rw [Bool.eq_iff_iff, releases.isDead]
      exact or_iff_right victim
    rw [same, List.count_eq_zero_of_not_mem victim, Nat.add_zero]

namespace Host

variable {h : Host K V} {c : CacheId} {cache : Cache K V} {m : Move K V}
  {victims : List (Victim K V)}

/-- A release makes calls due for its victims. -/
theorem due_release (found : h.cache? c = some cache) (target : m.target = some c)
    (releases : cache.pool.Releases (m.effect h.board cache).pool victims) (d : CacheId)
    (id : SlotId) :
    h.due d id + Owed.of (h.hasCleaner c) c victims d id = (m.make h).1.due d id := by
  by_cases here : d = c
  · subst here
    have after := Move.cache?_make_of_target found target
    have released := releases.toNat_isDead id
    rw [due, due, (grows_make m h).hasCleaner found]
    simp only [isDead, found, after, Option.any_some, Owed.of, true_and]
    cases h.hasCleaner d with
    | false => simp
    | true => simpa using released
  · have free : Owed.of (h.hasCleaner c) c victims d id = 0 := by simp [Owed.of, here]
    rw [free, Nat.add_zero, due, due]
    cases there : h.cache? d with
    | none =>
      rw [isDead_make_of_none there]
      simp [isDead, there]
    | some other =>
      have after := Move.cache?_make_of_some there m
      have away : ¬ m.target = some d := by
        rw [target, Option.some.injEq]
        exact Ne.symm here
      rw [Move.effectOn, if_neg away] at after
      simp [isDead, hasCleaner, there, after]

theorem lost_release (found : h.cache? c = some cache) (target : m.target = some c)
    (releases : cache.pool.Releases (m.effect h.board cache).pool victims) :
    ∀ v ∈ victims, (m.make h).1.Lost c v := by
  intro v member
  obtain ⟨slot, made, key, content, _⟩ := releases.were v member
  have after := Move.cache?_make_of_target found target
  refine ⟨_, slot.released, after, ?_, key, content, rfl⟩
  rw [releases.get?, if_pos (List.mem_map_of_mem member), made]
  rfl

end Host

namespace Work

/-- A move that releases values owes a call for each. -/
theorem cleans_release {m : Move K V} {h : Host K V} {c : CacheId} {victims : List (Victim K V)}
    (calls : ∀ c v, m ≠ .enterCleaner c v)
    (absent : h.cache? c = none → (m.make h).1 = h ∧ victims = [])
    (present : ∀ cache, h.cache? c = some cache → m.target = some c ∧
      cache.pool.Releases (m.effect h.board cache).pool victims) :
    (make m).Cleans h .nothing (.of ((m.make h).1.hasCleaner c) c victims) ∧
      ∀ v ∈ victims, (m.make h).1.Lost c v := by
  have silent : ∀ d id, (⟨h, m⟩ : Step K V).cleans d id = false := by
    intro d id
    cases m <;> first | rfl | exact absurd rfl (calls _ _)
  have due : ∀ d id, h.due d id + Owed.of ((m.make h).1.hasCleaner c) c victims d id =
      (m.make h).1.due d id := by
    intro d id
    cases found : h.cache? c with
    | none =>
      obtain ⟨same, none⟩ := absent found
      rw [same, none, Owed.of]
      split <;> rfl
    | some cache =>
      obtain ⟨target, releases⟩ := present cache found
      rw [(Host.grows_make m h).hasCleaner found]
      exact Host.due_release found target releases d id
  refine ⟨⟨?_, ?_⟩, ?_⟩
  · intro s member d w enters
    rw [steps_make, List.mem_singleton] at member
    subst member
    exact absurd enters (calls d w)
  · intro d id
    rw [steps_make, run_make, List.countP_singleton, silent]
    exact due d id
  · intro v member
    cases found : h.cache? c with
    | none =>
      rw [(absent found).2] at member
      cases member
    | some cache =>
      obtain ⟨target, releases⟩ := present cache found
      exact Host.lost_release found target releases v member

theorem cleans_releaseValues (h : Host K V) (c : CacheId) (budget : Nat) :
    (make (.releaseValues c budget)).Cleans h .nothing
      (.of (((Move.releaseValues c budget).make h).1.hasCleaner c) c
        ((Move.releaseValues c budget).make h).2) ∧
      ∀ v ∈ ((Move.releaseValues c budget).make h).2,
        ((Move.releaseValues c budget).make h).1.Lost c v := by
  refine cleans_release (fun _ _ same => by cases same) (fun none => ?_) fun cache found => ?_
  · rw [Move.make, Host.onCache, none]
    exact ⟨rfl, rfl⟩
  · have made : ((Move.releaseValues c budget).make h).2 = (cache.releaseValues budget).2 := by
      rw [Move.make, Host.onCache, found]
    rw [made]
    exact ⟨rfl, cache.releases_releaseValues budget⟩

theorem cleans_releaseValue (h : Host K V) (c : CacheId) (key : K) :
    (make (.releaseValue c key)).Cleans h .nothing
      (.of (((Move.releaseValue c key).make h).1.hasCleaner c) c
        ((Move.releaseValue c key).make h).2.toList) ∧
      ∀ v ∈ ((Move.releaseValue c key).make h).2.toList,
        ((Move.releaseValue c key).make h).1.Lost c v := by
  refine cleans_release (fun _ _ same => by cases same) (fun none => ?_) fun cache found => ?_
  · rw [Move.make, Host.onCache, none]
    exact ⟨rfl, rfl⟩
  · have made : ((Move.releaseValue c key).make h).2 = (cache.releaseValueOf key).2 := by
      rw [Move.make, Host.onCache, found]
    rw [made]
    exact ⟨rfl, cache.releases_releaseValueOf key⟩

section

variable {run : CallbackRunner K V} (callbacks : ∀ r, (run r).Balanced)

include callbacks

theorem balanced_evict (c : CacheId) (budget : Nat) : (evict run c budget).Balanced := by
  intro h consistent
  obtain ⟨released, lost⟩ := cleans_releaseValues h c budget
  apply released.bind
  apply Cleans.bind (cleans_cleanAll callbacks (consistent.make _) lost)
  rw [Owed.of_nil]
  apply Cleans.bind (cleans_make rfl (fun _ _ same => by cases same) _ _)
  exact cleans_pure _ _ _

theorem balanced_reclaim (c : CacheId) (key : K) : (reclaim run c key).Balanced := by
  intro h consistent
  obtain ⟨released, lost⟩ := cleans_releaseValue h c key
  have settled := consistent.make (.releaseValue c key)
  apply released.bind
  rw [run_make]
  cases result : ((Move.releaseValue c key).make h).2 with
  | none =>
    rw [Option.toList_none, Owed.of_nil]
    exact cleans_pure _ _ _
  | some victim =>
    rw [result] at lost
    have first := lost victim (by simp)
    apply Cleans.bind (cleans_clean callbacks settled first [])
    rw [Owed.of_nil]
    apply Cleans.bind (cleans_make rfl (fun _ _ same => by cases same) _ _)
    apply Cleans.bind (cleans_make rfl (fun _ _ same => by cases same) _ _)
    exact cleans_pure _ _ _

end

theorem inherited_balanced : Inherited fun _ (w : Work K V _) => w.Balanced := by
  refine inherited_of_moves (fun a h _ => cleans_pure a h _) (fun first second =>
    first.bind second) (fun m steady h _ => cleans_make ?_ (fun c v same => ?_) h _)
    (fun _ _ _ h _ => cleans_make rfl (fun _ _ same => by cases same) h _) balanced_evict
    balanced_reclaim
  · cases m <;> first | rfl | cases steady
  · subst same
    cases steady

end Work

omit [DecidableEq K] in
theorem Step.cleans_iff {s : Step K V} {c : CacheId} {id : SlotId} :
    s.cleans c id = true ↔ ∃ v, s.move = .enterCleaner c v ∧ v.id = id := by
  rw [cleans]
  cases s.move with
  | enterCleaner d victim => simp
  | _ => simp

/-! ### Leaving the table with the value -/

/-- A slot has left the table with its value. -/
structure Host.Discarded (h : Host K V) (c : CacheId) (id : SlotId) : Prop where
  made : h.hasMade c id = true
  out : h.holds c id = false
  alive : h.isDead c id = false

namespace Host

variable {h : Host K V} {c : CacheId} {id : SlotId}

/-- What has left the table neither comes back nor is released. -/
theorem Discarded.make (discarded : h.Discarded c id) (consistent : h.Consistent)
    (m : Move K V) : (m.make h).1.Discarded c id := by
  obtain ⟨cache, found, known⟩ := Option.any_eq_true _ _ |>.mp discarded.made
  rw [decide_eq_true_eq] at known
  refine ⟨?_, ?_, ?_⟩
  · have counted := hasMade_make consistent m c id
    rw [discarded.made] at counted
    cases there : (m.make h).1.hasMade c id with
    | true => rfl
    | false =>
      rw [there, Bool.toNat_true, Bool.toNat_false] at counted
      omega
  · cases held : (m.make h).1.holds c id with
    | false => rfl
    | true =>
      rcases holds_make consistent found held with before | ⟨_, _, _, new⟩
      · rw [discarded.out] at before
        cases before
      · exact absurd known (Nat.not_lt.mpr (Nat.le_of_eq new.symm))
  · cases dead : (m.make h).1.isDead c id with
    | false => rfl
    | true =>
      have released : (⟨h, m⟩ : Step K V).releases c id = true := by
        rw [Step.releases, discarded.alive]
        exact dead
      have held := (of_releases consistent released).1
      rw [discarded.out] at held
      cases held

/-- No cleaner is ever called on a slot that left the table with its value. -/
theorem Discarded.cleans {α : Type} (discarded : h.Discarded c id) (consistent : h.Consistent)
    {w : Work K V α} (balanced : w.Balanced) :
    (w.steps h).countP (fun s => s.cleans c id) = 0 := by
  have throughout := w.invariant (P := fun h => h.Consistent ∧ h.Discarded c id)
    (fun m h holds => ⟨holds.1.make m, holds.2.make holds.1 m⟩) ⟨consistent, discarded⟩
  rw [List.countP_eq_zero]
  intro s member called
  obtain ⟨v, enters, rfl⟩ := Step.cleans_iff.mp called
  have dead := ((balanced h consistent).faithful s member c v enters).isDead
  rw [(throughout.1 s member).2.alive] at dead
  cases dead

end Host

/-! ### Being seen -/

/-- A cache shows nothing of a slot: to whatever looks at the key that leads there, the key is as
    good as absent. -/
def Cache.Hides (c : Cache K V) (id : SlotId) : Prop :=
  ∀ key, c.table.get? key = some id →
    c.peek key = none ∧ c.containsKey key = false ∧ (c.touch key).2 = none ∧
      (c.takeOut key).2 = none ∧ (c.releaseValueOf key).2 = none ∧
      (∀ value, (c.store key value).2 = none) ∧
      Cache.liveEntry? c (key, id) = none ∧ Cursor.current? c (key, id) = none

theorem Cache.hides_of_isDead {c : Cache K V} {id : SlotId} (dead : c.pool.isDead id = true) :
    c.Hides id := by
  have gone : c.pool.value? id = none := by
    obtain ⟨slot, found, released⟩ := SlotPool.isDead_iff.mp dead
    simp [SlotPool.value?, found, Slot.value?, released]
  intro key bound
  have absent : c.peek key = none := by
    rw [peek, bound]
    exact gone
  have entry : Cache.liveEntry? c (key, id) = none := by
    unfold liveEntry?
    rw [gone]
    rfl
  refine ⟨absent, ?_, ?_, ?_, ?_, ?_, entry, ?_⟩
  · rw [containsKey_eq, absent]
    rfl
  · rw [touch_snd, absent]
  · rw [takeOut_snd, absent]
  · have same := c.isSome_releaseValueOf key
    rw [absent] at same
    exact Option.isNone_iff_eq_none.mp (Option.isSome_eq_false_iff.mp same)
  · intro value
    have known : id ≠ c.pool.nextId := by
      rintro rfl
      rw [SlotPool.isDead_of_le (Nat.le_refl _)] at dead
      cases dead
    rw [store_snd_of_bound bound known, gone]
  · rw [Cursor.current?, entry]
    split <;> rfl

/-- A cache, if it is there, shows nothing of a slot. -/
def Host.Hides (h : Host K V) (c : CacheId) (id : SlotId) : Prop :=
  ∀ cache, h.cache? c = some cache → cache.Hides id

theorem Host.hides_of_isDead {h : Host K V} {c : CacheId} {id : SlotId}
    (dead : h.isDead c id = true) : h.Hides c id := by
  intro cache found
  rw [isDead, found, Option.any_some] at dead
  exact Cache.hides_of_isDead dead

namespace Work

/-- From its release on a slot is not shown any more. -/
theorem hides_of_releases {α : Type} {w : Work K V α} {h : Host K V} {c : CacheId} {id : SlotId}
    {before later : List (Step K V)} {s : Step K V} (split : w.steps h = before ++ s :: later)
    (dead : s.after.isDead c id = true) :
    (∀ t ∈ later, t.before.Hides c id) ∧ (w.run h).1.Hides c id := by
  have grows := Host.grows_steps w h
  rw [split] at grows
  have onward := (List.pairwise_cons.mp (List.pairwise_append.mp grows.1).2.1).1
  refine ⟨fun t member => Host.hides_of_isDead ((onward t member).isDead dead), ?_⟩
  have last := grows.2 s (List.mem_append_right _ List.mem_cons_self)
  exact Host.hides_of_isDead (last.isDead dead)

end Work

/-! ### Runs -/

/-- What can become of a stored value. -/
inductive Fate where
  /-- It is still to be had. -/
  | kept
  /-- It was released. -/
  | released
  /-- Its slot left the table with it. -/
  | discarded

/-- What has become of the value in a slot at the end of a run: whether the slot is installed and
    live, how often it was released, and how often a cleaner was called on it. -/
def Fate.Holds [BEq V] (limit : Nat) (board : PressureBoard) (acts : List (Act K V)) (c : CacheId)
    (id : SlotId) : Fate → Prop :=
  let s := ((Session.empty board).run limit acts).1
  let releases := ((Session.empty board).history limit acts).countP fun t => t.releases c id
  let cleanings := ((Session.empty board).history limit acts).countP fun t => t.cleans c id
  fun
  | kept => s.host.holds c id = true ∧ s.host.isDead c id = false ∧ releases = 0 ∧ cleanings = 0
  | released =>
      s.host.isDead c id = true ∧ releases = 1 ∧
        cleanings = if s.host.hasCleaner c then 1 else 0
  | discarded =>
      s.host.holds c id = false ∧ s.host.isDead c id = false ∧ releases = 0 ∧ cleanings = 0 ∧
        ∀ more, (s.history limit more).countP (fun t => t.cleans c id) = 0

namespace Session

variable [BEq V]

theorem balanced_run (limit : Nat) (board : PressureBoard) (acts : List (Act K V)) :
    (Act.workAll limit ([] : Cursors K) acts).Cleans (Host.empty board : Host K V) .nothing
      .nothing :=
  Work.inherited_balanced.workAll limit [] acts _ (Host.consistent_empty board)

section

variable (limit : Nat) (board : PressureBoard) (acts : List (Act K V)) (c : CacheId) (id : SlotId)

theorem count_installs :
    ((empty board : Session K V).history limit acts).countP (fun s => s.installs c id) =
      (((empty board : Session K V).run limit acts).1.host.hasMade c id).toNat := by
  have counted := Work.count_steps (P := Host.Consistent) (fun m h holds => holds.make m)
    (fun s => s.installs c id) (fun h => (h.hasMade c id).toNat)
    (fun m h consistent => Host.hasMade_make consistent m c id)
    (Act.workAll limit ([] : Cursors K) acts) (Host.consistent_empty board)
  have none : (Host.empty board : Host K V).hasMade c id = false := by
    simp [Host.hasMade, Host.empty, Host.cache?]
  rw [none, Bool.toNat_false, Nat.zero_add] at counted
  exact counted

theorem count_releases :
    ((empty board : Session K V).history limit acts).countP (fun s => s.releases c id) =
      (((empty board : Session K V).run limit acts).1.host.isDead c id).toNat := by
  have counted := Work.count_steps (P := fun _ => True) (fun _ _ _ => trivial)
    (fun s => s.releases c id) (fun h => (h.isDead c id).toNat)
    (fun m h _ => h.isDead_make m c id) (Act.workAll limit ([] : Cursors K) acts)
    (h := (Host.empty board : Host K V)) trivial
  have none : (Host.empty board : Host K V).isDead c id = false := by
    simp [Host.isDead, Host.empty, Host.cache?]
  rw [none, Bool.toNat_false, Nat.zero_add] at counted
  exact counted

theorem count_cleans :
    ((empty board : Session K V).history limit acts).countP (fun s => s.cleans c id) =
      ((empty board : Session K V).run limit acts).1.host.due c id := by
  have counted := (balanced_run limit board acts).counted c id
  have none : (Host.empty board : Host K V).due c id = 0 := by
    simp [Host.due, Host.isDead, Host.empty, Host.cache?]
  rw [none, Nat.zero_add] at counted
  exact counted

end

/-- Whether a slot is installed and whether it is dead decides its fate. -/
theorem existsUnique_fate (limit : Nat) (board : PressureBoard) (acts : List (Act K V))
    {c : CacheId} {id : SlotId}
    (made : ((empty board : Session K V).run limit acts).1.host.hasMade c id = true) :
    ∃! fate : Fate, fate.Holds limit board acts c id := by
  have consistent := consistent_run (K := K) (V := V) limit board acts
  have releases := count_releases limit board acts c id
  have cleans := count_cleans limit board acts c id
  rw [Host.due] at cleans
  -- The fates are told apart by two questions: whether the slot is dead, and whether it is installed.
  cases dead : ((empty board : Session K V).run limit acts).1.host.isDead c id with
  | true =>
    rw [dead] at releases cleans
    refine ⟨.released, ⟨dead, releases, ?_⟩, ?_⟩
    · rw [cleans, Bool.and_true]
      cases ((empty board : Session K V).run limit acts).1.host.hasCleaner c <;> rfl
    · intro fate holds
      cases fate with
      | kept => cases dead.symm.trans holds.2.1
      | released => rfl
      | discarded => cases dead.symm.trans holds.2.1
  | false =>
    rw [dead, Bool.toNat_false] at releases
    rw [dead, Bool.and_false, Bool.toNat_false] at cleans
    cases held : ((empty board : Session K V).run limit acts).1.host.holds c id with
    | true =>
      refine ⟨.kept, ⟨held, dead, releases, cleans⟩, fun fate holds => ?_⟩
      cases fate with
      | kept => rfl
      | released => cases dead.symm.trans holds.1
      | discarded => cases held.symm.trans holds.1
    | false =>
      have discarded : Host.Discarded ((empty board : Session K V).run limit acts).1.host c id :=
        ⟨made, held, dead⟩
      refine ⟨.discarded, ⟨held, dead, releases, cleans, ?_⟩, ?_⟩
      · intro more
        exact discarded.cleans consistent (Work.inherited_balanced.workAll limit _ more)
      · intro fate holds
        cases fate with
        | kept => cases held.symm.trans holds.1
        | released => cases dead.symm.trans holds.1
        | discarded => rfl

section

variable {limit : Nat} {board : PressureBoard} {acts : List (Act K V)} {c : CacheId}
  {cache : Cache K V} {id : SlotId} {slot : Slot K V} {s : Step K V}

/-- What a slot had once it has at the end of the run. -/
theorem slot_of_history (member : s ∈ (empty board).history limit acts) {early : Cache K V}
    {first : Slot K V} (there : s.after.cache? c = some early)
    (stored : early.pool.get? id = some first)
    (found : ((empty board).run limit acts).1.host.cache? c = some cache)
    (made : cache.pool.get? id = some slot) :
    slot.key = first.key ∧ slot.content = first.content :=
  ((Host.grows_steps (Act.workAll limit ([] : Cursors K) acts) (Host.empty board)).2 s member).slot
    there stored found made

/-- A slot is installed with what was to be stored. -/
theorem place_of_installs (member : s ∈ (empty board).history limit acts)
    (installs : s.installs c id = true)
    (found : ((empty board).run limit acts).1.host.cache? c = some cache)
    (made : cache.pool.get? id = some slot) : s.move = .place c slot.key slot.content := by
  obtain ⟨early, first, there, stored, place⟩ :=
    Host.exists_slot_of_installs (consistent_before limit board acts s member) installs
  obtain ⟨sameKey, sameContent⟩ := slot_of_history member there stored found made
  rw [sameKey, sameContent]
  exact place

/-- A value is released by a pass or by a reclaim. -/
theorem move_of_releases (member : s ∈ (empty board).history limit acts)
    (releases : s.releases c id = true) :
    (∃ budget, s.move = .releaseValues c budget) ∨ ∃ key, s.move = .releaseValue c key := by
  obtain ⟨_, target, releases⟩ :=
    Host.of_releases (consistent_before limit board acts s member) releases
  generalize s.move = m at target releases
  cases m with
  | releaseValues d budget =>
    cases target
    exact Or.inl ⟨budget, rfl⟩
  | releaseValue d key =>
    cases target
    exact Or.inr ⟨key, rfl⟩
  | _ => cases releases

/-- A cleaner is called with what was stored. -/
theorem enters_of_cleans (member : s ∈ (empty board).history limit acts)
    (cleans : s.cleans c id = true)
    (found : ((empty board).run limit acts).1.host.cache? c = some cache)
    (made : cache.pool.get? id = some slot) :
    s.move = .enterCleaner c ⟨id, slot.key, slot.content⟩ := by
  have faithful := (balanced_run (K := K) (V := V) limit board acts).faithful
  obtain ⟨⟨_, key, value⟩, enters, rfl⟩ := Step.cleans_iff.mp cleans
  obtain ⟨early, first, there, stored, rfl, rfl, _⟩ := faithful s member c _ enters
  obtain ⟨grown, also, grows⟩ := Host.grows_make s.move s.before c early there
  obtain ⟨later, still, ages⟩ := grows.pool.ages _ first stored
  obtain ⟨sameKey, sameContent⟩ := slot_of_history member also still found made
  rw [sameKey, sameContent, ages.key, ages.content]
  exact enters

/-- From the release of a value on, and so from the call of its cleaner on, no cache shows it. -/
theorem hides_of_history {before later : List (Step K V)}
    (split : (empty board).history limit acts = before ++ s :: later)
    (happens : s.releases c id = true ∨ s.cleans c id = true) :
    (∀ t ∈ later, t.before.Hides c id) ∧ ((empty board).run limit acts).1.host.Hides c id := by
  apply Work.hides_of_releases split
  have member : s ∈ (empty board).history limit acts := by rw [split]; simp
  rcases happens with releases | cleans
  · exact (Bool.and_eq_true _ _ |>.mp releases).2
  · obtain ⟨v, enters, rfl⟩ := Step.cleans_iff.mp cleans
    have faithful := (balanced_run (K := K) (V := V) limit board acts).faithful
    exact (Host.grows_make s.move s.before).isDead (faithful s member c v enters).isDead

end

/-- Every slot was installed once, for the key and the content that were stored, and has exactly one
    fate. It was released by a pass or by a reclaim if at all, its cleaner is called with what was
    stored, and from the release on no cache shows anything of it. -/
theorem exactly_one_fate (limit : Nat) (board : PressureBoard) (acts : List (Act K V))
    (c : CacheId) (cache : Cache K V)
    (found : ((empty board).run limit acts).1.host.cache? c = some cache) (id : SlotId)
    (slot : Slot K V) (made : cache.pool.get? id = some slot) :
    ((empty board).history limit acts).countP (fun s => s.installs c id) = 1 ∧
      (∀ s ∈ (empty board).history limit acts, s.installs c id = true →
        s.move = .place c slot.key slot.content) ∧
      (∀ key, cache.table.get? key = some id → key = slot.key) ∧
      (∃! fate : Fate, fate.Holds limit board acts c id) ∧
      (∀ s ∈ (empty board).history limit acts, s.releases c id = true →
        (∃ budget, s.move = .releaseValues c budget) ∨ ∃ key, s.move = .releaseValue c key) ∧
      (∀ s ∈ (empty board).history limit acts, s.cleans c id = true →
        s.move = .enterCleaner c ⟨id, slot.key, slot.content⟩) ∧
      (∀ before s later, (empty board).history limit acts = before ++ s :: later →
        s.releases c id = true ∨ s.cleans c id = true →
        (∀ t ∈ later, t.before.Hides c id) ∧
          ((empty board).run limit acts).1.host.Hides c id) := by
  have hasMade : ((empty board : Session K V).run limit acts).1.host.hasMade c id = true := by
    simpa [Host.hasMade, found] using SlotPool.lt_nextId made
  refine ⟨?_, ?_, ?_, existsUnique_fate limit board acts hasMade, ?_, ?_, ?_⟩
  · rw [count_installs, hasMade]
    rfl
  · intro s member installs
    exact place_of_installs member installs found made
  · intro key bound
    obtain ⟨there, same, rfl⟩ := (consistent_run limit board acts c cache found).keyed key id bound
    rw [made] at same
    cases same
    rfl
  · intro s member releases
    exact move_of_releases member releases
  · intro s member cleans
    exact enters_of_cleans member cleans found made
  · intro before s later split happens
    exact hides_of_history split happens

end Session

end

/-- The value that a nested call of a cleaner was made for. -/
theorem exactly_one_fate_restoring :
    ∃ cache slot, ((Session.empty .empty).run 2 restoringActs).1.host.cache? 0 = some cache ∧
      cache.pool.get? 0 = some slot ∧ slot.key = 1 ∧
      ((Session.empty .empty).history 2 restoringActs).countP (fun s => s.installs 0 0) = 1 ∧
      (∃! fate : Fate, fate.Holds 2 .empty restoringActs 0 0) ∧
      (∃ s ∈ (Session.empty .empty).history 2 restoringActs, s.cleans 0 0 = true ∧
        s.move = .enterCleaner 0 ⟨0, slot.key, slot.content⟩) := by
  have facts : ((((Session.empty .empty).run 2 restoringActs).1.host.cache? 0).bind fun cache =>
      cache.pool.get? 0).map Slot.key = some 1 := by decide +kernel
  obtain ⟨slot, shown, key⟩ := Option.map_eq_some_iff.mp facts
  obtain ⟨cache, found, made⟩ := Option.bind_eq_some_iff.mp shown
  have called : ((Session.empty .empty).history 2 restoringActs).any (fun s => s.cleans 0 0) =
      true := by decide +kernel
  obtain ⟨s, member, cleans⟩ := List.any_eq_true.mp called
  obtain ⟨once, _, _, fate, _, entered, _⟩ :=
    Session.exactly_one_fate 2 .empty restoringActs 0 cache found 0 slot made
  exact ⟨cache, slot, found, made, key, once, fate, s, member, cleans, entered s member cleans⟩

end ReclaimableCache
