import ReclaimableCache.Proofs.Fate

/-!
# Look-ups that find nothing

A look-up pins the slot that it finds before it reads the slot. Outside of cleaners this makes no
difference to a look-up that comes to nothing: the drain before it has taken every dead entry out.
In the course of a release the values are gone and their entries still there, and a cleaner that
looks such a key up has the dead slot pinned, at the cost of the oldest pin. This happens with slots
in flight only, which were released and do not wait to be swept out yet.
-/

namespace ReclaimableCache

variable {K V : Type} [DecidableEq K]

/-- Whether a slot of a cache waits to be swept out. -/
def Host.waits (h : Host K V) (c : CacheId) (id : SlotId) : Bool :=
  (h.cache? c).any fun cache => cache.pending.contains id

/-- Whether a slot of a cache is put in line to be swept out. -/
def Step.queues (s : Step K V) (c : CacheId) (id : SlotId) : Bool :=
  !s.before.waits c id && s.after.waits c id

/-- After the moves of a past a slot of a cache has been released, and not been put in line yet. -/
def InFlight (past : List (Step K V)) (c : CacheId) (id : SlotId) : Prop :=
  (∃ t ∈ past, t.releases c id = true) ∧ ∀ t ∈ past, t.queues c id = false

/-- A dead slot without an entry. -/
def Host.SweptOut (h : Host K V) (c : CacheId) (id : SlotId) : Prop :=
  h.isDead c id = true ∧ h.holds c id = false

namespace Host

variable {h : Host K V} {c : CacheId} {id : SlotId}

omit [DecidableEq K] in
theorem waits_iff {cache : Cache K V} (found : h.cache? c = some cache) :
    h.waits c id = true ↔ id ∈ cache.pending := by
  simp [waits, found]

/-- A dead slot that is out of the table stays out. -/
theorem SweptOut.make (swept : h.SweptOut c id) (consistent : h.Consistent) (m : Move K V) :
    (m.make h).1.SweptOut c id := by
  obtain ⟨dead, out⟩ := swept
  refine ⟨(h.grows_make m).isDead dead, ?_⟩
  cases held : (m.make h).1.holds c id with
  | false => rfl
  | true =>
    cases found : h.cache? c with
    | none => simp [isDead, found] at dead
    | some cache =>
      rcases holds_make consistent found held with before | ⟨key, value, rfl, rfl⟩
      · rw [out] at before
        cases before
      · simp [isDead, found, SlotPool.isDead_of_le (Nat.le_refl _)] at dead

/-- What waits to be swept out goes on waiting, or its entry is out. -/
theorem waits_make (waits : h.waits c id = true) (consistent : h.Consistent) {flight : Flight}
    (accounts : h.Accounts flight) (m : Move K V) :
    (m.make h).1.waits c id = true ∨ (m.make h).1.SweptOut c id := by
  cases found : h.cache? c with
  | none => simp [Host.waits, found] at waits
  | some cache =>
    have member := (waits_iff found).mp waits
    have after := Move.cache?_make_of_some found m
    have dead := (accounts.present c cache found).dead id (List.mem_append_left _ member)
    by_cases sweeps : m = .sweep c
    · subst sweeps
      right
      have here := consistent c cache found
      have out : ¬ ((Move.sweep c).make h).1.holds c id = true := by
        rw [holds_iff (consistent.make _) after]
        rintro ⟨key, bound⟩
        rw [Move.effectOn, Move.target, if_pos rfl, Move.effect, here.get?_sweep,
          Option.filter_eq_some_iff] at bound
        simp [member] at bound
      exact ⟨(h.grows_make _).isDead (by simp [isDead, found, dead]), by simpa using out⟩
    · left
      rw [waits_iff after, Move.effectOn]
      split
      · rename_i target
        by_cases enqueues : ∃ d slot, m = .enqueue d slot
        · obtain ⟨d, slot, rfl⟩ := enqueues
          exact List.mem_append_left _ member
        · rw [Cache.pending_effect cache h.board]
          · exact member
          · exact fun d slot same => enqueues ⟨d, slot, same⟩
          · rintro d rfl
            obtain rfl : d = c := Option.some.inj target
            exact sweeps rfl
      · exact member

end Host

namespace Session

variable [BEq V] {limit : Nat} {board : PressureBoard} {acts : List (Act K V)}
  {before later : List (Step K V)} {s : Step K V}

/-- The value in a dead slot was released before. -/
theorem released_of_isDead (split : (empty board).history limit acts = before ++ s :: later)
    {c : CacheId} {id : SlotId} (dead : s.before.isDead c id = true) :
    ∃ t ∈ before, t.releases c id = true := by
  have start : (Host.empty board : Host K V).isDead c id = true →
      ∃ t ∈ ([] : List (Step K V)), t.releases c id = true := by
    intro dead
    simp [Host.isDead, Host.empty, Host.cache?] at dead
  refine Work.along_steps (P := fun past (h : Host K V) => h.isDead c id = true →
    ∃ t ∈ past, t.releases c id = true) ?_ (Act.workAll limit ([] : Cursors K) acts) start split dead
  intro past m h earlier dead
  cases was : h.isDead c id with
  | true =>
    obtain ⟨t, member, releases⟩ := earlier was
    exact ⟨t, List.mem_append_left _ member, releases⟩
  | false =>
    refine ⟨⟨h, m⟩, List.mem_append_right _ List.mem_cons_self, ?_⟩
    rw [Step.releases, was]
    exact dead

/-- What was put in line waits, or its entry is out. -/
theorem waits_of_queues (split : (empty board).history limit acts = before ++ s :: later)
    {c : CacheId} {id : SlotId} {t : Step K V} (member : t ∈ before)
    (queues : t.queues c id = true) :
    s.before.waits c id = true ∨ s.before.SweptOut c id := by
  have start : (∃ t ∈ ([] : List (Step K V)), t.queues c id = true) →
      (Host.empty board : Host K V).waits c id = true ∨
        (Host.empty board : Host K V).SweptOut c id := by
    rintro ⟨t, member, _⟩
    cases member
  refine (Work.along_run (P := fun past (h : Host K V) => (∃ t ∈ past, t.queues c id = true) →
    h.waits c id = true ∨ h.SweptOut c id) (Act.workAll limit ([] : Cursors K) acts) ?_ start).1
    before s later split ⟨t, member, queues⟩
  rintro past u inside earlier ⟨t, member, queues⟩
  have consistent := consistent_before limit board acts u inside
  obtain ⟨flight, accounts⟩ := (accounts_run limit board acts).2 u inside
  rcases List.mem_append.mp member with member | member
  · rcases earlier ⟨t, member, queues⟩ with waits | swept
    · exact Host.waits_make waits consistent accounts u.move
    · exact Or.inr (swept.make consistent u.move)
  · obtain rfl := List.mem_singleton.mp member
    exact Or.inl (Bool.and_eq_true _ _ |>.mp queues).2

end Session

/-! ### Looking up -/

/-- A look-up that comes to nothing leaves all pins alone if there is no entry. If there is one, its
    slot is dead and is pinned, and the entry goes. -/
theorem Move.look_of_missed {h : Host K V} {c : CacheId} {cache : Cache K V}
    (found : h.cache? c = some cache) {key : K} (missed : ((Move.look c key).make h).2 = none) :
    ∃ after, ((Move.look c key).make h).1.cache? c = some after ∧
      ((cache.table.get? key = none ∧ after.queue = cache.queue ∧ after.pool = cache.pool) ∨
        ∃ id, cache.table.get? key = some id ∧ cache.pool.isLive id = false ∧
          (after.queue, after.pool) = cache.queue.pin cache.pool id ∧
          after.table.get? key = none) := by
  have later := Move.cache?_make_of_target found (m := .look c key) rfl
  rw [Cache.look_snd found, Cache.peek] at missed
  refine ⟨_, later, ?_⟩
  rw [Move.effect]
  cases bound : cache.table.get? key with
  | none =>
    left
    simp only [Cache.touch, bound]
    exact ⟨trivial, rfl, rfl⟩
  | some id =>
    right
    rw [bound, Option.bind_some] at missed
    have same := (PinQueue.sameValues_pin cache.queue cache.pool id).value? id
    refine ⟨id, rfl, by rw [SlotPool.isLive, missed]; rfl, ?_⟩
    simp only [Cache.touch, bound, Cache.pin, same, missed]
    refine ⟨rfl, ?_⟩
    show (cache.table.eraseIfSame key id).get? key = none
    rw [ShardedMap.get?_eraseIfSame, if_pos ⟨rfl, bound⟩]

namespace Session

variable [BEq V]

/-- A look-up that finds no value leaves the queue and all pins as they are after its drain, at
    whatever depth it is made; so it is for every look-up outside of cleaners. Only in the course of
    a cleaner it may come upon the entry of a slot in flight, released and not in line yet: this slot
    is pinned as the newest, and its entry goes. -/
theorem missed_look_pins (limit : Nat) (board : PressureBoard) (acts : List (Act K V))
    {earlier later : List (Step K V)} {level : Nat} {h : Host K V} {c : CacheId} {key : K}
    {cache : Cache K V}
    (split : (empty board).history limit acts =
      earlier ++ (Work.get (Host.runCallbacks level) c key).steps h ++ later)
    (missed : ((Work.get (Host.runCallbacks level) c key).run h).2 = none)
    (drained : ((Work.drain (Host.runCallbacks level) c).run h).1.cache? c = some cache) :
    ∃ after, ((Work.get (Host.runCallbacks level) c key).run h).1.cache? c = some after ∧
      ((cache.table.get? key = none ∧ after.queue = cache.queue ∧ after.pool = cache.pool) ∨
        0 < h.active ∧ ∃ id, cache.table.get? key = some id ∧
          InFlight (earlier ++ (Work.drain (Host.runCallbacks level) c).steps h) c id ∧
          (after.queue, after.pool) = cache.queue.pin cache.pool id ∧
          after.table.get? key = none) := by
  have nested := (Work.inherited_nested.drain (Work.inherited_nested.runCallbacks level) c) h
  have swept := Work.swept_drain (Host.runCallbacks level) c h cache drained
  rw [Work.get, Work.steps_bind, Work.steps_make, ← List.append_assoc, List.append_assoc,
    List.singleton_append] at split
  rw [Work.run_get] at missed ⊢
  generalize ((Work.drain (Host.runCallbacks level) c).run h).1 = ready at *
  generalize earlier ++ (Work.drain (Host.runCallbacks level) c).steps h = past at *
  have member : (⟨ready, .look c key⟩ : Step K V) ∈ (empty board).history limit acts := by
    rw [split]
    exact List.mem_append_right _ List.mem_cons_self
  obtain ⟨after, there, cases⟩ := Move.look_of_missed drained missed
  refine ⟨after, there, cases.imp_right ?_⟩
  rintro ⟨id, bound, unread, pinned, erased⟩
  have consistent := consistent_before limit board acts _ member
  have here := consistent c cache drained
  have dead : ready.isDead c id = true := by
    have live := SlotPool.isLive_eq_not_isDead (here.lt_nextId bound)
    rw [unread] at live
    simpa [Host.isDead, drained] using live.symm
  refine ⟨?_, id, bound, ⟨released_of_isDead split dead, ?_⟩, pinned, erased⟩
  · rw [← nested.1]
    apply Nat.pos_of_ne_zero
    -- A policy asked outside all calls leaves no dead slot installed.
    intro outside
    have live := (live_of_asked member outside drained).1 key id rfl bound
    rw [unread] at live
    cases live
  · intro t earlier
    -- Had the slot been queued, the sweep of the drain would have taken its entry out.
    cases queues : t.queues c id with
    | false => rfl
    | true =>
      rcases waits_of_queues split earlier queues with waits | gone
      · rw [Host.waits_iff drained, swept] at waits
        cases waits
      · have held := (Host.holds_iff consistent drained).mpr ⟨key, bound⟩
        rw [gone.2] at held
        cases held

end Session

/-- A cache with one pin, whose cleaner looks up the key that it was called with. -/
def Config.wistful : Config UInt64 Nat where
  pinCapacity := 1
  shards := some 2
  hasher := .standard
  cleaner := some {
    callbacks := fun call => .inTurn 0 [.get call.key] ()
    verdict := fun _ => .succeeded }
  policy := .manual
  signal := none

/-- Two values are stored in such a cache, and what has no pins is released. -/
def wistfulActs : List (Act UInt64 Nat) :=
  [.build .wistful, .on 0 (.request (.insert 1 10)), .on 0 (.request (.insert 2 20)),
    .on 0 (.request .releaseUnpinned)]

/-- The look-up that the cleaner makes on the first value, with the queue, the pins of the second
    value and its slot before and after. -/
theorem wistful_look :
    ∃ earlier later h, (Session.empty .empty).history 1 wistfulActs =
        earlier ++ (Work.get (Host.runCallbacks 0) 0 1).steps h ++ later ∧ h.active = 1 ∧
      ((Work.get (Host.runCallbacks 0) 0 1).run h).2 = none ∧
      (((Work.drain (Host.runCallbacks 0) 0).run h).1.cache? 0).map (fun cache =>
        (cache.queue.ids, cache.pool.pins 1, cache.table.get? 1, cache.liveSlot? 2)) =
          some ([1], 1, some 0, some 1) ∧
      (((Work.get (Host.runCallbacks 0) 0 1).run h).1.cache? 0).map (fun cache =>
        (cache.queue.ids, cache.pool.pins 1, cache.table.get? 1, cache.liveSlot? 2)) =
          some ([0], 0, none, some 1) := by
  have there : ∃ s, ((Session.empty .empty).history 1 wistfulActs)[19]? = some s ∧
      (((Session.empty .empty).history 1 wistfulActs).drop 19).take 3 =
        (Work.get (Host.runCallbacks 0) 0 1).steps s.before := ⟨_, rfl, rfl⟩
  obtain ⟨s, at19, looks⟩ := there
  have level : ((Session.empty .empty).history 1 wistfulActs)[19]?.map (fun s =>
      (s.before.active, ((Work.get (Host.runCallbacks 0) 0 1).run s.before).2)) =
        some (1, none) := by decide +kernel
  have before : (((Session.empty .empty).history 1 wistfulActs)[19]?.bind fun s =>
      ((Work.drain (Host.runCallbacks 0) 0).run s.before).1.cache? 0).map (fun cache =>
        (cache.queue.ids, cache.pool.pins 1, cache.table.get? 1, cache.liveSlot? 2)) =
          some ([1], 1, some 0, some 1) := by decide +kernel
  have after : (((Session.empty .empty).history 1 wistfulActs)[19]?.bind fun s =>
      ((Work.get (Host.runCallbacks 0) 0 1).run s.before).1.cache? 0).map (fun cache =>
        (cache.queue.ids, cache.pool.pins 1, cache.table.get? 1, cache.liveSlot? 2)) =
          some ([0], 0, none, some 1) := by decide +kernel
  rw [at19, Option.map_some, Option.some.injEq, Prod.mk.injEq] at level
  rw [at19, Option.bind_some] at before after
  refine ⟨((Session.empty .empty).history 1 wistfulActs).take 19,
    (((Session.empty .empty).history 1 wistfulActs).drop 19).drop 3, s.before, ?_, level.1,
    level.2, before, after⟩
  rw [← looks, List.append_assoc, List.take_append_drop, List.take_append_drop]

/-- The look-up of the value that was just released takes away the only pin, that of the second
    value. The next release takes this one, too. -/
theorem missed_look_unpins_wistful :
    (∃ earlier later h cache after, (Session.empty .empty).history 1 wistfulActs =
        earlier ++ (Work.get (Host.runCallbacks 0) 0 1).steps h ++ later ∧
      ((Work.get (Host.runCallbacks 0) 0 1).run h).2 = none ∧
      ((Work.drain (Host.runCallbacks 0) 0).run h).1.cache? 0 = some cache ∧
      ((Work.get (Host.runCallbacks 0) 0 1).run h).1.cache? 0 = some after ∧
      cache.liveSlot? 2 = some 1 ∧ cache.pool.pins 1 = 1 ∧ after.pool.pins 1 = 0 ∧
      after.queue.ids ≠ cache.queue.ids) ∧
    ((Session.empty .empty).run 1 (wistfulActs ++
      [.on 0 (.request .releaseUnpinned), .on 0 (.request (.peek 2))])).2.drop 4 =
        [.reply (.count 1), .reply (.value none)] := by
  refine ⟨?_, rfl⟩
  obtain ⟨earlier, later, h, split, _, missed, before, after⟩ := wistful_look
  obtain ⟨cache, drained, early⟩ := Option.map_eq_some_iff.mp before
  obtain ⟨last, ends, late⟩ := Option.map_eq_some_iff.mp after
  simp only [Prod.mk.injEq] at early late
  obtain ⟨queue, pins, _, live⟩ := early
  obtain ⟨queue', pins', _, _⟩ := late
  refine ⟨earlier, later, h, cache, last, split, missed, drained, ends, live, pins, pins', ?_⟩
  rw [queue, queue']
  decide

/-- The look-up is made inside the cleaner, and it comes upon the slot in flight. -/
theorem missed_look_pins_wistful :
    ∃ earlier later h cache, (Session.empty .empty).history 1 wistfulActs =
        earlier ++ (Work.get (Host.runCallbacks 0) 0 1).steps h ++ later ∧
      ((Work.drain (Host.runCallbacks 0) 0).run h).1.cache? 0 = some cache ∧
      cache.table.get? 1 = some 0 ∧
      InFlight (earlier ++ (Work.drain (Host.runCallbacks 0) 0).steps h) 0 0 := by
  obtain ⟨earlier, later, h, split, _, missed, before, _⟩ := wistful_look
  obtain ⟨cache, drained, early⟩ := Option.map_eq_some_iff.mp before
  simp only [Prod.mk.injEq] at early
  obtain ⟨after, _, cases⟩ :=
    Session.missed_look_pins 1 .empty wistfulActs split missed drained
  rcases cases with ⟨absent, _⟩ | ⟨_, id, bound, flight, _⟩
  · rw [early.2.2.1] at absent
    cases absent
  · obtain rfl : 0 = id := Option.some.inj (early.2.2.1.symm.trans bound)
    exact ⟨earlier, later, h, cache, split, drained, bound, flight⟩

end ReclaimableCache
