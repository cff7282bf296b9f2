import ReclaimableCache.Proofs.Ledger

/-!
# The balance of a table

Entries enter a table when values are stored under new keys, and leave it in several ways, of which
only removals and sweeps are counted. What was stored is what is there, what was counted out and what
left uncounted. Where no cleaner touches a cache, its other counters say just as much.
-/

namespace ReclaimableCache

variable {K V α β : Type}

section

variable [DecidableEq K]

/-! ### What leaves a table uncounted -/

/-- A way in which entries leave a table uncounted. -/
inductive Exit where
  /-- Taken out by its slot. -/
  | picked
  /-- Taken out with all that a sweep left. -/
  | cleared
  /-- Taken out by a look-up that found no value. -/
  | dropped
  deriving DecidableEq

/-- How many entries a move takes out uncounted. -/
def Move.exits (cache : Cache K V) : Move K V → Exit → Nat
  | takeOutSlot _ key slot, .picked => (cache.table.isCurrent key slot).toNat
  | dropEntries _, .cleared => cache.size
  | look _ key, .dropped => ((cache.table.get? key).any fun id => !cache.pool.isLive id).toNat
  | _, _ => 0

namespace Cache

/-- A look-up that finds a dead slot takes its entry out. -/
theorem size_touch {c : Cache K V} (consistent : c.Consistent) (key : K) :
    (c.touch key).1.size + ((c.table.get? key).any fun id => !c.pool.isLive id).toNat = c.size := by
  rw [touch]
  cases bound : c.table.get? key with
  | none => rfl
  | some id =>
    have erased := consistent.table.size_eraseIfSame key id
    have current := (c.table.isCurrent_iff key id).mpr bound
    have same : (c.pin id).pool.value? id = c.pool.value? id :=
      (PinQueue.sameValues_pin c.queue c.pool id).value? id
    rw [current] at erased
    dsimp only
    rw [Option.any_some, SlotPool.isLive, ← same]
    cases (c.pin id).pool.value? id with
    | some value => rfl
    | none => exact erased

/-- An entry that is there is taken out, dead or not. -/
theorem size_takeOut {c : Cache K V} (consistent : c.Consistent) (key : K) :
    (c.takeOut key).1.size + (c.table.get? key).isSome.toNat = c.size := by
  have erased := consistent.table.size_erase key
  rw [takeOut]
  cases bound : c.table.get? key with
  | none => rfl
  | some id =>
    rw [bound] at erased
    exact erased

/-- What a move lets in is what it leaves, counts out and takes out uncounted. -/
theorem size_effect {c : Cache K V} (consistent : c.Consistent) (m : Move K V)
    (board : PressureBoard) :
    (m.effect board c).size + (m.gain board c .removals + m.gain board c .swept +
        m.exits c .picked + m.exits c .cleared + m.exits c .dropped) =
      c.size + m.gain board c .newInserts := by
  cases m with
  | sweep _ =>
    have swept := consistent.size_sweep
    simp only [Move.effect, Move.gain, Move.exits]
    omega
  | look _ key => simpa [Move.effect, Move.gain, Move.exits] using size_touch consistent key
  | place _ key value => exact c.table.size_insert key c.pool.nextId
  | takeOut _ key => exact size_takeOut consistent key
  | takeOutSlot _ key slot =>
    have erased : (c.takeOutSlot key slot).1.size + (c.table.isCurrent key slot).toNat = c.size :=
      consistent.table.size_eraseIfSame key slot
    simpa [Move.effect, Move.gain, Move.exits] using erased
  | dropEntries _ => simp [Move.effect, Move.gain, Move.exits, dropEntries, size, ShardedMap.clear]
  | releaseValue _ key =>
    rw [Move.effect, releaseValueOf]
    split <;> rfl
  | _ => rfl

end Cache

/-- How many entries of a cache a move takes out uncounted. -/
def Step.exits (c : CacheId) (exit : Exit) (s : Step K V) : Nat :=
  if s.move.target = some c then (s.before.cache? c).elim 0 fun cache => s.move.exits cache exit
  else 0

/-- How many entries of a cache moves take out uncounted. -/
def left (c : CacheId) (exit : Exit) (history : List (Step K V)) : Nat :=
  (history.map (Step.exits c exit)).sum

/-- The number of entries of a cache; one that is not there has none. -/
def Host.size (h : Host K V) (c : CacheId) : Nat := (h.cache? c).elim 0 Cache.size

/-- Whatever leaves a table is counted as removed or swept, or was picked, cleared or dropped. -/
theorem Step.size_after {s : Step K V} (consistent : s.before.Consistent) (c : CacheId) :
    s.after.size c + (s.gain c .removals + s.gain c .swept + s.exits c .picked +
        s.exits c .cleared + s.exits c .dropped) = s.before.size c + s.gain c .newInserts := by
  obtain ⟨h, m⟩ := s
  cases found : h.cache? c with
  | none =>
    have before : h.size c = 0 := by rw [Host.size, found, Option.elim_none]
    have still : (m.make h).1.size c = 0 := by
      cases there : (m.make h).1.cache? c with
      | none => rw [Host.size, there, Option.elim_none]
      | some cache =>
        rcases Move.exists_of_cache?_make m there with ⟨old, also, _⟩ | ⟨_, config, _, _, made⟩
        · rw [found] at also
          cases also
        · obtain ⟨shardCount, empty⟩ := (Cache.new_assemble made).table
          rw [Host.size, there, Option.elim_some, Cache.size, empty]
          rfl
    simp [after, still, before, gain, exits, found]
  | some cache =>
    have becomes := Move.cache?_make_of_some found m
    rw [Move.effectOn] at becomes
    by_cases target : m.target = some c
    · rw [if_pos target] at becomes
      have balance := Cache.size_effect (consistent c cache found) m h.board
      simpa [after, Host.size, becomes, found, gain, exits, target] using balance
    · rw [if_neg target] at becomes
      simp [after, Host.size, becomes, found, gain, exits, target]

/-- What was let in is there, was counted out, or left uncounted. -/
theorem Work.size_run (w : Work K V α) {h : Host K V} (consistent : h.Consistent) (c : CacheId) :
    (w.run h).1.size c + gained c .removals (w.steps h) + gained c .swept (w.steps h) +
        left c .picked (w.steps h) + left c .cleared (w.steps h) + left c .dropped (w.steps h) =
      h.size c + gained c .newInserts (w.steps h) := by
  have all := Work.balance_run (fun h => h.size c) fun s member =>
    Step.size_after ((consistent.work w).1 s member) c
  simp only [List.sum_map_add] at all
  simp only [gained, left]
  omega

/-! ### What is picked -/

omit [DecidableEq K] in
/-- Whether a move takes out an entry by its slot, or notes that code of a caller asked for that. -/
def Move.picks : Move K V → Bool
  | takeOutSlot .. | noteServed _ (.removeRecent ..) _ => true
  | _ => false

omit [DecidableEq K] in
/-- Whether it is noted that code of a caller took an entry of a cache out by its slot. -/
def Step.notesPick (c : CacheId) (s : Step K V) : Bool :=
  match s.move with
  | .noteServed d (.removeRecent ..) (.flag taken) => d == c && taken
  | _ => false

/-- What a move takes out of a cache by its slot, less what is noted so. -/
def Step.unnotedPicks (c : CacheId) (s : Step K V) : ℤ :=
  s.exits c .picked - (s.notesPick c).toNat

namespace Work

variable {c : CacheId}

/-- In the course of some work as many entries of a cache are taken out by their slots as are noted
    so. -/
def PicksNoted (c : CacheId) (w : Work K V α) : Prop :=
  ∀ h : Host K V, w.total (Step.unnotedPicks c) h = 0

theorem picksNoted_pure (a : α) : (pure a : Work K V α).PicksNoted c := fun _ => rfl

/-- Picks are noted in each part. -/
theorem PicksNoted.bind {w : Work K V α} {f : α → Work K V β} (first : w.PicksNoted c)
    (second : ∀ a, (f a).PicksNoted c) : (w >>= f).PicksNoted c := by
  intro h
  rw [total_bind, first, second, zero_add]

/-- A move that neither picks nor notes anything needs no note. -/
theorem picksNoted_make {m : Move K V} (other : m.picks = false) : (make m).PicksNoted c := by
  intro h
  rw [total_make, Step.unnotedPicks]
  have silent : Step.notesPick c ⟨h, m⟩ = false := by
    cases m with
    | noteServed d request reply => cases request <;> first | rfl | cases other
    | _ => rfl
  have kept : Step.exits c .picked ⟨h, m⟩ = 0 := by
    rw [Step.exits]
    cases h.cache? c with
    | none => exact ite_self _
    | some cache => cases m <;> first | exact ite_self _ | cases other
  rw [silent, kept]
  rfl

theorem picksNoted_disposing (m : Move K V) (disposing : m.disposing = true) :
    (make m).PicksNoted c :=
  picksNoted_make (by cases m <;> first | rfl | cases disposing)

/-- A move that takes out an entry by its slot says whether it did. -/
theorem total_takeOutSlot (h : Host K V) (d : CacheId) (key : K) (id : SlotId) :
    (make (.takeOutSlot d key id)).total (Step.unnotedPicks c) h =
      if d = c then (((Move.takeOutSlot d key id).make h).2.toNat : ℤ) else 0 := by
  have silent : Step.notesPick c (⟨h, .takeOutSlot d key id⟩ : Step K V) = false := rfl
  rw [total_make, Step.unnotedPicks, silent, Step.exits, Move.make, Host.onCache]
  by_cases same : d = c
  · subst same
    cases h.cache? d <;> simp [Move.target, Move.exits, Cache.takeOutSlot]
  · simp [Move.target, same]

theorem sequenced_picksNoted : Sequenced fun _ (w : Work K V _) => w.PicksNoted c :=
  ⟨picksNoted_pure, fun first second => first.bind second, picksNoted_make rfl⟩

theorem drained_picksNoted : Drained fun _ (w : Work K V _) => w.PicksNoted c := by
  refine drained_of_moves picksNoted_pure (fun first second => first.bind second) ?_ ?_
  · intro m regular
    exact picksNoted_make (by cases m <;> first | rfl | cases regular)
  · intro run callbacks d budget
    exact sequenced_picksNoted.evict callbacks picksNoted_disposing (fun _ _ => picksNoted_make rfl)
      (fun _ _ _ => picksNoted_make rfl) d budget

/-- A request to take out an entry by its slot is noted with what it did. -/
theorem picksNoted_removeRecent (run : CallbackRunner K V) (d : CacheId) (key : K) (age : Nat) :
    (Host.perform run d (.removeRecent key age)).PicksNoted c := by
  apply sequenced_picksNoted.bind sequenced_picksNoted.view
  intro h
  cases h.cache? d with
  | none => exact picksNoted_pure _
  | some cache =>
    intro g
    have noted : ∀ (g : Host K V) (taken : Bool),
        (make (.noteServed d (.removeRecent key age) (.flag taken))).total (Step.unnotedPicks c) g =
          if d = c then -(taken.toNat : ℤ) else 0 := by
      intro g taken
      have kept : Step.exits c .picked
          (⟨g, .noteServed d (.removeRecent key age) (.flag taken)⟩ : Step K V) = 0 := rfl
      rw [total_make, Step.unnotedPicks, kept, Step.notesPick]
      by_cases same : d = c <;> simp [same]
    dsimp only
    rw [total_bind, performOn, total_map, run_map, total_bind, noted, total_pure, add_zero]
    cases cache.pool.recent? age with
    | none => simp [removeSlot]
    | some id =>
      rw [removeSlot, total_takeOutSlot, run_make]
      split
      · exact add_neg_cancel _
      · rfl

/-- The only request that picks an entry notes it. -/
theorem operated_picksNoted : Operated fun _ (w : Work K V _) => w.PicksNoted c := by
  apply drained_picksNoted.operated
  intro run callbacks d request
  by_cases removes : ∃ key age, request = .removeRecent key age
  · obtain ⟨key, age, rfl⟩ := removes
    exact picksNoted_removeRecent run d key age
  · have note : ∀ reply, (make (.noteServed d request reply) : Work K V Unit).PicksNoted c := by
      intro reply
      refine picksNoted_make ?_
      cases request <;> first | rfl | exact absurd ⟨_, _, rfl⟩ removes
    refine drained_picksNoted.perform callbacks d (fun key value _ => picksNoted_make rfl)
      (fun key age same => absurd ⟨key, age, same⟩ removes) (fun key _ => ?_) note
    exact sequenced_picksNoted.reclaim callbacks picksNoted_disposing
      (fun _ _ => picksNoted_make rfl) (fun _ _ => picksNoted_make rfl) d key

theorem picksNoted_insertAll (limit : Nat) (d : CacheId)
    (source : List (Routine K V (Except Panic (K × V)))) :
    (insertAll limit d source).PicksNoted c :=
  drained_picksNoted.insertAll operated_picksNoted limit (fun _ _ => picksNoted_make rfl) source

/-- A part of `retain` counts what it takes out, beside what was taken out before. What the predicate
    takes out is noted. -/
def Counts (c : CacheId) (r : Retention K V) (w : Work K V (Retention K V)) : Prop :=
  ∀ h : Host K V, ((w.run h).2.removed : ℤ) = r.removed + w.total (Step.unnotedPicks c) h

variable {r : Retention K V}

theorem counts_pure {r' : Retention K V} (same : r'.removed = r.removed) :
    (pure r' : Work K V _).Counts c r := by
  intro h
  rw [run_pure, total_pure, same, add_zero]

/-- A walk goes on counting from what it has counted. -/
theorem Counts.bind {w : Work K V (Retention K V)} {f : Retention K V → Work K V (Retention K V)}
    (first : w.Counts c r) (second : ∀ r', (f r').Counts c r') : (w >>= f).Counts c r := by
  intro h
  have before := first h
  have rest := second (w.run h).2 (w.run h).1
  rw [run_bind, total_bind]
  omega

/-- What is noted is not counted again. -/
theorem counts_after {w : Work K V α} {f : α → Work K V (Retention K V)}
    (noted : w.PicksNoted c) (second : ∀ a, (f a).Counts c r) : (w >>= f).Counts c r := by
  intro h
  rw [run_bind, total_bind, noted, zero_add]
  exact second _ _

theorem counts_foldlM {f : Retention K V → α → Work K V (Retention K V)}
    (each : ∀ r a, (f r a).Counts c r) (as : List α) : (as.foldlM f r).Counts c r := by
  induction as generalizing r with
  | nil => exact counts_pure rfl
  | cons a as ih => exact (each r a).bind fun _ => ih

theorem counts_view {f : Host K V → Work K V (Retention K V)} (rest : ∀ h, (f h).Counts c r) :
    (make .view >>= f).Counts c r :=
  counts_after sequenced_picksNoted.view rest

variable (limit : Nat) (keep : Predicate K V)

/-- An entry that is taken out is counted once. -/
theorem counts_retainEntry (r : Retention K V) (e : K × SlotId) :
    (retainEntry limit c keep r e).Counts c r := by
  apply counts_view
  intro h
  split
  · exact counts_pure rfl
  · apply counts_after (sequenced_picksNoted.routine (operated_picksNoted.serve limit) _)
    intro answered
    dsimp only
    split
    · exact counts_pure rfl
    · intro g
      rw [run_bind, run_make, run_pure, total_bind, total_takeOutSlot, total_pure, if_pos rfl,
        add_zero]
      cases ((Move.takeOutSlot c e.1 e.2).make g).2 <;> rfl

theorem counts_retain (c : CacheId) : (retain limit c keep).Counts c .start := by
  apply counts_view
  intro h
  split
  · exact counts_pure rfl
  · refine counts_foldlM (fun r index => ?_) _
    apply counts_view
    intro h
    split
    · exact counts_pure rfl
    · exact counts_foldlM (counts_retainEntry limit keep) _

end Work

/-! ### What answers say about picks -/

/-- How many entries an answer says that an act took out of a cache by their slots. -/
def Act.picked (cursors : Cursors K) (c : CacheId) : Act K V → Answer K V → Nat
  | .on d (.removeEntry ..), .reply (.flag taken) => if d = c then taken.toNat else 0
  | .on d (.retain _), .retained removed _ => if d = c then removed else 0
  | .on _ (.removeLast name), .reply (.flag taken) =>
      if (cursors.get? name).map OpenCursor.cache = some c then taken.toNat else 0
  | _, _ => 0

namespace Act

omit [DecidableEq K] in
/-- Commands that pick nothing say nothing about picks. -/
theorem picked_eq_zero {command : Command K V} (picks : command.picks = false) (cursors : Cursors K)
    (c d : CacheId) (answer : Answer K V) : Act.picked cursors c (.on d command) answer = 0 := by
  cases command <;> first | rfl | cases picks

variable [BEq V] (limit : Nat) (cursors : Cursors K) (c : CacheId)

/-- What is picked out of a cache in the course of a command is noted, or is what the answer says. -/
theorem picked_workOn (d : CacheId) (cache : Cache K V) (command : Command K V) (h : Host K V) :
    (command.workOn limit cursors d cache).total (Step.unnotedPicks c) h =
      Act.picked cursors c (.on d command) ((command.workOn limit cursors d cache).run h).2.2 := by
  -- Only three commands pick entries without a note, and each of them answers what it picked.
  cases picks : command.picks with
  | false =>
    rw [picked_eq_zero picks]
    refine Work.operated_picksNoted.workOn limit cursors d cache ?_ ?_ h
    · exact fun source _ => Work.picksNoted_insertAll limit d source
    · intro does
      rw [picks] at does
      cases does
  | true =>
    cases command with
    | removeEntry key value =>
      rw [Command.workOn]
      cases cache.slotHolding? key value with
      | none => simp [Act.picked, Answer.flag]
      | some id =>
        dsimp only
        rw [Work.run_bind, Work.total_bind, Work.run_make, Work.run_pure, Work.total_takeOutSlot,
          Work.total_pure, add_zero, Act.picked.eq_def]
        exact (Nat.cast_ite ..).symm
    | retain keep =>
      rw [Command.workOn, Work.run_bind, Work.total_bind, Work.run_pure, Work.total_pure, add_zero,
        Act.picked.eq_def]
      by_cases same : d = c
      · subst same
        have counts := Work.counts_retain limit keep d h
        rw [Work.Retention.start, Nat.cast_zero, zero_add] at counts
        exact counts.symm.trans (congrArg Nat.cast (if_pos rfl).symm)
      · refine Eq.trans ?_ (congrArg Nat.cast (if_neg same).symm)
        exact Work.sequenced_picksNoted.retain (Work.operated_picksNoted.serve limit)
          (fun key id g => by rw [Work.total_takeOutSlot, if_neg same]) keep h
    | removeLast name =>
      rw [Command.workOn, Command.onCursor]
      cases opened : cursors.get? name with
      | none => rfl
      | some o =>
        have viewed : (Work.make (.view : Move K V)).total (Step.unnotedPicks c) h = 0 :=
          Work.sequenced_picksNoted.view h
        dsimp only
        rw [Work.run_bind, Work.total_bind, Work.run_make, viewed, zero_add]
        simp only [Move.make]
        cases h.cache? o.cache with
        | none => rfl
        | some cache =>
          dsimp only
          cases o.cursor.last with
          | none => simp [Act.picked, Answer.flag]
          | some e =>
            dsimp only
            rw [Work.run_bind, Work.total_bind, Work.run_bind, Work.total_bind, Work.run_make,
              Work.run_pure, Work.run_pure, Work.total_pure, Work.total_pure,
              Work.total_takeOutSlot]
            simp [Act.picked, Answer.flag, opened]
    | _ => cases picks

/-- What is picked without a note is what the answer says. -/
theorem picked_work (a : Act K V) (h : Host K V) :
    (a.work limit cursors).total (Step.unnotedPicks c) h =
      a.picked cursors c ((a.work limit cursors).run h).2.2 := by
  cases a with
  | build config =>
    apply (Work.sequenced_picksNoted.bind (Work.picksNoted_make rfl) fun built => ?_) h
    cases built <;> exact Work.picksNoted_pure _
  | on d command =>
    have viewed : (Work.make (.view : Move K V)).total (Step.unnotedPicks c) h = 0 :=
      Work.sequenced_picksNoted.view h
    rw [work, Command.work, Work.run_bind, Work.total_bind, Work.run_make, viewed, zero_add]
    simp only [Move.make]
    cases h.cache? d with
    | none => cases command <;> rfl
    | some cache => exact picked_workOn limit cursors c d cache command h

end Act

namespace Session

variable [BEq V]

/-- How many entries the answers of a run say that it took out of a cache by their slots. -/
def picked (limit : Nat) (c : CacheId) : Session K V → List (Act K V) → Nat
  | _, [] => 0
  | s, a :: rest =>
      let done := s.act limit a
      a.picked s.cursors c done.2 + picked limit c done.1 rest

/-- And so along a session. -/
theorem total_picked (limit : Nat) (c : CacheId) (s : Session K V) (acts : List (Act K V)) :
    (Act.workAll limit s.cursors acts).total (Step.unnotedPicks c) s.host =
      s.picked limit c acts := by
  induction acts generalizing s with
  | nil => rfl
  | cons a rest ih =>
    rw [Act.workAll, Work.total_bind, Work.total_bind, Work.total_pure, add_zero,
      a.picked_work limit s.cursors c s.host, picked, Nat.cast_add]
    exact congrArg _ (ih (s.act limit a).1)

/-- What a run takes out of a cache by its slot is what its answers say, and what code of a caller is
    noted to have taken out. -/
theorem left_picked_history (limit : Nat) (c : CacheId) (s : Session K V) (acts : List (Act K V)) :
    left c .picked (s.history limit acts) =
      s.picked limit c acts + (s.history limit acts).countP (Step.notesPick c) := by
  have told := total_picked limit c s acts
  have parts : ∀ t ∈ s.history limit acts,
      (t.exits c .picked : ℤ) = (t.notesPick c).toNat + t.unnotedPicks c := fun t _ => by
    rw [Step.unnotedPicks]
    omega
  have each := sum_eq_add_sum parts
  rw [Work.total] at told
  rw [← countP_eq_sum] at each
  rw [left, history] at *
  omega

end Session

end

end ReclaimableCache
