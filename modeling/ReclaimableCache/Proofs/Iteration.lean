import ReclaimableCache.Proofs.Protection
import ReclaimableCache.Proofs.Shape
import ReclaimableCache.Proofs.Walk

/-!
# Cursors of sessions

The shard of a key is fixed when a cache is built. So the contract of walks holds for a cursor that
goes on at any points of time of a run, and in particular for one that is open in a session, between
whose steps anything may be done to the cache, through other cursors and by cleaners too.
-/

namespace ReclaimableCache

variable {K V : Type}

variable [DecidableEq K]

theorem Host.Lays.laid {h : Host K V} {c : CacheId} {home : K → Nat} {count : Nat}
    (lays : h.Lays c home count) (consistent : h.Consistent) {cache : Cache K V}
    (found : h.cache? c = some cache) : cache.Laid home count := by
  obtain ⟨same, there, rfl, rfl⟩ := lays
  rw [found] at there
  cases there
  exact ⟨consistent c cache found, fun _ => rfl, rfl⟩

/-! ### Open cursors -/

omit [DecidableEq K] in
theorem Cursors.get?_set (cursors : Cursors K) (name other : Nat) (o : OpenCursor K) :
    (cursors.set name o).get? other = if other = name then some o else cursors.get? other := by
  rw [get?, set, List.lookup_cons, Shard.lookup_filter_ne, get?]
  by_cases same : other = name
  · simp [same]
  · have different : (other == name) = false := beq_eq_false_iff_ne.mpr same
    rw [different, if_neg same, if_neg same]

/-- The cursor that a command opens, moves or removes through. -/
def Command.cursor? : Command K V → Option Nat
  | openCursor name _ | stepCursor name | exhaustCursor name | removeLast name => some name
  | _ => none

namespace Work

variable {α : Type} {h : Host K V} {cursors : Cursors K} {name : Nat} {o : OpenCursor K}

theorem run_onCursor {cache : Cache K V} (there : cursors.get? name = some o)
    (found : h.cache? o.cache = some cache)
    (f : Cache K V → OpenCursor K → Work K V (OpenCursor K × Answer K V)) :
    (Command.onCursor cursors name f).run h =
      let worked := (f cache o).run h
      (worked.1, cursors.set name worked.2.1, worked.2.2) := by
  rw [Command.onCursor, there]
  dsimp only
  rw [run_bind, run_make]
  simp only [Move.make, found]
  rw [run_bind]
  rfl

/-- Work on one cursor leaves the others open as they are. -/
theorem get?_onCursor {other : Nat} (apart : other ≠ name)
    (f : Cache K V → OpenCursor K → Work K V (OpenCursor K × Answer K V)) :
    ((Command.onCursor cursors name f).run h).2.1.get? other = cursors.get? other := by
  cases there : cursors.get? name with
  | none => rw [Command.onCursor, there]; rfl
  | some o =>
    cases found : h.cache? o.cache with
    | none =>
      rw [Command.onCursor, there]
      dsimp only
      rw [run_bind, run_make]
      simp only [Move.make, found]
      rfl
    | some cache =>
      rw [run_onCursor there found]
      exact (cursors.get?_set name other _).trans (if_neg apart)

/-- A command leaves all cursors alone but the one that it is about. -/
theorem get?_command [BEq V] {limit : Nat} {c : CacheId} {command : Command K V}
    (apart : command.cursor? ≠ some name) :
    ((command.work limit cursors c).run h).2.1.get? name = cursors.get? name := by
  cases found : h.cache? c with
  | none => rw [run_command_of_none found]
  | some cache =>
    rw [run_command found]
    cases command with
    | openCursor other facet =>
      have different : name ≠ other := fun same => apart (congrArg some same.symm)
      exact (cursors.get?_set other name _).trans (if_neg different)
    | stepCursor other => exact get?_onCursor (fun same => apart (congrArg some same.symm)) _
    | exhaustCursor other => exact get?_onCursor (fun same => apart (congrArg some same.symm)) _
    | removeLast other => exact get?_onCursor (fun same => apart (congrArg some same.symm)) _
    | insertOptional key value =>
      rw [Command.workOn, run_bind]
      split <;> rfl
    | containsOptional value => cases value <;> rfl
    | removeEntry key value =>
      rw [Command.workOn]
      split
      · rfl
      · rw [run_bind]
        rfl
    | sameEntries other =>
      rw [Command.workOn, run_bind]
      split <;> rfl
    | check =>
      rw [Command.workOn]
      split <;> rfl
    | containsValue value => rfl
    | containsEntry key value => rfl
    | containsEntries listed => rfl
    | entries => rfl
    | metrics => rfl
    | _ =>
      rw [Command.workOn, run_bind]
      rfl

end Work

/-- What an answer shows of a walk, call by call; a cursor that is exhausted is called until it
    shows nothing. -/
def Answer.shown : Answer K V → List (Option (Shown K V))
  | item shown => [shown]
  | rest items => items.map some ++ [none]
  | _ => []

/-- Whether an act moves a cursor. -/
def Act.walks (name : Nat) : Act K V → Bool
  | on _ (.stepCursor other) | on _ (.exhaustCursor other) => other == name
  | _ => false

/-- Whether an act takes an entry out through a cursor. -/
def Act.picks (name : Nat) : Act K V → Bool
  | on _ (.removeLast other) => other == name
  | _ => false

/-- Whether an act opens a cursor under a number. -/
def Act.opens (name : Nat) : Act K V → Bool
  | on _ (.openCursor other _) => other == name
  | _ => false

namespace Session

variable [BEq V]

/-- What an act shows of a cursor. -/
def shownAt (limit name : Nat) (s : Session K V) (a : Act K V) : List (Option (Shown K V)) :=
  if a.walks name then (s.act limit a).2.shown else []

/-- What a cursor shows while one thing is done after the other, call by call, with the host that it
    was called on. -/
def shownBy (limit name : Nat) : Session K V → List (Act K V) → List (Host K V × Option (Shown K V))
  | _, [] => []
  | s, a :: rest =>
      (s.shownAt limit name a).map (fun item => (s.host, item)) ++
        shownBy limit name (s.act limit a).1 rest

omit [DecidableEq K] [BEq V] in
/-- A call of a cursor on a cache, with the facet that it shows of what it yields. -/
def callShown (facet : Facet) (call : Cache K V × Option (K × V)) :
    Option (Cache K V) × Option (Shown K V) :=
  (some call.1, call.2.map fun item => Shown.ofEntry item facet)

/-- An act calls an open cursor some times, or not at all, and leaves it open. -/
structure Moves (limit name : Nat) (s : Session K V) (a : Act K V) (o later : OpenCursor K)
    (now : List (Cache K V)) : Prop where
  there : (s.act limit a).1.cursors.get? name = some later
  cache : later.cache = o.cache
  facet : later.facet = o.facet
  called : ∀ cache ∈ now, s.host.cache? o.cache = some cache
  shown : s.shownAt limit name a =
    (o.cursor.walk now).map fun call => call.2.map fun item => Shown.ofEntry item o.facet
  place : later.cursor.forgetLast = (o.cursor.after now).forgetLast
  /-- Only what takes an entry out through the cursor makes it forget. -/
  last : a.picks name = false → later.cursor.last = (o.cursor.after now).last

/-- An act calls an open cursor when the cache is laid out in a certain way. -/
def Continues (limit name : Nat) (s : Session K V) (a : Act K V) (home : K → Nat) (count : Nat)
    (o : OpenCursor K) : Prop :=
  ∃ (now : List (Cache K V)) (later : OpenCursor K), (∀ cache ∈ now, cache.Laid home count) ∧
    (s.act limit a).1.cursors.get? name = some later ∧ later.cache = o.cache ∧
    later.facet = o.facet ∧
    ∀ caches : List (Cache K V),
      (s.shownAt limit name a).map (fun item => (s.host.cache? o.cache, item)) ++
          (later.cursor.walk caches).map (callShown o.facet) =
        (o.cursor.walk (now ++ caches)).map (callShown o.facet)

section

variable {limit name : Nat} {s : Session K V} {home : K → Nat} {count : Nat} {o : OpenCursor K}
  {cache : Cache K V}

/-- A command on a cache that is not there does nothing. -/
theorem act_of_absent {d : CacheId} (absent : s.host.cache? d = none) (command : Command K V) :
    s.act limit (.on d command) = (s, .reply .noCache) := by
  rw [act, carryOut, Act.work, Work.run_command_of_none absent]

section

variable (limit) {d : CacheId} {other : Cache K V} (present : s.host.cache? d = some other)
  (there : s.cursors.get? name = some o) (found : s.host.cache? o.cache = some cache)

include present there found

theorem act_stepCursor :
    ∃ later : OpenCursor K, s.act limit (.on d (.stepCursor name)) =
        (⟨s.host, s.cursors.set name later⟩,
          .item ((o.cursor.next cache).2.map fun e => Shown.ofEntry e o.facet)) ∧
      later.cache = o.cache ∧ later.facet = o.facet ∧ later.cursor = (o.cursor.next cache).1 := by
  rw [act, carryOut, Act.work, Work.run_command present, Command.workOn,
    Work.run_onCursor there found]
  exact ⟨_, rfl, rfl, rfl, rfl⟩

theorem act_exhaustCursor :
    ∃ later : OpenCursor K, s.act limit (.on d (.exhaustCursor name)) =
        (⟨s.host, s.cursors.set name later⟩,
          .rest ((o.cursor.rest cache).2.map fun e => Shown.ofEntry e o.facet)) ∧
      later.cache = o.cache ∧ later.facet = o.facet ∧ later.cursor = (o.cursor.rest cache).1 := by
  rw [act, carryOut, Act.work, Work.run_command present, Command.workOn,
    Work.run_onCursor there found]
  exact ⟨_, rfl, rfl, rfl, rfl⟩

theorem act_removeLast : s.act limit (.on d (.removeLast name)) =
    match o.cursor.last with
    | none => (⟨s.host, s.cursors.set name o⟩, .flag false)
    | some e =>
        let taken := (Move.takeOutSlot o.cache e.1 e.2).make s.host
        (⟨taken.1, s.cursors.set name { o with cursor := o.cursor.forgetLast }⟩,
          .flag taken.2) := by
  rw [act, carryOut, Act.work, Work.run_command present, Command.workOn,
    Work.run_onCursor there found]
  cases o.cursor.last <;> rfl

end

/-- An act that does not call the cursor. -/
theorem moves_of_not_walks {a : Act K V} (still : a.walks name = false) {later : OpenCursor K}
    (there : (s.act limit a).1.cursors.get? name = some later) (cache : later.cache = o.cache)
    (facet : later.facet = o.facet) (place : later.cursor.forgetLast = o.cursor.forgetLast)
    (last : a.picks name = false → later.cursor.last = o.cursor.last) :
    s.Moves limit name a o later [] :=
  ⟨there, cache, facet, by simp, by rw [shownAt, still]; rfl, place, last⟩

/-- An act that leaves the cursor as it is. -/
theorem moves_of_same {a : Act K V} (still : a.walks name = false)
    (there : (s.act limit a).1.cursors.get? name = some o) : s.Moves limit name a o o [] :=
  moves_of_not_walks still there rfl rfl rfl fun _ => rfl

variable (there : s.cursors.get? name = some o) (found : s.host.cache? o.cache = some cache)

include there found

theorem moves_stepCursor {d : CacheId} {other : Cache K V}
    (present : s.host.cache? d = some other) :
    ∃ later, s.Moves limit name (.on d (.stepCursor name)) o later [cache] := by
  obtain ⟨later, acted, same, facet, cursor⟩ := act_stepCursor limit present there found
  refine ⟨later, ?_, same, facet, by simpa using found, ?_, ?_, fun _ => ?_⟩
  · rw [acted, Cursors.get?_set, if_pos rfl]
  · rw [shownAt, acted]
    simp [Act.walks, Answer.shown, Cursor.walk]
  · rw [cursor]
    rfl
  · rw [cursor]
    rfl

theorem moves_exhaustCursor {d : CacheId} {other : Cache K V}
    (present : s.host.cache? d = some other) :
    ∃ later now, s.Moves limit name (.on d (.exhaustCursor name)) o later now := by
  obtain ⟨later, acted, same, facet, cursor⟩ :=
    act_exhaustCursor limit present there found
  obtain ⟨walked, ends⟩ := Cursor.walk_rest cache o.cursor
  refine ⟨later, List.replicate ((o.cursor.rest cache).2.length + 1) cache, ?_, same, facet, ?_, ?_,
    ?_, fun _ => ?_⟩
  · rw [acted, Cursors.get?_set, if_pos rfl]
  · intro copy member
    rw [List.eq_of_mem_replicate member]
    exact found
  · rw [shownAt, acted, walked]
    simp [Act.walks, Answer.shown]
  · rw [cursor, ends]
  · rw [cursor, ends]

theorem moves_removeLast {d : CacheId} {other : Cache K V}
    (present : s.host.cache? d = some other) :
    ∃ later, s.Moves limit name (.on d (.removeLast name)) o later [] ∧
      later.cursor = o.cursor.forgetLast := by
  have acted := act_removeLast limit present there found
  have picks : (Act.on d (.removeLast name) : Act K V).picks name = false → False := by
    simp [Act.picks]
  cases last : o.cursor.last with
  | none =>
    rw [last] at acted
    refine ⟨o, moves_of_not_walks rfl ?_ rfl rfl rfl fun no => (picks no).elim, ?_⟩
    · rw [acted, Cursors.get?_set, if_pos rfl]
    · rw [Cursor.forgetLast, ← last]
  | some e =>
    rw [last] at acted
    refine ⟨{ o with cursor := o.cursor.forgetLast },
      moves_of_not_walks rfl ?_ rfl rfl rfl fun no => (picks no).elim, rfl⟩
    rw [acted, Cursors.get?_set, if_pos rfl]

variable (limit) in
/-- Whatever is done, an open cursor stays open and moves on by calls of `next`. -/
theorem moves {a : Act K V} (keeps : a.opens name = false) :
    ∃ later now, s.Moves limit name a o later now := by
  cases a with
  | build config =>
    refine ⟨o, [], moves_of_same rfl ?_⟩
    rw [act, carryOut, Act.work, Work.run_bind, Work.run_make]
    cases (Move.build config).make s.host |>.2 <;> exact there
  | on d command =>
    by_cases about : command.cursor? = some name
    · cases present : s.host.cache? d with
      | none =>
        have absent : s.act limit (.on d command) = (s, .reply .noCache) := act_of_absent present command
        refine ⟨o, [], ?_, rfl, rfl, by simp, ?_, rfl, fun _ => rfl⟩
        · rw [absent]
          exact there
        · rw [shownAt, absent]
          split <;> rfl
      | some other =>
        cases command with
        | openCursor also facet =>
          cases about
          simp [Act.opens] at keeps
        | stepCursor also =>
          cases about
          exact (moves_stepCursor there found present).imp fun later moves => ⟨_, moves⟩
        | exhaustCursor also =>
          cases about
          exact moves_exhaustCursor there found present
        | removeLast also =>
          cases about
          exact (moves_removeLast there found present).imp fun later moves => ⟨_, moves.1⟩
        | _ => cases about
    · have still : (Act.on d command).walks name = false := by
        cases command <;> simp_all [Act.walks, Command.cursor?]
      exact ⟨o, [], moves_of_same still ((Work.get?_command about).trans there)⟩

omit there found in
/-- What is shown at an act, and then on a walk, is shown on one walk. -/
theorem Moves.shown_append {a : Act K V} {later : OpenCursor K} {now : List (Cache K V)}
    (moves : s.Moves limit name a o later now) (caches : List (Cache K V)) :
    (s.shownAt limit name a).map (fun item => (s.host.cache? o.cache, item)) ++
        (later.cursor.walk caches).map (callShown o.facet) =
      (o.cursor.walk (now ++ caches)).map (callShown o.facet) := by
  rw [Cursor.walk_append, List.map_append, Cursor.walk_of_forgetLast moves.place, moves.shown,
    List.map_map]
  congr 1
  apply List.map_congr_left
  intro call member
  have here : call.1 ∈ now := Cursor.fst_walk o.cursor now ▸ List.mem_map_of_mem member
  rw [Function.comp_apply, moves.called call.1 here, callShown]

omit found in
/-- Whatever is done, an open cursor stays open, and shows what calls of `next` yield. -/
theorem continues (consistent : s.host.Consistent) (lays : s.host.Lays o.cache home count)
    {a : Act K V} (keeps : a.opens name = false) : s.Continues limit name a home count o := by
  have ⟨cache, found, _⟩ := lays
  obtain ⟨later, now, moved⟩ := moves limit there found keeps
  exact ⟨now, later, fun cache member => lays.laid consistent (moved.called cache member), moved.there,
    moved.cache, moved.facet, moved.shown_append⟩

end

/-- An open cursor shows a facet of what it yields on a walk over the cache as it is at the calls. -/
theorem shownBy_eq_walk (limit name : Nat) {home : K → Nat} {count : Nat} (acts : List (Act K V))
    {s : Session K V} {o : OpenCursor K} (consistent : s.host.Consistent)
    (lays : s.host.Lays o.cache home count) (there : s.cursors.get? name = some o)
    (keeps : ∀ a ∈ acts, a.opens name = false) :
    ∃ caches : List (Cache K V), (∀ cache ∈ caches, cache.Laid home count) ∧
      (s.shownBy limit name acts).map (fun call => (call.1.cache? o.cache, call.2)) =
        (o.cursor.walk caches).map (callShown o.facet) := by
  induction acts generalizing s o with
  | nil => exact ⟨[], by simp, rfl⟩
  | cons a rest ih =>
    obtain ⟨keepsFirst, keeps⟩ := List.forall_mem_cons.mp keeps
    have continued : s.Continues limit name a home count o :=
      continues there consistent lays keepsFirst
    obtain ⟨now, later, laid, open', same, facet, calls⟩ := continued
    have consistent' : (s.act limit a).1.host.Consistent := (consistent.work _).2
    have lays' : (s.act limit a).1.host.Lays o.cache home count := lays.run _
    obtain ⟨caches, others, shown⟩ := ih consistent' (same ▸ lays') open' keeps
    refine ⟨now ++ caches, ?_, ?_⟩
    · intro cache member
      rcases List.mem_append.mp member with member | member
      · exact laid cache member
      · exact others cache member
    · rw [← calls caches, shownBy, List.map_append, List.map_map, ← facet, ← same, ← shown, same]
      rfl

/-- The shards of a cache are the same at all points of time of a run. -/
theorem lays_of_states {limit : Nat} {board : PressureBoard} {acts : List (Act K V)} {h : Host K V}
    (seen : h ∈ (empty board).states limit acts) {c : CacheId} {home : K → Nat} {count : Nat}
    (lays : h.Lays c home count) : ((empty board).run limit acts).1.host.Lays c home count := by
  have later := (Act.workAll limit ([] : Cursors K) acts).pairwise_steps
    (R := fun h g => ∀ c home count, h.Lays c home count → g.Lays c home count)
    (fun _ _ _ _ lays => lays) (fun first second c home count lays =>
      second c home count (first c home count lays))
    (fun m _ _ _ _ lays => lays.make m) (Host.empty board)
  rcases List.mem_append.mp seen with seen | seen
  · obtain ⟨s, member, rfl⟩ := List.mem_map.mp seen
    exact later.2 s member c home count (lays.make s.move)
  · rw [List.mem_singleton] at seen
    exact seen ▸ lays

/-- The contract of walks holds at any points of time of a run. -/
theorem contract_of_states {limit : Nat} {board : PressureBoard} {acts : List (Act K V)}
    {c : CacheId} {moments : List (Host K V)} {caches : List (Cache K V)}
    (seen : ∀ h ∈ moments, h ∈ (empty board).states limit acts)
    (found : moments.map (fun h => h.cache? c) = caches.map some) :
    Cursor.Contract (Cursor.start.walk caches) := by
  -- Where the cache is at the end tells the shards that it had before.
  have there : ∀ cache ∈ caches, cache.Consistent ∧ ((empty board).run limit acts).1.host.Lays c
      cache.table.shardIndex cache.table.shardCount := by
    intro cache member
    have listed : some cache ∈ moments.map fun h => h.cache? c :=
      found ▸ List.mem_map_of_mem member
    obtain ⟨h, moment, present⟩ := List.mem_map.mp listed
    exact ⟨consistent_states limit board acts h (seen h moment) c cache present,
      lays_of_states (seen h moment) ⟨cache, present, rfl, rfl⟩⟩
  cases caches with
  | nil => exact Cursor.contract_walk (fun _ => 0) 0 (by simp)
  | cons first rest =>
    refine Cursor.contract_walk first.table.shardIndex first.table.shardCount fun cache member => ?_
    obtain ⟨consistent, lays⟩ := there cache member
    obtain ⟨home, count⟩ := lays.unique (there first List.mem_cons_self).2
    exact ⟨consistent, fun key => congrFun home key, count⟩

/-- A cursor keeps its contract whatever is done to the cache, by cleaners too, between its calls: at
    whatever points of time of a run it is called, and in a session in which it stays open. Each call
    is over after a bounded number of turns. -/
theorem iteration_contract (limit : Nat) (board : PressureBoard) :
    (∀ (acts : List (Act K V)) (c : CacheId) (moments : List (Host K V)) (caches : List (Cache K V)),
      (∀ h ∈ moments, h ∈ (empty board).states limit acts) →
      moments.map (fun h => h.cache? c) = caches.map some →
      Cursor.Contract (Cursor.start.walk caches)) ∧
    (∀ s : Session K V, s.Reachable limit board →
      ∀ (c : CacheId) (cache : Cache K V), s.host.cache? c = some cache →
      ∀ (name : Nat) (facet : Facet) (acts : List (Act K V)),
        (∀ a ∈ acts, a.opens name = false) →
        ∃ caches : List (Cache K V),
          (((s.step limit c (.openCursor name facet)).1.shownBy limit name acts).map
              fun call => (call.1.cache? c, call.2)) =
            (Cursor.start.walk caches).map (callShown facet) ∧
          Cursor.Contract (Cursor.start.walk caches)) ∧
    ∀ (cache : Cache K V) (cursor : Cursor K) (limit : Nat),
      (cursor.ahead cache).length + (cache.table.shardCount - cursor.nextShard) < limit →
      cursor.turns cache limit = some (cursor.next cache) := by
  refine ⟨?_, ?_, ?_⟩
  · intro acts c moments caches seen found
    exact contract_of_states seen found
  · rintro _ ⟨before, rfl⟩ c cache found name facet acts keeps
    have consistent := consistent_run limit board before
    have opened : ((empty board).run limit before).1.step limit c (.openCursor name facet) =
        (⟨((empty board).run limit before).1.host,
          ((empty board).run limit before).1.cursors.set name ⟨c, .start, facet, none⟩⟩, .done) := by
      rw [step, carryOut, Work.run_command found]
      rfl
    have lays : ((empty board).run limit before).1.host.Lays c cache.table.shardIndex
        cache.table.shardCount := ⟨cache, found, rfl, rfl⟩
    rw [opened]
    obtain ⟨caches, laid, shown⟩ := shownBy_eq_walk limit name acts
      (s := ⟨((empty board).run limit before).1.host,
        ((empty board).run limit before).1.cursors.set name ⟨c, .start, facet, none⟩⟩)
      (o := ⟨c, .start, facet, none⟩) consistent lays
      ((Cursors.get?_set _ name name _).trans (if_pos rfl)) keeps
    exact ⟨caches, shown, Cursor.contract_walk _ _ laid⟩
  · intro cache cursor limit enough
    exact Cursor.turns_eq_next cache limit cursor enough

end Session

/-- While a cursor is open on a cache, entries are stored and overwritten, and a pass releases a
    value, which makes the cleaner store another one. -/
def walkedActs : List (Act UInt64 Nat) :=
  [.on 0 (.stepCursor 0), .on 0 (.request (.insert 1 11)), .on 0 (.request .releaseUnpinned),
    .on 0 (.stepCursor 0), .on 0 (.request (.insert 4 40)), .on 0 (.exhaustCursor 0),
    .on 0 (.request (.insert 4 41)), .on 0 (.stepCursor 0)]

/-- The points of time in the cleaner that is run by a pass over such a cache. -/
def cleanerMoments : List (Host UInt64 Nat) :=
  ((Session.empty .empty).states 1 (guardedActs ++ [.on 0 (.request .releaseUnpinned)])).filter
    fun h => h.active = 1

/-- A cursor that is called at every point of time in a cleaner does not yield what the cleaner stores
    in a shard that was copied before. One that is open in a session yields a value that was
    overwritten and one that a cleaner stored, and nothing after it came to its end. -/
theorem iteration_contract_guarded :
    (∃ caches : List (Cache UInt64 Nat), cleanerMoments.map (fun h => h.cache? 0) = caches.map some ∧
      Cursor.walkedKeys (Cursor.start.walk caches) = [3, 2] ∧
      Cursor.Contract (Cursor.start.walk caches)) ∧
    (((((Session.empty .empty).run 1 guardedActs).1.step 1 0 (.openCursor 0 .entry)).1.shownBy 1 0
        walkedActs).map Prod.snd =
      [some (.entry 3 30), some (.entry 1 11), some (.entry 8 21), none, none]) ∧
    (∃ caches : List (Cache UInt64 Nat),
      (((((Session.empty .empty).run 1 guardedActs).1.step 1 0 (.openCursor 0 .entry)).1.shownBy 1 0
        walkedActs).map fun call => (call.1.cache? 0, call.2)) =
          (Cursor.start.walk caches).map (Session.callShown .entry) ∧
      Cursor.Contract (Cursor.start.walk caches)) ∧
    ∃ cache, (((Session.empty .empty).run 1 guardedActs).1.host.cache? 0) = some cache ∧
      Cursor.turns cache 6 .start = some (Cursor.start.next cache) := by
  refine ⟨?_, by decide +kernel, ?_, ?_⟩
  · have present : ∀ h ∈ cleanerMoments, (h.cache? 0).isSome := by decide +kernel
    have found : cleanerMoments.map (fun h => h.cache? 0) =
        (cleanerMoments.filterMap fun h => h.cache? 0).map some := by
      rw [List.map_filterMap_some_eq_filter_map_isSome, List.filter_eq_self.mpr]
      intro found member
      obtain ⟨h, moment, rfl⟩ := List.mem_map.mp member
      exact present h moment
    exact ⟨_, found, by decide +kernel, (Session.iteration_contract 1 .empty).1 _ 0 cleanerMoments _
      (fun h member => (List.mem_filter.mp member).1) found⟩
  · have there : (((Session.empty .empty).run 1 guardedActs).1.host.cache? 0).isSome := by
      decide +kernel
    obtain ⟨cache, found⟩ := Option.isSome_iff_exists.mp there
    exact (Session.iteration_contract 1 .empty).2.1 _ ⟨guardedActs, rfl⟩ 0 cache found 0 .entry
      walkedActs (by decide)
  · have sizes : (((Session.empty .empty).run 1 guardedActs).1.host.cache? 0).map (fun cache =>
        ((Cursor.start.ahead cache).length + cache.table.shardCount)) = some 5 := by
      decide +kernel
    obtain ⟨cache, found, size⟩ := Option.map_eq_some_iff.mp sizes
    refine ⟨cache, found, (Session.iteration_contract 1 .empty).2.2 cache .start 6 ?_⟩
    show (Cursor.start.ahead cache).length + cache.table.shardCount < 6
    omega

end ReclaimableCache
