import ReclaimableCache.Proofs.Iteration
import ReclaimableCache.Proofs.Order

/-!
# Sessions that are compared

On hosts that are alike, commands lead to the same answers, but for the order of lists and for what
was counted in the past of a cache. What could tell the hosts apart are the order in which a cursor is
stepped through a cache, and the entry that it yielded last; and a predicate to which the order
matters in which it is asked about entries.
-/

namespace ReclaimableCache

variable {K V α : Type}

/-! ### Answers that are alike -/

/-- Answers are the same, but for the order of lists. -/
def Answer.Alike : Answer K V → Answer K V → Prop
  | entries listed, entries other => other.Perm listed
  | rest items, rest other => other.Perm items
  | retained removed seen, retained count other => count = removed ∧ other.Perm seen
  | a, b => b = a

/-- Answers are alike, but for counters that in the first one went on from others. -/
def Answer.AlikeBut (owed : Counters) : Answer K V → Answer K V → Prop
  | metrics counted, metrics other => counted = other.onTop owed
  | a, b => a.Alike b

theorem Answer.AlikeBut.alike {a b : Answer K V} (alike : a.AlikeBut {} b) : a.Alike b := by
  cases a with
  | metrics counted =>
    cases b with
    | metrics other =>
      have same : counted = other.onTop {} := alike
      rw [Snapshot.onTop_nothing] at same
      exact congrArg Answer.metrics same.symm
    | _ => exact alike
  | _ => exact alike

/-- What was counted in the past of a cache. -/
def Past.owed (past : Option Past) : Counters := past.elim {} Past.counters

section

variable [DecidableEq K]

/-! ### Cursors at the beginning and at the end of a walk -/

namespace Cursor

/-- A cursor that has not begun to walk. -/
def Fresh (cursor : Cursor K) : Prop := cursor.upcoming = [] ∧ cursor.nextShard = 0

variable {c : Cache K V} {cursor : Cursor K}

/-- A cursor that has not begun to walk has all live entries left. -/
theorem rest_of_fresh (consistent : c.Consistent) (fresh : cursor.Fresh) :
    (rest c cursor).2 = c.toList := by
  have all : cursor.ahead c = c.table.toList := by
    rw [ahead, fresh.1, fresh.2, List.nil_append, List.drop_zero]
    rfl
  have current : ∀ e ∈ c.table.toList, current? c e = c.liveEntry? e := by
    rintro ⟨key, id⟩ listed
    have bound := (ShardedMap.get?_eq_some_iff consistent.table.toOrdered).mpr listed
    rw [current?, if_pos ((ShardedMap.isCurrent_iff _ _ _).mpr bound)]
  rw [rest, all, Cache.toList]
  dsimp only
  rw [List.filterMap_filter]
  apply List.filterMap_congr
  intro e listed
  rw [current e listed]
  cases c.liveEntry? e <;> rfl

/-- A cursor at the end has nothing left. -/
theorem rest_of_ended (ended : Ended c.table.shardCount cursor) : (rest c cursor).2 = [] := by
  obtain ⟨empty, past⟩ := ended
  have none : cursor.ahead c = [] := by
    have beyond : (List.range c.table.shardCount).length ≤ cursor.nextShard := by
      rwa [List.length_range]
    rw [ahead, empty, List.drop_eq_nil_of_le beyond]
    rfl
  rw [rest, none]
  rfl

theorem ended_rest (c : Cache K V) (cursor : Cursor K) :
    Ended c.table.shardCount (rest c cursor).1 :=
  ⟨rfl, Nat.le_max_right _ _⟩

/-- A step shows nothing if and only if nothing is left, and is then at the end. -/
theorem next_eq_of_rest (nothing : (rest c cursor).2 = []) :
    next c cursor = ((rest c cursor).1, none) := by
  have called := rest_of_calls (calls_next c cursor)
  cases yielded : (next c cursor).2 with
  | none =>
    rw [yielded, Option.elim_none] at called
    rw [called, ← yielded]
  | some first =>
    rw [yielded, Option.elim_some] at called
    rw [called] at nothing
    cases nothing

theorem rest_of_next (nothing : (next c cursor).2 = none) : (rest c cursor).2 = [] := by
  have called := rest_of_calls (calls_next c cursor)
  rw [nothing, Option.elim_none] at called
  rw [called]

/-- The entry that is yielded last of what is left is in the table. -/
theorem last_rest (c : Cache K V) (cursor : Cursor K) :
    ((rest c cursor).2 = [] ∧ (rest c cursor).1.last = cursor.last) ∨
      ∃ e, (rest c cursor).2 ≠ [] ∧ (rest c cursor).1.last = some e ∧
        c.table.get? e.1 = some e.2 := by
  have shown : (rest c cursor).2 = [] ↔
      ((cursor.ahead c).filter fun e => (current? c e).isSome) = [] := by
    rw [rest]
    dsimp only
    rw [List.filterMap_eq_nil_iff, List.eq_nil_iff_forall_not_mem]
    refine forall_congr' fun e => ?_
    rw [List.mem_filter, Option.isSome_iff_ne_none]
    tauto
  rw [rest] at shown ⊢
  dsimp only at shown ⊢
  generalize yielded : (cursor.ahead c).filter (fun e => (current? c e).isSome) = entries at shown ⊢
  cases final : entries.getLast? with
  | none => exact .inl ⟨shown.mpr (List.getLast?_eq_none_iff.mp final), rfl⟩
  | some e =>
    have member := List.mem_of_getLast? final
    refine .inr ⟨e, fun nothing => List.ne_nil_of_mem member (shown.mp nothing), rfl, ?_⟩
    rw [← yielded] at member
    have current := (List.mem_filter.mp member).2
    rw [current?] at current
    split at current
    · rename_i bound
      exact (ShardedMap.isCurrent_iff _ _ _).mp bound
    · cases current

end Cursor

/-- A cursor is at the end of its walk. -/
def Host.Finished (h : Host K V) (o : OpenCursor K) : Prop :=
  ∃ home count, h.Lays o.cache home count ∧ o.cursor.Ended count

/-- Cursors on caches that are alike which have both not begun to walk, or are both at the end. If
    they yielded the same key last, they yielded the same slot. -/
structure OpenCursor.Alike (past : CacheId → Option Past) (h g : Host K V) (o p : OpenCursor K) :
    Prop where
  cache : p.cache = o.cache
  facet : p.facet = o.facet
  lastKey : p.lastKey = o.lastKey
  stands : (o.cursor.Fresh ∧ p.cursor.Fresh) ∨ (h.Finished o ∧ g.Finished p)
  renewed : (past o.cache).isSome
  last : ∀ e f, o.cursor.last = some e → p.cursor.last = some f → f.1 = e.1 →
    e.2 = Past.before (past o.cache) + f.2

namespace OpenCursor.Alike

variable {past : CacheId → Option Past} {h g : Host K V} {o p : OpenCursor K}
  (alike : Alike past h g o p)

include alike

/-- Whatever is done, a cursor that is not moved stays where it stands. -/
theorem run {β : Type} (w : Work K V α) (x : Work K V β) :
    Alike past (w.run h).1 (x.run g).1 o p := by
  refine { alike with stands := ?_ }
  rcases alike.stands with fresh | ⟨⟨home, count, lays, ended⟩, home', count', lays', ended'⟩
  · exact .inl fresh
  · exact .inr ⟨⟨home, count, lays.run w, ended⟩, home', count', lays'.run x, ended'⟩

variable {q : Past} {cache twin : Cache K V} (here : h.cache? o.cache = some cache)
  (there : g.cache? p.cache = some twin) (twins : cache.Alike q twin)
  (consistent : cache.Consistent) (also : twin.Consistent)

include here there twins consistent also

/-- What is left is the same in some order. -/
theorem rest_perm : (p.cursor.rest twin).2.Perm (o.cursor.rest cache).2 := by
  rcases alike.stands with ⟨fresh, alsoFresh⟩ | ⟨⟨_, _, lays, ended⟩, _, _, lays', ended'⟩
  · rw [Cursor.rest_of_fresh consistent fresh, Cursor.rest_of_fresh also alsoFresh]
    exact twins.toList consistent also
  · rw [(lays.unique ⟨cache, here, rfl, rfl⟩).2] at ended
    rw [(lays'.unique ⟨twin, there, rfl, rfl⟩).2] at ended'
    rw [Cursor.rest_of_ended ended, Cursor.rest_of_ended ended']

theorem exhaust (known : past o.cache = some q) :
    Alike past h g { o with cursor := (o.cursor.rest cache).1 }
      { p with cursor := (p.cursor.rest twin).1 } := by
  have left := alike.rest_perm here there twins consistent also
  refine ⟨alike.cache, alike.facet, alike.lastKey,
    .inr ⟨⟨_, _, ⟨cache, here, rfl, rfl⟩, Cursor.ended_rest _ _⟩, _, _, ⟨twin, there, rfl, rfl⟩,
      Cursor.ended_rest _ _⟩, alike.renewed, fun e f yielded other same => ?_⟩
  rcases Cursor.last_rest cache o.cursor with ⟨nothing, stays⟩ | ⟨first, some, final, bound⟩
  · rw [nothing] at left
    rcases Cursor.last_rest twin p.cursor with ⟨_, staysThere⟩ | ⟨_, some, _⟩
    · exact alike.last e f (stays ▸ yielded) (staysThere ▸ other) same
    · exact absurd left.eq_nil some
  · rcases Cursor.last_rest twin p.cursor with ⟨nothing, _⟩ | ⟨second, _, finalThere, boundThere⟩
    · rw [nothing] at left
      exact absurd left.symm.eq_nil some
    · dsimp only at yielded other
      rw [final] at yielded
      rw [finalThere] at other
      cases yielded
      cases other
      have reached := twins.table e.1
      rw [bound, ← same, boundThere, Option.map_some, Option.some.injEq] at reached
      rw [reached, known]
      rfl

end OpenCursor.Alike

/-! ### Commands -/

namespace Work

variable [BEq V] (limit : Nat) {past : CacheId → Option Past} {cursors others : Cursors K}
  {c : CacheId} {p : Past} {cache twin : Cache K V} {command : Command K V}

/-- The cursors stay open as they are, and the answers are alike. -/
def Answers (owed : Counters) (cursors others : Cursors K) (a b : Command.Outcome K V) : Prop :=
  a.1 = cursors ∧ b.1 = others ∧ a.2.AlikeBut owed b.2

/-- A command that is neither about a cursor nor asks a predicate does the same and gives the same
    answer. -/
theorem parallel_workOn (lastKey : others.lastKey? = cursors.lastKey?) (known : past c = some p)
    (twins : cache.Alike p twin) (consistent : cache.Consistent) (also : twin.Consistent)
    (noCursor : command.cursor? = none) (noWalk : ∀ keep, command ≠ .retain keep) :
    (command.workOn limit cursors c cache).Parallel past (Answers p.counters cursors others)
      (command.workOn limit others c twin) := by
  have told : ∀ {a b : Answer K V}, a.AlikeBut p.counters b →
      (pure (cursors, a) : Work K V _).Parallel past (Answers p.counters cursors others)
        (pure (others, b)) := fun alike => parallel_pure ⟨rfl, rfl, alike⟩
  cases command with
  | request asked => exact (parallel_serve limit c asked).bind_eq fun reply => told rfl
  | insertShared key value =>
    exact (parallel_insertShared limit c key value).bind_eq fun _ => told rfl
  | insertOthers name listed =>
    rw [Command.workOn, Command.workOn, lastKey]
    exact (parallel_insertEach limit c _).bind_eq fun _ => told rfl
  | insertAll source =>
    apply (parallel_insertAll limit c source).bind_eq
    intro inserted
    cases inserted <;> exact told rfl
  | getOrCompute key compute =>
    apply (parallel_getOrCompute limit c key compute).bind_eq
    intro got
    cases got <;> exact told rfl
  | insertOptional key value =>
    apply (parallel_insertOptional limit c key value).bind_eq
    intro inserted
    cases inserted <;> exact told rfl
  | containsValue value =>
    rw [Command.workOn, Command.workOn, twins.containsValue consistent also]
    exact told rfl
  | containsOptional value =>
    cases value with
    | none => exact told rfl
    | some value =>
      rw [Command.workOn, Command.workOn, twins.containsValue consistent also]
      exact told rfl
  | containsEntry key value =>
    rw [Command.workOn, Command.workOn, twins.containsEntry]
    exact told rfl
  | containsEntries listed =>
    simp only [Command.workOn, twins.containsEntry]
    exact told rfl
  | removeEntry key value =>
    rw [Command.workOn, Command.workOn, twins.slotHolding?]
    cases twin.slotHolding? key value with
    | none => exact told rfl
    | some id =>
      have taken : (make (.takeOutSlot c key (Past.before (past c) + id) : Move K V)).Parallel past Eq
          (make (.takeOutSlot c key id)) := parallel_takeOutSlot c key id
      rw [known] at taken
      exact taken.bind_eq fun _ => told rfl
  | retain keep => exact absurd rfl (noWalk keep)
  | entries => exact told (twins.toList consistent also)
  | sameEntries other =>
    apply parallel_view.bind
    intro h g alike
    -- The other cache has a twin of its own, or is the same on both hosts.
    rcases alike.twins other with ⟨here, there⟩ | ⟨theirs, copy, here, there, kin, first, second⟩
    · rw [here, there]
      exact told rfl
    · rw [here, there]
      have peek : copy.peek = theirs.peek := kin.elim fun _ _ related => funext related.peek
      dsimp only
      rw [twins.sameEntries consistent also (kin.perm_toList first second) peek]
      exact told rfl
  | metrics => exact told (twins.snapshot consistent also)
  | check =>
    rw [Command.workOn, Command.workOn, consistent.check, also.check]
    exact told rfl
  | openCursor name facet => cases noCursor
  | stepCursor name => cases noCursor
  | exhaustCursor name => cases noCursor
  | removeLast name => cases noCursor

end Work

/-- Cursors are alike by name. -/
def Cursors.Alike (past : CacheId → Option Past) (h g : Host K V) (cursors others : Cursors K) :
    Prop :=
  ∀ name, Option.Rel (OpenCursor.Alike past h g) (cursors.get? name) (others.get? name)

/-- What commands lead to is alike. -/
def Command.Outcomes (past : CacheId → Option Past) (owed : Counters) (h g : Host K V)
    (a b : Command.Outcome K V) : Prop :=
  Cursors.Alike past h g a.1 b.1 ∧ a.2.AlikeBut owed b.2

/-- The second session is the first one in which caches have no past and have their entries in other
    shards. -/
structure Session.Alike (past : CacheId → Option Past) (s t : Session K V) : Prop where
  host : s.host.Alike past t.host
  cursors : Cursors.Alike past s.host t.host s.cursors t.cursors

/-- The commands to a cache that do not depend on the order of entries. The predicate of `retain` is
    steady, a cursor is stepped only when it has nothing to show any more, and an entry is taken out
    through cursors only if both yielded the same key last. -/
def Command.Orderless (limit : Nat) (c : CacheId) (s t : Session K V) : Command K V → Prop
  | retain keep => ∀ cache, s.host.cache? c = some cache → keep.Steady limit c s.host cache
  | stepCursor name =>
      ((s.cursors.get? name).bind fun o => (s.host.cache? o.cache).bind fun cache =>
        (o.cursor.next cache).2) = none
  | removeLast name =>
      ((t.cursors.get? name).bind fun o => o.cursor.last).map Prod.fst =
        ((s.cursors.get? name).bind fun o => o.cursor.last).map Prod.fst
  | _ => True

namespace Cursors.Alike

variable {past : CacheId → Option Past} {h g : Host K V} {cursors others : Cursors K}
  (alike : Alike past h g cursors others)

include alike

omit [DecidableEq K] in
theorem set (name : Nat) {o p : OpenCursor K} (same : OpenCursor.Alike past h g o p) :
    Alike past h g (cursors.set name o) (others.set name p) := by
  intro other
  rw [get?_set, get?_set]
  split
  · exact .some same
  · exact alike other

omit [DecidableEq K] in
theorem lastKey? : others.lastKey? = cursors.lastKey? := by
  funext name
  rw [Cursors.lastKey?, Cursors.lastKey?]
  rcases rel_cases (alike name) with ⟨here, there⟩ | ⟨o, p, here, there, same⟩
  · rw [here, there]
  · rw [here, there]
    exact same.lastKey

theorem run {β : Type} (w : Work K V α) (x : Work K V β) :
    Alike past (w.run h).1 (x.run g).1 cursors others := by
  intro name
  rcases rel_cases (alike name) with ⟨here, there⟩ | ⟨o, p, here, there, same⟩
  · rw [here, there]
    exact .none
  · rw [here, there]
    exact .some (same.run w x)

end Cursors.Alike

namespace Session.Alike

variable {past : CacheId → Option Past} {s t : Session K V} (alike : s.Alike past t)
  {owed : Counters}

include alike

/-- Answers are given, and no cursor is moved. -/
theorem told {a b : Answer K V} (answers : a.AlikeBut owed b) :
    (pure (s.cursors, a) : Work K V _).Together past (Command.Outcomes past owed s.host t.host)
      (pure (t.cursors, b)) s.host t.host :=
  Work.together_pure alike.host ⟨alike.cursors, answers⟩

/-- Work on cursors of the same name leads to outcomes that are alike. -/
theorem together_onCursor {name : Nat}
    {f f' : Cache K V → OpenCursor K → Work K V (OpenCursor K × Answer K V)}
    (same : ∀ o p q cache twin, s.cursors.get? name = some o → t.cursors.get? name = some p →
      OpenCursor.Alike past s.host t.host o p → past o.cache = some q →
      s.host.cache? o.cache = some cache → t.host.cache? p.cache = some twin →
      cache.Alike q twin → cache.Consistent → twin.Consistent →
      (f cache o).Together past
        (fun a b => OpenCursor.Alike past s.host t.host a.1 b.1 ∧ a.2.AlikeBut owed b.2)
        (f' twin p) s.host t.host) :
    (Command.onCursor s.cursors name f).Together past (Command.Outcomes past owed s.host t.host)
      (Command.onCursor t.cursors name f') s.host t.host := by
  rw [Command.onCursor, Command.onCursor]
  rcases rel_cases (alike.cursors name) with ⟨here, there⟩ | ⟨o, p, here, there, cursors⟩
  · rw [here, there]
    exact alike.told rfl
  · rw [here, there]
    apply (Work.together_view alike.host).bind
    rw [Work.run_make, Work.run_make]
    simp only [Move.make]
    obtain ⟨q, known⟩ := Option.isSome_iff_exists.mp cursors.renewed
    rcases alike.host.twins o.cache with
      ⟨absent, gone⟩ | ⟨cache, twin, found, also, kin, consistent, alsoConsistent⟩
    · rw [cursors.cache, absent, gone]
      exact alike.told rfl
    · rw [known] at kin
      rw [cursors.cache, found, also]
      have worked := same o p q cache twin here there cursors known found (cursors.cache ▸ also) kin
        consistent alsoConsistent
      exact worked.bind <| Work.together_pure worked.hosts
        ⟨alike.cursors.set name worked.results.1, worked.results.2⟩

variable [BEq V] {limit : Nat}

section

variable {c : CacheId} {cache twin : Cache K V} {name : Nat}

theorem together_openCursor (renewed : (past c).isSome) (facet : Facet) :
    ((Command.openCursor name facet).workOn limit s.cursors c cache).Together past
      (Command.Outcomes past owed s.host t.host)
      ((Command.openCursor name facet).workOn limit t.cursors c twin) s.host t.host := by
  have fresh : OpenCursor.Alike past s.host t.host ⟨c, .start, facet, none⟩
      ⟨c, .start, facet, none⟩ :=
    ⟨rfl, rfl, rfl, .inl ⟨⟨rfl, rfl⟩, rfl, rfl⟩, renewed, fun _ _ yielded => by cases yielded⟩
  exact Work.together_pure alike.host ⟨alike.cursors.set name fresh, rfl⟩

theorem together_exhaustCursor :
    ((Command.exhaustCursor name).workOn limit s.cursors c cache).Together past
      (Command.Outcomes past owed s.host t.host)
      ((Command.exhaustCursor name).workOn limit t.cursors c twin) s.host t.host := by
  apply alike.together_onCursor
  intro o p q cache twin _ _ cursors known found also twins consistent alsoConsistent
  have left := cursors.rest_perm found also twins consistent alsoConsistent
  refine Work.together_pure alike.host
    ⟨cursors.exhaust found also twins consistent alsoConsistent known, ?_⟩
  rw [cursors.facet]
  exact left.map _

/-- A step that shows nothing does what exhausting the cursor does. -/
theorem together_stepCursor (orderless : (Command.stepCursor name).Orderless limit c s t) :
    ((Command.stepCursor name).workOn limit s.cursors c cache).Together past
      (Command.Outcomes past owed s.host t.host)
      ((Command.stepCursor name).workOn limit t.cursors c twin) s.host t.host := by
  apply alike.together_onCursor
  intro o p q cache twin here _ cursors known found also twins consistent alsoConsistent
  have shown : ((s.cursors.get? name).bind fun o => (s.host.cache? o.cache).bind fun cache =>
      (o.cursor.next cache).2) = none := orderless
  rw [here, Option.bind_some, found, Option.bind_some] at shown
  have nothing := Cursor.rest_of_next shown
  have left := cursors.rest_perm found also twins consistent alsoConsistent
  rw [nothing] at left
  rw [Cursor.next_eq_of_rest nothing, Cursor.next_eq_of_rest left.eq_nil]
  have ended := cursors.exhaust found also twins consistent alsoConsistent known
  exact Work.together_pure alike.host ⟨{ ended with lastKey := cursors.lastKey }, rfl⟩

theorem together_removeLast (orderless : (Command.removeLast name).Orderless limit c s t) :
    ((Command.removeLast name).workOn limit s.cursors c cache).Together past
      (Command.Outcomes past owed s.host t.host)
      ((Command.removeLast name).workOn limit t.cursors c twin) s.host t.host := by
  apply alike.together_onCursor
  intro o p q cache twin here there cursors known _ _ _ _ _
  have keys : p.cursor.last.map Prod.fst = o.cursor.last.map Prod.fst := by
    have lasts : ((t.cursors.get? name).bind fun o => o.cursor.last).map Prod.fst =
      ((s.cursors.get? name).bind fun o => o.cursor.last).map Prod.fst := orderless
    rwa [here, there] at lasts
  cases yielded : o.cursor.last with
  | none =>
    rw [yielded] at keys
    rw [Option.map_eq_none_iff.mp keys]
    exact Work.together_pure alike.host ⟨cursors, rfl⟩
  | some e =>
    rw [yielded, Option.map_some, Option.map_eq_some_iff] at keys
    obtain ⟨f, other, same⟩ := keys
    have slot := cursors.last e f yielded other same
    have taken : (Work.make (.takeOutSlot o.cache e.1 e.2)).Together past Eq
        (Work.make (.takeOutSlot p.cache f.1 f.2)) s.host t.host := by
      rw [cursors.cache, slot, same]
      exact Work.together_takeOutSlot alike.host o.cache e.1 f.2
    rw [other]
    refine taken.bind (Work.together_pure taken.hosts ⟨?_, ?_⟩)
    · exact ⟨cursors.cache, cursors.facet, cursors.lastKey, cursors.stands, cursors.renewed,
        fun _ _ none => by cases none⟩
    · rw [← taken.results]
      exact rfl

theorem together_retain {keep : Predicate K V}
    (orderless : (Command.retain keep).Orderless limit c s t) :
    ((Command.retain keep).workOn limit s.cursors c cache).Together past
      (Command.Outcomes past owed s.host t.host)
      ((Command.retain keep).workOn limit t.cursors c twin) s.host t.host := by
  have walked := Work.together_retain alike.host orderless
  exact walked.bind <| Work.together_pure walked.hosts ⟨alike.cursors, walked.results⟩

/-- A command that does not depend on the order of entries leads to outcomes that are alike. -/
theorem together_workOn {p : Past} (known : past c = some p) (twins : cache.Alike p twin)
    (consistent : cache.Consistent) (also : twin.Consistent) {command : Command K V}
    (orderless : command.Orderless limit c s t)
    (few : ∀ step ∈ (command.workOn limit s.cursors c cache).steps s.host, step.before.Countable) :
    (command.workOn limit s.cursors c cache).Together past
      (Command.Outcomes past p.counters s.host t.host) (command.workOn limit t.cursors c twin)
      s.host t.host := by
  have unmoved : command.cursor? = none → (∀ keep, command ≠ .retain keep) →
      (command.workOn limit s.cursors c cache).Together past
        (Command.Outcomes past p.counters s.host t.host) (command.workOn limit t.cursors c twin)
        s.host t.host := by
    intro noCursor noWalk
    have done := Work.parallel_workOn limit alike.cursors.lastKey? known twins consistent also
      noCursor noWalk s.host t.host alike.host few
    obtain ⟨same, sameToo, answers⟩ := done.results
    refine ⟨done.hosts, ⟨?_, answers⟩, done.calls⟩
    rw [same, sameToo]
    exact alike.cursors
  cases command with
  | openCursor name facet => exact alike.together_openCursor (known ▸ rfl) facet
  | exhaustCursor name => exact alike.together_exhaustCursor
  | stepCursor name => exact alike.together_stepCursor orderless
  | removeLast name => exact alike.together_removeLast orderless
  | retain keep => exact alike.together_retain orderless
  | _ => exact unmoved rfl fun _ same => by cases same

/-- The same of a command on a cache that may not be there. -/
theorem together_work {p : Past} (known : past c = some p) {command : Command K V}
    (orderless : command.Orderless limit c s t)
    (few : ∀ step ∈ (command.work limit s.cursors c).steps s.host, step.before.Countable) :
    (command.work limit s.cursors c).Together past (Command.Outcomes past p.counters s.host t.host)
      (command.work limit t.cursors c) s.host t.host := by
  rw [Command.work, Work.steps_bind] at few
  replace few := fun step member => few step (List.mem_append_right _ member)
  rw [Work.run_make] at few
  apply (Work.together_view alike.host).bind
  rw [Work.run_make, Work.run_make]
  simp only [Move.make] at few ⊢
  rcases alike.host.twins c with ⟨here, there⟩ | ⟨cache, twin, here, there, kin, consistent, also⟩
  · rw [here, there]
    exact alike.told rfl
  · rw [known] at kin
    rw [here] at few
    rw [here, there]
    exact alike.together_workOn known kin consistent also orderless few

end

end Session.Alike

/-! ### What can be measured -/

namespace Session

/-- The calls of cleaners that are made in the course of an act. -/
def calls [BEq V] (limit : Nat) (s : Session K V) (a : Act K V) : List (CacheId × K × V) :=
  (a.work limit s.cursors).calls s.host

/-- What can be measured of a cache: its entries, its pins, the slots that wait to be swept out, and
    its metrics. -/
def measures (s : Session K V) (c : CacheId) : Option (Nat × Nat × Nat × Snapshot) :=
  (s.host.cache? c).map fun cache =>
    (cache.size, cache.pinned, cache.pending.length, cache.snapshot)

theorem Alike.measures {past : CacheId → Option Past} {s t : Session K V} (alike : s.Alike past t)
    (c : CacheId) : s.measures c =
      (t.measures c).map fun m => (m.1, m.2.1, m.2.2.1, m.2.2.2.onTop (Past.owed (past c))) := by
  rw [Session.measures, Session.measures]
  rcases alike.host.twins c with ⟨here, there⟩ | ⟨cache, twin, here, there, kin, consistent, also⟩
  · rw [here, there]
    rfl
  · rw [here, there, Option.map_some, Option.map_some, Option.map_some]
    cases known : past c with
    | none =>
      rw [known] at kin
      cases kin
      have nothing : Past.owed none = {} := rfl
      rw [nothing, Snapshot.onTop_nothing]
    | some p =>
      rw [known] at kin
      have twins : cache.Alike p twin := kin
      rw [twins.size consistent also, twins.pinned, twins.length_pending,
        twins.snapshot consistent also]
      rfl

end Session

end

end ReclaimableCache
