import ReclaimableCache.Proofs.Iteration

/-!
# Taking out what was shown

An entry can be taken out that a cursor yielded, or that a walk asked a predicate about, and anything
may have been done to the cache since. What is taken out is the slot that was yielded, and only while
it is still the one under its key: a slot that has left the table does not come back, so that a
newer one for the same key is safe.
-/

namespace ReclaimableCache

variable {K V : Type} [DecidableEq K]

namespace Cursor

theorem lastSlot_append (first second : List (Cache K V × Option (K × V))) :
    lastSlot (first ++ second) = (lastSlot second).or (lastSlot first) := by
  rw [lastSlot, List.filterMap_append, List.getLast?_append]
  rfl

theorem lastSlot_of_nothing {walk : List (Cache K V × Option (K × V))}
    (nothing : ∀ call ∈ walk, call.2 = none) : lastSlot walk = none := by
  rw [lastSlot, List.getLast?_eq_none_iff, List.filterMap_eq_nil_iff]
  intro call member
  rw [slotOf, nothing call member]
  rfl

end Cursor

/-! ### What a cursor would take out -/

namespace Cache

/-- A slot that was yielded last is the one that a cursor remembers, or the cursor remembers none and
    the slot has left the table. -/
structure Marked (cache : Cache K V) (last yielded : Option (K × SlotId)) : Prop where
  made : ∀ e ∈ yielded, e.2 < cache.pool.nextId
  held : last = yielded ∨ last = none ∧ ∀ e ∈ yielded, cache.table.get? e.1 ≠ some e.2

/-- What has left the table does not come back. -/
theorem Grows.gone {cache later : Cache K V} (grows : cache.Grows later) {e : K × SlotId}
    (made : e.2 < cache.pool.nextId) (gone : cache.table.get? e.1 ≠ some e.2) :
    later.table.get? e.1 ≠ some e.2 := by
  intro back
  rcases grows.entered e.1 e.2 back with before | new
  · exact gone before
  · exact Nat.not_le_of_lt made new

theorem Marked.grow {cache later : Cache K V} {last yielded : Option (K × SlotId)}
    (marked : cache.Marked last yielded) (grows : cache.Grows later) : later.Marked last yielded := by
  refine ⟨fun e member => Nat.lt_of_lt_of_le (marked.made e member) grows.pool.made, ?_⟩
  exact marked.held.imp_right fun held =>
    ⟨held.1, fun e member => grows.gone (marked.made e member) (held.2 e member)⟩

theorem Consistent.marked {cache : Cache K V} (consistent : cache.Consistent) {e : K × SlotId}
    (installed : cache.table.get? e.1 = some e.2) : cache.Marked (some e) (some e) := by
  refine ⟨fun other same => ?_, .inl rfl⟩
  cases same
  exact consistent.lt_nextId installed

end Cache

namespace Session

variable [BEq V]

/-- What a cursor of a session yielded last, and would take out if it is still there. -/
structure Marks (s : Session K V) (name : Nat) (o : OpenCursor K) (yielded : Option (K × SlotId)) :
    Prop where
  there : s.cursors.get? name = some o
  here : ∃ cache, s.host.cache? o.cache = some cache ∧ cache.Marked o.cursor.last yielded

variable {name : Nat} {s : Session K V} {o : OpenCursor K} {yielded : Option (K × SlotId)}

omit [BEq V] in
/-- Nothing was taken out through the cursor. -/
theorem Marks.of_grows {t : Session K V} {later : OpenCursor K} (marks : s.Marks name o yielded)
    (grows : s.host.Grows t.host) (there : t.cursors.get? name = some later)
    (same : later.cache = o.cache) (last : later.cursor.last = o.cursor.last) :
    t.Marks name later yielded := by
  obtain ⟨cache, found, marked⟩ := marks.here
  obtain ⟨grown, present, grow⟩ := grows o.cache cache found
  exact ⟨there, grown, same ▸ present, last ▸ marked.grow grow⟩

variable (limit : Nat)

/-- Taking out through the cursor what it yielded last takes out that slot, if it is still there; the
    cursor then remembers nothing. -/
theorem Marks.removeLast (marks : s.Marks name o yielded) (consistent : s.host.Consistent)
    {d : CacheId} {other : Cache K V} (present : s.host.cache? d = some other) :
    ∃ later taken, (s.act limit (.on d (.removeLast name))).2 = .flag taken ∧
      s.host.TakesOut o.cache yielded taken (s.act limit (.on d (.removeLast name))).1.host ∧
      later.cache = o.cache ∧
      (s.act limit (.on d (.removeLast name))).1.Marks name later yielded := by
  obtain ⟨cache, found, marked⟩ := marks.here
  rw [act_removeLast limit present marks.there found]
  cases last : o.cursor.last with
  | none =>
    have gone : ∀ e ∈ yielded, cache.table.get? e.1 ≠ some e.2 := by
      rcases marked.held with same | held
      · rw [← same, last]
        simp
      · exact held.2
    refine ⟨o, false, rfl, Host.takesOut_of_gone found gone, rfl, ?_, cache, found, marked⟩
    exact (Cursors.get?_set _ _ _ _).trans (if_pos rfl)
  | some e =>
    have same : yielded = some e := by
      rcases marked.held with same | held
      · rw [← same, last]
      · rw [held.1] at last
        cases last
    subst same
    have takes := Host.takesOut_make found consistent e.1 e.2
    refine ⟨{ o with cursor := o.cursor.forgetLast }, _, rfl, takes, rfl, ?_, ?_⟩
    · exact (Cursors.get?_set _ _ _ _).trans (if_pos rfl)
    · obtain ⟨_, later, same, present, out⟩ := takes.here
      rw [found] at same
      cases same
      refine ⟨later, present, fun other member => ?_, .inr ⟨rfl, fun other member => ?_⟩⟩
      · rw [out.rest]
        exact marked.made other member
      · intro back
        exact ((out.table _ _).mp back).2 member

/-- Whatever is done, what a cursor would take out is what it yielded last. -/
theorem Marks.act (marks : s.Marks name o yielded) (consistent : s.host.Consistent) {a : Act K V}
    (keeps : a.opens name = false) :
    ∃ later now, s.Moves limit name a o later now ∧
      (s.act limit a).1.Marks name later ((Cursor.lastSlot (o.cursor.walk now)).or yielded) := by
  obtain ⟨cache, found, marked⟩ := marks.here
  obtain ⟨later, now, moved⟩ := moves limit marks.there found keeps
  have grows : s.host.Grows (s.act limit a).1.host := s.host.grows_run _
  refine ⟨later, now, moved, ?_⟩
  -- Either the cursor moves on and marks what it yields, or it takes out what it has marked.
  cases picks : a.picks name with
  | false =>
    have last := moved.last picks
    rw [Cursor.last_after] at last
    cases yields : Cursor.lastSlot (o.cursor.walk now) with
    | none =>
      rw [yields, Option.none_or] at last
      exact marks.of_grows grows moved.there moved.cache last
    | some e =>
      rw [yields, Option.some_or] at last
      obtain ⟨seen, called, installed⟩ := Cursor.installed_of_lastSlot yields
      have here := moved.called seen called
      have fresh := (consistent o.cache seen here).marked installed
      obtain ⟨grown, present, grow⟩ := grows o.cache seen here
      refine ⟨moved.there, grown, moved.cache ▸ present, ?_⟩
      rw [last, Option.some_or]
      exact fresh.grow grow
  | true =>
    obtain ⟨d, rfl⟩ : ∃ d, a = .on d (.removeLast name) := by
      cases a with
      | build config => cases picks
      | on d command => cases command <;> simp_all [Act.picks]
    have still : s.shownAt limit name (.on d (.removeLast name)) = [] := rfl
    have shown := moved.shown
    rw [still, eq_comm, List.map_eq_nil_iff] at shown
    rw [shown]
    have there := moved.there
    cases present : s.host.cache? d with
    | none =>
      rw [act_of_absent present] at there ⊢
      rw [marks.there] at there
      cases there
      exact marks
    | some other =>
      obtain ⟨also, _, _, _, _, after⟩ := marks.removeLast limit consistent present
      rw [after.there] at there
      cases there
      exact after

/-- After any run the cursor would take out what it yielded last. -/
theorem Marks.run (marks : s.Marks name o yielded) (consistent : s.host.Consistent)
    (acts : List (Act K V)) (keeps : ∀ a ∈ acts, a.opens name = false) :
    ∃ caches later, (s.shownBy limit name acts).map
        (fun call => (call.1.cache? o.cache, call.2)) =
        (o.cursor.walk caches).map (callShown o.facet) ∧
      later.cache = o.cache ∧ (s.run limit acts).1.Marks name later
        ((Cursor.lastSlot (o.cursor.walk caches)).or yielded) := by
  induction acts generalizing s o yielded with
  | nil => exact ⟨[], o, rfl, rfl, marks⟩
  | cons a rest ih =>
    obtain ⟨keepsFirst, keeps⟩ := List.forall_mem_cons.mp keeps
    obtain ⟨next, now, moved, after⟩ := marks.act limit consistent keepsFirst
    have settled : (s.act limit a).1.host.Consistent := (consistent.work _).2
    obtain ⟨caches, later, shown, same, marks⟩ := ih after settled keeps
    refine ⟨now ++ caches, later, ?_, same.trans moved.cache, ?_⟩
    · rw [← moved.shown_append caches, shownBy, List.map_append, List.map_map, ← moved.facet,
        ← moved.cache, ← shown, moved.cache]
      rfl
    · rw [run_cons, Cursor.walk_append, Cursor.lastSlot_append, Option.or_assoc,
        ← Cursor.walk_of_forgetLast moved.place]
      exact marks

/-- A cursor that is opened has yielded nothing. -/
theorem marks_openCursor {c : CacheId} {cache : Cache K V} (found : s.host.cache? c = some cache)
    (facet : Facet) :
    (s.step limit c (.openCursor name facet)).1.Marks name ⟨c, .start, facet, none⟩ none := by
  rw [step, carryOut, Work.run_command found]
  exact ⟨(Cursors.get?_set _ _ _ _).trans (if_pos rfl), cache, found, by simp, .inl rfl⟩

/-- Once the slot that was yielded last was taken out through the cursor, or has left the table,
    nothing is taken out until the cursor yields again. -/
theorem Marks.removeLast_again (marks : s.Marks name o yielded) (consistent : s.host.Consistent)
    {cache : Cache K V} (found : s.host.cache? o.cache = some cache)
    (gone : ∀ e ∈ yielded, cache.table.get? e.1 ≠ some e.2) {acts : List (Act K V)}
    (keeps : ∀ a ∈ acts, a.opens name = false)
    (still : ∀ call ∈ s.shownBy limit name acts, call.2 = none) :
    ((s.run limit acts).1.step limit o.cache (.removeLast name)).2 = .flag false := by
  obtain ⟨caches, later, shown, same, after⟩ := marks.run limit consistent acts keeps
  have nothing : ∀ call ∈ o.cursor.walk caches, call.2 = none := by
    intro call member
    have listed := List.mem_map_of_mem (f := callShown o.facet) member
    rw [← shown, List.mem_map] at listed
    obtain ⟨told, member, same⟩ := listed
    have none := congrArg Prod.snd same
    rw [still told member] at none
    exact Option.map_eq_none_iff.mp none.symm
  rw [Cursor.lastSlot_of_nothing nothing, Option.none_or] at after
  have grows : s.host.Grows (s.run limit acts).1.host := s.host.grows_run _
  have settled : (s.run limit acts).1.host.Consistent := (consistent.work _).2
  obtain ⟨grown, present, grow⟩ := grows o.cache cache found
  obtain ⟨_, taken, answer, takes, _⟩ := after.removeLast limit settled present
  refine answer.trans ?_
  rw [same] at takes
  obtain ⟨_, _, here, _, out⟩ := takes.here
  rw [present] at here
  cases here
  obtain ⟨marked, known, known'⟩ := marks.here
  rw [found] at known
  cases known
  cases taken with
  | false => rfl
  | true =>
    obtain ⟨e, member, back⟩ := out.iff.mp rfl
    exact absurd back (grow.gone (known'.made e member) (gone e member))

theorem step_retain {c : CacheId} {cache : Cache K V} (found : s.host.cache? c = some cache)
    (keep : Predicate K V) :
    s.step limit c (.retain keep) =
      let walked := (Work.retain limit c keep).run s.host
      (⟨walked.1, s.cursors⟩, .retained walked.2.removed walked.2.seen) := by
  rw [step, carryOut, Work.run_command found, Command.workOn, Work.run_bind]
  rfl

/-- Taking out respects which slot was meant. A cursor takes out the slot that it yielded last if it is
    still the one under its key, and nothing else, whatever was done to the cache since; a second
    time it takes nothing out. The predicate of a walk may do anything to the cache: it is asked at
    most once about a key, about entries that are live at that time; what is taken out after the
    answer is the slot that it was asked about, unless it is to be kept or another one stands there
    by then. A predicate that leaves the cache alone is asked about every live entry. As keys do not
    come back, one that remembers what it was asked is not more general. -/
theorem slots_respected (board : PressureBoard) {s : Session K V}
    (reachable : s.Reachable limit board) {c : CacheId} {cache : Cache K V}
    (found : s.host.cache? c = some cache) :
    (∀ (name : Nat) (facet : Facet) (acts : List (Act K V)), (∀ a ∈ acts, a.opens name = false) →
      let opened := (s.step limit c (.openCursor name facet)).1
      let reached := (opened.run limit acts).1
      let picked := reached.step limit c (.removeLast name)
      ∃ (caches : List (Cache K V)) (taken : Bool),
        (opened.shownBy limit name acts).map (fun call => (call.1.cache? c, call.2)) =
            (Cursor.start.walk caches).map (callShown facet) ∧
          picked.2 = .flag taken ∧
          reached.host.TakesOut c (Cursor.lastSlot (Cursor.start.walk caches)) taken
            picked.1.host ∧
          ∀ more : List (Act K V), (∀ a ∈ more, a.opens name = false) →
            (∀ call ∈ picked.1.shownBy limit name more, call.2 = none) →
            ((picked.1.run limit more).1.step limit c (.removeLast name)).2 = .flag false) ∧
    ∀ keep : Predicate K V, ∃ questions : List (Question K V),
      let walked := s.step limit c (.retain keep)
      Asks limit c keep [] s.host questions walked.1.host ∧ walked.1.cursors = s.cursors ∧
      walked.2 = .retained (questions.countP Question.taken) (questions.map Question.item) ∧
      (questions.map Question.key).Nodup ∧
      (∀ q ∈ questions, q.taken = true ↔ q.kept = false ∧
        ∃ now, q.after.cache? c = some now ∧ now.table.get? q.key = some q.slot) ∧
      ((∀ q ∈ questions, q.after.cache? c = q.before.cache? c) →
        ∃ later, walked.1.host.cache? c = some later ∧
          later = { cache with table := later.table } ∧
          PlainMap.Lists cache.peek (questions.map Question.item) ∧
          PlainMap.Lists later.peek ((questions.filter Question.kept).map Question.item) ∧
          (∀ q ∈ questions, q.taken = !q.kept) ∧
          ∀ key id, cache.table.get? key = some id → cache.pool.value? id = none →
            later.table.get? key = some id) := by
  have consistent : s.host.Consistent := by
    obtain ⟨acts, rfl⟩ := reachable
    exact consistent_run limit board acts
  refine ⟨?_, fun keep => ?_⟩
  · intro name facet acts keeps opened reached picked
    have settled : opened.host.Consistent := (consistent.work _).2
    obtain ⟨caches, later, shown, same, marks⟩ :=
      (marks_openCursor limit found facet).run limit settled acts keeps
    rw [Option.or_none] at marks
    have atEnd : reached.host.Consistent := (settled.work _).2
    obtain ⟨now, present, _⟩ := marks.here
    obtain ⟨last, taken, answer, takes, unmoved, after⟩ :=
      marks.removeLast limit atEnd present
    rw [same] at answer takes unmoved after
    refine ⟨caches, taken, shown, answer, takes, fun more keepsMore still => ?_⟩
    obtain ⟨_, left, _, there, out⟩ := takes.here
    have gone : ∀ e ∈ Cursor.lastSlot (Cursor.start.walk caches), left.table.get? e.1 ≠ some e.2 :=
      fun e member back => ((out.table _ _).mp back).2 member
    have again := after.removeLast_again limit (atEnd.work _).2 (unmoved ▸ there) gone keepsMore still
    rwa [unmoved] at again
  · obtain ⟨questions, asks, removed, tells, distinct, passed⟩ :=
      Work.asks_retain limit keep consistent found
    refine ⟨questions, ?_⟩
    rw [step_retain limit found]
    refine ⟨asks, rfl, ?_, distinct, asks.taken_iff, fun gentle => ?_⟩
    · dsimp only
      rw [removed, tells]
    · obtain ⟨⟨later, ends, culled⟩, asked, _⟩ := asks.culled gentle found
      refine ⟨later, ends, culled.rest, asks.lists gentle found distinct passed,
        asks.lists_kept gentle found distinct passed ends, fun q member => (asked q member).2.2, ?_⟩
      intro key id installed dead
      refine (culled.table key id).mpr ⟨installed, fun q member out => ?_⟩
      obtain ⟨_, same⟩ := Question.mem_rejected.mp out
      cases same
      rw [(asked q member).2.1] at dead
      cases dead

end Session

/-- Replaces the second value and releases the first one; wants to keep neither of the other two. -/
def meddling : Predicate UInt64 Nat := fun _ key value =>
  if key = 2 then .inTurn 0 [.insert 2 (value + 1), .reclaim 1] false else .done (key != 3)

/-- Three values are stored. -/
def guardedSession : Session UInt64 Nat := ((Session.empty .empty).run 1 guardedActs).1

/-- A cursor shows the third value, which is then replaced. -/
def replacingActs : List (Act UInt64 Nat) :=
  [.on 0 (.stepCursor 0), .on 0 (.request (.insert 3 31))]

/-- What is left then. -/
def replacedSession : Session UInt64 Nat :=
  ((guardedSession.step 1 0 (.openCursor 0 .entry)).1.run 1 replacingActs).1

/-- A cursor does not take out what was stored in place of the value that it yielded. The predicate of
    a walk replaces a value, which survives, and releases another one, whose cleaner stores a value
    that is not asked about. -/
theorem slots_respected_guarded :
    (∃ cache, guardedSession.host.cache? 0 = some cache ∧
      ∃ caches : List (Cache UInt64 Nat),
        (replacedSession.step 1 0 (.removeLast 0)).2 = .flag false ∧
        replacedSession.host.TakesOut 0 (Cursor.lastSlot (Cursor.start.walk caches)) false
          (replacedSession.step 1 0 (.removeLast 0)).1.host) ∧
    ∃ questions : List (Question UInt64 Nat),
      Asks 1 0 meddling [] guardedSession.host questions
        (guardedSession.step 1 0 (.retain meddling)).1.host ∧
      questions.map Question.item = [(3, 30), (1, 10), (2, 20)] ∧
      questions.countP Question.taken = 1 ∧
      ((guardedSession.step 1 0 (.retain meddling)).1.host.cache? 0).map Cache.toList =
        some [(2, 21), (7, 11)] := by
  have there : (guardedSession.host.cache? 0).isSome := by decide +kernel
  obtain ⟨cache, found⟩ := Option.isSome_iff_exists.mp there
  obtain ⟨cursors, walks⟩ := Session.slots_respected 1 .empty ⟨guardedActs, rfl⟩ found
  refine ⟨⟨cache, found, ?_⟩, ?_⟩
  · obtain ⟨caches, taken, _, answer, takes, _⟩ := cursors 0 .entry replacingActs (by decide)
    have told : (replacedSession.step 1 0 (.removeLast 0)).2 = .flag false := rfl
    obtain rfl : taken = false := by
      have same := answer.symm.trans told
      injection same with same
      injection same
    exact ⟨caches, told, takes⟩
  · obtain ⟨questions, asks, _, answer, _⟩ := walks meddling
    have told : (guardedSession.step 1 0 (.retain meddling)).2 =
        .retained 1 [(3, 30), (1, 10), (2, 20)] := rfl
    have same := answer.symm.trans told
    injection same with removed seen
    exact ⟨questions, asks, seen, removed, by decide +kernel⟩

end ReclaimableCache
