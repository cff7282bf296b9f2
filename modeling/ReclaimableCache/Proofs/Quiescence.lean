import ReclaimableCache.Proofs.Accounting

/-!
# When nothing is in flight

Between the outermost operations, and wherever code of the caller outside of cleaners makes a
request, no value is with a cleaner. Then every dead entry waits in line to be swept out, an
operation that begins with a drain finds live entries only, and after it nothing waits.
-/

namespace ReclaimableCache

variable {K V : Type}

section

variable [DecidableEq K]

/-! ### Counting entries -/

namespace Cache

omit [DecidableEq K] in
theorem length_toList (c : Cache K V) :
    c.toList.length = c.table.toList.countP fun e => c.pool.isLive e.2 := by
  rw [toList, List.length_filterMap_eq_countP]
  simp only [Option.isSome_map, liveEntry?, SlotPool.isLive]

variable {c : Cache K V}

theorem Consistent.length_toList_le (consistent : c.Consistent) : c.toList.length ≤ c.size := by
  rw [length_toList, size, consistent.table.counted]
  exact List.countP_le_length

/-- Entries that are counted and not listed wait in line. -/
theorem Accounts.size_le (accounts : c.Accounts []) (consistent : c.Consistent) :
    c.size ≤ c.toList.length + c.pending.length := by
  have dead : (c.table.toList.countP fun e => !c.pool.isLive e.2) ≤ c.pending.length := by
    rw [List.countP_eq_length_filter, ← List.length_map (f := Prod.snd)]
    refine List.Subperm.length_le (List.subperm_of_subset ?_ fun id member => ?_)
    · exact consistent.nodup_slots.sublist (List.filter_sublist.map _)
    · obtain ⟨⟨key, _⟩, listed, rfl⟩ := List.mem_map.mp member
      obtain ⟨there, notLive⟩ := List.mem_filter.mp listed
      have bound := (ShardedMap.get?_eq_some_iff consistent.table.toOrdered).mpr there
      rw [SlotPool.isLive_eq_not_isDead (consistent.lt_nextId bound), Bool.not_not] at notLive
      simpa using accounts.installed key _ bound notLive
  have all := List.length_eq_countP_add_countP (fun e => c.pool.isLive e.2) (l := c.table.toList)
  rw [size, consistent.table.counted, length_toList, all]
  simp only [Bool.not_eq_true, Bool.decide_eq_false]
  omega

/-- With nothing in flight and nothing in line all entries are live. -/
theorem Accounts.isLive (accounts : c.Accounts []) (consistent : c.Consistent)
    (swept : c.pending = []) {key : K} {id : SlotId} (bound : c.table.get? key = some id) :
    c.pool.isLive id = true := by
  rw [SlotPool.isLive_eq_not_isDead (consistent.lt_nextId bound)]
  cases dead : c.pool.isDead id with
  | false => rfl
  | true =>
    have member := accounts.installed key id bound dead
    rw [swept] at member
    cases member

theorem Accounts.size_eq (accounts : c.Accounts []) (consistent : c.Consistent)
    (swept : c.pending = []) : c.size = c.toList.length := by
  have bound := accounts.size_le consistent
  rw [swept] at bound
  exact Nat.le_antisymm bound consistent.length_toList_le

end Cache

/-! ### Nothing in line -/

/-- The requests after which nothing waits to be swept out. -/
def Request.settling : Request K V → Bool
  | get _ | insert .. | remove _ | releaseUnpinned | clear => true
  | _ => false

/-- Nothing in a cache waits to be swept out. -/
def Host.Swept (h : Host K V) (c : CacheId) : Prop :=
  ∀ cache, h.cache? c = some cache → cache.pending = []

namespace Host

theorem swept_sweep (h : Host K V) (c : CacheId) : ((Move.sweep c).make h).1.Swept c := by
  intro cache found
  rw [Move.cache?_make _ h c (fun _ same => by cases same), Option.map_eq_some_iff] at found
  obtain ⟨old, _, rfl⟩ := found
  rw [Move.effectOn, Move.target, if_pos rfl]
  rfl

theorem Swept.make {h : Host K V} {c : CacheId} (swept : h.Swept c) {m : Move K V}
    (stays : ∀ id, m ≠ .enqueue c id) : (m.make h).1.Swept c := by
  intro cache found
  rcases Move.exists_of_cache?_make m found with ⟨old, there, rfl⟩ | ⟨_, config, _, _, made⟩
  · unfold Move.effectOn
    split
    · rename_i here
      by_cases sweeps : ∃ d, m = .sweep d
      · obtain ⟨d, rfl⟩ := sweeps
        rfl
      · rw [Cache.pending_effect old h.board]
        · exact swept old there
        · rintro d id rfl
          cases here
          exact stays id rfl
        · rintro d rfl
          exact sweeps ⟨d, rfl⟩
    · exact swept old there
  · exact (Cache.new_assemble made).pending

end Host

namespace Work

variable {run : CallbackRunner K V} {h : Host K V} {c : CacheId}

/-- A pass that released nothing called no cleaner. -/
theorem swept_evict (swept : h.Swept c) {budget : Nat}
    (nothing : ((evict run c budget).run h).2 = 0) : ((evict run c budget).run h).1.Swept c := by
  rw [run_evict] at nothing ⊢
  have none : ((Move.releaseValues c budget).make h).2 = [] :=
    List.eq_nil_of_length_eq_zero nothing
  have released := swept.make (m := .releaseValues c budget) fun _ same => by cases same
  simp only [none]
  rw [cleanAll, run_pure]
  exact released.make fun _ same => by cases same

/-- A drain ends with a sweep, or with nothing that would have to be swept out. -/
theorem swept_drain (run : CallbackRunner K V) (c : CacheId) (h : Host K V) :
    ((drain run c).run h).1.Swept c := by
  have swept := (h.swept_sweep c).make (m := .consult c) fun _ same => by cases same
  rw [run_drain]
  dsimp only
  split
  · exact swept
  · split
    · rename_i nothing
      exact swept_evict swept nothing
    · exact Host.swept_sweep _ c

theorem swept_performOn (run : CallbackRunner K V) (cache : Cache K V) (h : Host K V)
    {request : Request K V} (settling : request.settling = true) :
    ((performOn run c cache request).run h).1.Swept c := by
  have drained := swept_drain run c h
  cases request with
  | get key =>
    rw [performOn, run_map, run_get]
    dsimp only
    exact drained.make fun _ same => by cases same
  | insert key value =>
    rw [performOn, run_map, run_insert]
    dsimp only
    exact drained.make fun _ same => by cases same
  | remove key =>
    rw [performOn, run_map, run_remove]
    dsimp only
    exact drained.make fun _ same => by cases same
  | releaseUnpinned =>
    rw [performOn, run_map, run_releaseUnpinned]
    dsimp only
    exact Host.swept_sweep _ c
  | clear =>
    rw [performOn, run_bind, run_pure, run_clear]
    exact (Host.swept_sweep _ c).make fun _ same => by cases same
  | _ => cases settling

/-- In the course of some work nothing is done to a cache but storing values in it. -/
def OnlyPlaces {α : Type} (w : Work K V α) (c : CacheId) (h : Host K V) : Prop :=
  ∀ s ∈ w.steps h, s.move.target = some c → ∃ key value, s.move = .place c key value

theorem swept_of_onlyPlaces {α : Type} {w : Work K V α} (swept : h.Swept c)
    (places : w.OnlyPlaces c h) : (w.run h).1.Swept c := by
  refine w.invariant_of_steps (P := fun h => h.Swept c) (fun s member before => ?_) swept
  apply before.make
  intro id same
  obtain ⟨key, value, place⟩ := places s member (by rw [same, Move.target])
  rw [place] at same
  cases same

end Work

/-- The commands after which nothing waits to be swept out, given the host that they are carried
    out on: a source of values must not touch the cache that it is stored in. -/
def Command.Settling (limit : Nat) (c : CacheId) (h : Host K V) : Command K V → Prop
  | .request asked => asked.settling = true
  | .insertShared .. => True
  | .insertOptional _ value => value.isSome = true
  | .insertAll source =>
      (Work.storeAll limit c source).OnlyPlaces c ((Work.drain (Host.runCallbacks limit) c).run h).1
  | _ => False

theorem Command.swept_work [BEq V] (limit : Nat) (cursors : Cursors K) {c : CacheId}
    {h : Host K V} {command : Command K V} (settling : command.Settling limit c h) :
    ((command.work limit cursors c).run h).1.Swept c := by
  have drained := Work.swept_drain (Host.runCallbacks limit) c h
  cases found : h.cache? c with
  | none =>
    rw [work, Work.run_bind, Work.run_make]
    simp only [Move.make, found]
    intro cache there
    rw [Work.run_pure, found] at there
    cases there
  | some cache =>
    rw [Work.run_command found]
    cases command with
    | request asked =>
      rw [workOn, Work.run_bind, Work.run_pure, Host.serve, Work.run_perform _ found]
      exact (Work.swept_performOn _ cache h settling).make fun _ same => by cases same
    | insertShared key value =>
      rw [workOn, Work.run_bind, Work.run_pure, Work.run_insertShared]
      dsimp only
      exact drained.make fun _ same => by cases same
    | insertOptional key value =>
      obtain ⟨value, rfl⟩ := Option.isSome_iff_exists.mp settling
      rw [workOn, Work.insertOptional, Work.run_bind, Work.run_map, Work.run_insert]
      dsimp only
      rw [Work.run_pure]
      dsimp only
      exact drained.make fun _ same => by cases same
    | insertAll source =>
      rw [workOn, Work.run_bind, Work.run_pure, Work.insertAll, Work.run_bind]
      exact Work.swept_of_onlyPlaces drained settling
    | _ => exact settling.elim

/-! ### Calls of cleaners -/

/-- The cache that a move looks into or asks the policy of. -/
def Move.asks : Move K V → Option CacheId
  | look c _ | consult c => some c
  | _ => none

/-- The cache that a move looks into, asks the policy of, or changes the entries of otherwise than by
    a sweep or by slot. -/
def Move.uses : Move K V → Option CacheId
  | place c _ _ | takeOut c _ | dropEntries c => some c
  | m => m.asks

omit [DecidableEq K] in
theorem Move.uses_of_asks {m : Move K V} {c : CacheId} (asks : m.asks = some c) :
    m.uses = some c := by
  cases m <;> first | exact asks | cases asks

omit [DecidableEq K] in
theorem Move.target_of_uses {m : Move K V} {c : CacheId} (uses : m.uses = some c) :
    m.target = some c := by
  cases m <;> first | exact uses | cases uses

/-- Whether a move begins or ends a call of a cleaner. -/
def Move.calls : Move K V → Bool
  | enterCleaner .. | leaveCleaner .. => true
  | _ => false

omit [DecidableEq K] in
theorem Move.calls_of_steady {m : Move K V} (steady : m.steady = true) : m.calls = false := by
  cases m <;> first | rfl | cases steady

/-- What a host has beside its caches and its journal. -/
def Host.aside (h : Host K V) : PressureBoard × Nat × Nat := (h.board, h.cleanings, h.active)

/-- Most moves are about the journal and about caches that are there. -/
theorem Host.frame_make {m : Move K V} (noCall : m.calls = false)
    (noRaise : ∀ signal, m ≠ .raise signal) (noBuild : ∀ config, m ≠ .build config)
    (h : Host K V) : ((m.make h).1.aside, (m.make h).1.nextCache) = (h.aside, h.nextCache) := by
  -- Most moves put a cache in the place of one that is there, in one of three ways.
  have setCache : ∀ (h : Host K V) (c : CacheId) (cache : Cache K V),
      ((h.setCache c cache).aside, (h.setCache c cache).nextCache) = (h.aside, h.nextCache) := by
    intro h c cache
    rw [nextCache, Host.setCache, Array.size_setIfInBounds]
    rfl
  have onCache : ∀ {α : Type} (c : CacheId) (a : α) (f : Cache K V → Cache K V × α),
      ((h.onCache c a f).1.aside, (h.onCache c a f).1.nextCache) = (h.aside, h.nextCache) := by
    intro α c a f
    unfold Host.onCache
    split
    · rfl
    · exact setCache h c _
  have modifyCache : ∀ (h : Host K V) (c : CacheId) (f : Cache K V → Cache K V),
      ((h.modifyCache c f).aside, (h.modifyCache c f).nextCache) = (h.aside, h.nextCache) := by
    intro h c f
    unfold Host.modifyCache
    split
    · rfl
    · exact setCache h c _
  cases m with
  | enterCleaner c victim => cases noCall
  | leaveCleaner call replies verdict => cases noCall
  | view => rfl
  | raise signal => exact absurd rfl (noRaise signal)
  | build config => exact absurd rfl (noBuild config)
  | noteServed c request reply => rfl
  | sweep c =>
    rw [Move.make, Host.sweep]
    split <;> exact onCache c 0 _
  | consult c =>
    rw [Move.make, Host.consult]
    split
    · rfl
    · dsimp only
      split <;> exact setCache h c _
  | closePass c released failures =>
    rw [Move.make, Host.closePass]
    dsimp only
    split
    · exact modifyCache h c _
    · exact modifyCache _ c _
  | countReclaim c failed => exact modifyCache h c _
  | enqueue c slot => exact modifyCache h c _
  | releaseValues c budget => exact onCache c _ _
  | releaseValue c key => exact onCache c _ _
  | look c key =>
    rw [Move.make, Host.look]
    split
    · rfl
    · dsimp only
      split
      · exact setCache h c _
      · dsimp only
        split <;> exact setCache h c _
  | place c key value =>
    rw [Move.make, Host.place]
    split
    · rfl
    · exact setCache h c _
  | takeOut c key => exact onCache c _ _
  | takeOutSlot c key slot => exact onCache c _ _
  | unpinAll c => exact modifyCache h c _
  | dropEntries c =>
    rw [Move.make, Host.dropEntries]
    split
    · rfl
    · exact setCache h c _

/-- Most moves are about caches and the journal only. -/
theorem Host.aside_make {m : Move K V} (noCall : m.calls = false)
    (noRaise : ∀ signal, m ≠ .raise signal) (h : Host K V) : (m.make h).1.aside = h.aside := by
  by_cases builds : ∃ config, m = .build config
  · obtain ⟨config, rfl⟩ := builds
    rw [Move.make, Host.build]
    split
    · rfl
    · dsimp only
      split <;> rfl
  · have frame := frame_make noCall noRaise (fun config same => builds ⟨config, same⟩) h
    exact congrArg Prod.fst frame

/-- Only building takes a number. -/
theorem Host.nextCache_make {m : Move K V} (noBuild : ∀ config, m ≠ .build config)
    (h : Host K V) : (m.make h).1.nextCache = h.nextCache := by
  cases calls : m.calls with
  | false =>
    by_cases raises : ∃ signal, m = .raise signal
    · obtain ⟨signal, rfl⟩ := raises
      rfl
    · have frame := frame_make calls (fun signal same => raises ⟨signal, same⟩) noBuild h
      exact congrArg Prod.snd frame
  | true =>
    cases m with
    | enterCleaner c victim => rfl
    | leaveCleaner call replies verdict => cases verdict <;> rfl
    | _ => cases calls

theorem Host.active_make {m : Move K V} (noCall : m.calls = false) (h : Host K V) :
    (m.make h).1.active = h.active := by
  by_cases raises : ∃ signal, m = .raise signal
  · obtain ⟨signal, rfl⟩ := raises
    rfl
  · have same := aside_make noCall (fun signal same => raises ⟨signal, same⟩) h
    exact congrArg (fun aside => aside.2.2) same

/-- The signals are as they were, unless one is raised. -/
theorem Host.board_make {m : Move K V} (noRaise : ∀ signal, m ≠ .raise signal) (h : Host K V) :
    (m.make h).1.board = h.board := by
  cases calls : m.calls with
  | false => exact congrArg Prod.fst (aside_make calls noRaise h)
  | true =>
    cases m with
    | enterCleaner c victim => rfl
    | leaveCleaner call replies verdict => cases verdict <;> rfl
    | _ => cases calls

namespace Work

variable {α β : Type}

/-- All calls of cleaners that are made in the course of some work have returned at its end. -/
def Nested (w : Work K V α) : Prop :=
  ∀ h : Host K V, (w.run h).1.active = h.active ∧ ∀ s ∈ w.steps h, h.active ≤ s.before.active

theorem nested_pure (a : α) : (pure a : Work K V α).Nested := fun _ => ⟨rfl, by simp⟩

theorem Nested.bind {w : Work K V α} {f : α → Work K V β} (first : w.Nested)
    (second : ∀ a, (f a).Nested) : (w >>= f).Nested := by
  intro h
  have rest := second (w.run h).2 (w.run h).1
  rw [run_bind, steps_bind]
  refine ⟨rest.1.trans (first h).1, fun s member => ?_⟩
  rcases List.mem_append.mp member with member | member
  · exact (first h).2 s member
  · exact (first h).1 ▸ rest.2 s member

theorem nested_make (m : Move K V) (noCall : m.calls = false) : (make m).Nested := by
  intro h
  refine ⟨Host.active_make noCall h, fun s member => ?_⟩
  rw [steps_make, List.mem_singleton] at member
  subst member
  exact Nat.le_refl _

/-- Work uses no cache, except inside of cleaners that it calls. -/
def Silent (w : Work K V α) : Prop :=
  ∀ h : Host K V, ∀ s ∈ w.steps h, s.before.active = h.active → s.move.uses = none

theorem silent_pure (a : α) : (pure a : Work K V α).Silent := fun _ s member => by
  simp at member

theorem Silent.bind {w : Work K V α} {f : α → Work K V β} (silent : w.Silent) (nested : w.Nested)
    (second : ∀ a, (f a).Silent) : (w >>= f).Silent := by
  intro h s member level
  rw [steps_bind] at member
  rcases List.mem_append.mp member with member | member
  · exact silent h s member level
  · exact second _ _ s member (level.trans (nested h).1.symm)

theorem silent_make (m : Move K V) (idle : m.uses = none) : (make m).Silent := by
  intro h s member _
  rw [steps_make, List.mem_singleton] at member
  rw [member, idle]

theorem levels_make {m : Move K V} (noCall : m.calls = false) (idle : m.uses = none) :
    (make m).Nested ∧ (make m).Silent := ⟨nested_make m noCall, silent_make m idle⟩

theorem sequenced_levels : Sequenced fun _ (w : Work K V _) => w.Nested ∧ w.Silent := by
  refine ⟨fun a => ⟨nested_pure a, silent_pure a⟩, fun first second => ?_, levels_make rfl rfl⟩
  exact ⟨first.1.bind fun a => (second a).1, first.2.bind first.1 fun a => (second a).2⟩

/-- What a drain does with the budget that it got. -/
def spend (run : CallbackRunner K V) (c : CacheId) (budget : Nat) : Work K V Unit :=
  if budget = 0 then pure ()
  else do
    let released ← evict run c budget
    if released = 0 then return
    make (.sweep c)

omit [DecidableEq K] in
theorem drain_eq_spend (run : CallbackRunner K V) (c : CacheId) :
    drain run c = make (.sweep c) >>= fun _ => make (.consult c) >>= spend run c :=
  rfl

theorem active_leaveCleaner (h : Host K V) (call : Cleaning K V)
    (replies : List (Reply V)) (verdict : Verdict) :
    ((Move.leaveCleaner call replies verdict).make h).1.active = call.active := by
  cases verdict <;> rfl

section

variable {run : CallbackRunner K V} (callbacks : ∀ r, (run r).Nested)

include callbacks

/-- The callbacks of a cleaner run one level deeper. -/
theorem callCleaner_levels (cleaner : Cleaner K V) (c : CacheId) (victim : Victim K V) :
    (callCleaner run cleaner c victim).Nested ∧ (callCleaner run cleaner c victim).Silent := by
  have inside := fun h : Host K V =>
    callbacks (cleaner.callbacks (h.enterCleaner c victim).2) (h.enterCleaner c victim).1
  have deeper : ∀ h : Host K V, (h.enterCleaner c victim).1.active = h.active + 1 := fun _ => rfl
  refine ⟨fun h => ?_, fun h s member level => ?_⟩
  · rw [run_callCleaner]
    refine ⟨active_leaveCleaner _ _ _ _, fun s member => ?_⟩
    rcases mem_steps_callCleaner.mp member with rfl | member | rfl
    · exact Nat.le_refl _
    · have level := (inside h).2 s member
      have up := deeper h
      omega
    · rw [(inside h).1, deeper]
      exact Nat.le_succ _
  · rcases mem_steps_callCleaner.mp member with rfl | member | rfl
    · rfl
    · have deep := (inside h).2 s member
      have up := deeper h
      omega
    · rfl

theorem clean_levels (c : CacheId) (victim : Victim K V) :
    (clean run c victim).Nested ∧ (clean run c victim).Silent :=
  sequenced_levels.coupled.clean run run sequenced_levels.view (callCleaner_levels callbacks) c victim

theorem evict_levels (c : CacheId) (budget : Nat) :
    (evict run c budget).Nested ∧ (evict run c budget).Silent :=
  sequenced_levels.coupled.evict run run (clean_levels callbacks) (fun _ _ => levels_make rfl rfl)
    (fun _ _ => levels_make rfl rfl) (fun _ _ _ => levels_make rfl rfl) c budget

theorem spend_levels (c : CacheId) (budget : Nat) :
    (spend run c budget).Nested ∧ (spend run c budget).Silent := by
  have released := evict_levels callbacks c budget
  rw [spend]
  split
  · exact ⟨nested_pure (), silent_pure ()⟩
  · refine ⟨released.1.bind fun count => ?_, released.2.bind released.1 fun count => ?_⟩
    · split
      · exact nested_pure ()
      · exact nested_make _ rfl
    · split
      · exact silent_pure ()
      · exact silent_make _ rfl

theorem reclaim_levels (c : CacheId) (key : K) :
    (reclaim run c key).Nested ∧ (reclaim run c key).Silent :=
  sequenced_levels.coupled.reclaim run run (clean_levels callbacks) (fun _ _ => levels_make rfl rfl)
    (fun _ _ => levels_make rfl rfl) (fun _ _ => levels_make rfl rfl) c key

end

theorem inherited_nested : Inherited fun _ (w : Work K V _) => w.Nested := by
  exact inherited_of_moves nested_pure (fun first second => first.bind second)
    (fun m steady => nested_make m (Move.calls_of_steady steady)) (fun _ _ _ => nested_make _ rfl)
    (fun callbacks c budget => (evict_levels callbacks c budget).1)
    fun callbacks c key => (reclaim_levels callbacks c key).1

/-! ### What is asked for outside of cleaners -/

variable {asks : Move K V → Option CacheId} {bars : Move K V → Bool}

/-- Where work begins with nothing in flight and no move is made that is barred, each move that asks
    something of a cache, those inside of cleaners aside, meets a cache in which nothing waits to be
    swept out. -/
structure Orderly (asks : Move K V → Option CacheId) (bars : Move K V → Bool) (w : Work K V α) :
    Prop where
  settles : w.Settles
  nested : w.Nested
  asked : ∀ h : Host K V, h.Consistent → (h.Accounts fun _ => []) →
    (∀ s ∈ w.steps h, bars s.move = false) →
    ∀ s ∈ w.steps h, s.before.active = h.active → ∀ c, asks s.move = some c →
      (s.before.Accounts fun _ => []) ∧ s.before.Swept c

theorem Orderly.bind {w : Work K V α} {f : α → Work K V β} (first : w.Orderly asks bars)
    (second : ∀ a, (f a).Orderly asks bars) : (w >>= f).Orderly asks bars := by
  refine ⟨first.settles.bind fun a => (second a).settles,
    first.nested.bind fun a => (second a).nested, ?_⟩
  intro h consistent accounts free s member level
  rw [steps_bind] at free member
  rcases List.mem_append.mp member with member | member
  · exact first.asked h consistent accounts (fun t also => free t (List.mem_append_left _ also)) s
      member level
  · have settled := (first.settles _ h consistent accounts).1
    exact (second _).asked _ (consistent.work w).2 settled
      (fun t also => free t (List.mem_append_right _ also)) s member
      (level.trans (first.nested h).1.symm)

theorem orderly_make {m : Move K V} (stays : m.shifts = false) (noCall : m.calls = false)
    (idle : asks m = none) : (make m).Orderly asks bars := by
  refine ⟨settles_make m stays, nested_make m noCall, fun h _ _ _ s member _ c asked => ?_⟩
  rw [steps_make, List.mem_singleton] at member
  subst member
  rw [idle] at asked
  cases asked

section

variable (few : ∀ {m : Move K V} {c : CacheId}, asks m = some c → m.uses = some c)

include few

theorem orderly_of_silent {w : Work K V α} (settles : w.Settles) (nested : w.Nested)
    (silent : w.Silent) : w.Orderly asks bars := by
  refine ⟨settles, nested, fun h _ _ _ s member level c asked => ?_⟩
  have uses := few asked
  rw [silent h s member level] at uses
  cases uses

theorem orderly_pure (a : α) : (pure a : Work K V α).Orderly asks bars :=
  orderly_of_silent few (settles_pure a) (nested_pure a) (silent_pure a)

variable {run : CallbackRunner K V} (callbacks : ∀ r, (run r).Orderly asks bars)

include callbacks

theorem orderly_evict (c : CacheId) (budget : Nat) : (evict run c budget).Orderly asks bars :=
  have levels := evict_levels (fun r => (callbacks r).nested) c budget
  orderly_of_silent few (settles_evict (fun r => (callbacks r).settles) c budget) levels.1 levels.2

theorem orderly_reclaim (c : CacheId) (key : K) : (reclaim run c key).Orderly asks bars :=
  have levels := reclaim_levels (fun r => (callbacks r).nested) c key
  orderly_of_silent few (settles_reclaim (fun r => (callbacks r).settles) c key) levels.1 levels.2

theorem orderly_drain (c : CacheId) : (drain run c).Orderly asks bars := by
  have settles := inherited_settles.drain (fun r => (callbacks r).settles) c
  have nested := inherited_nested.drain (fun r => (callbacks r).nested) c
  refine ⟨settles, nested, fun h consistent accounts free s member level d asked => ?_⟩
  have swept := h.swept_sweep c
  have accounted := accounts.make consistent (m := .sweep c) rfl
  have uses := few asked
  rw [drain_eq_spend, steps_bind, run_make, steps_make, steps_bind, run_make, steps_make] at member
  simp only [List.mem_append, List.mem_singleton] at member
  rcases member with rfl | rfl | member
  · cases uses
  · cases uses
    exact ⟨accounted, swept⟩
  · have silent := (spend_levels (fun r => (callbacks r).nested) c
      ((Move.consult c).make ((Move.sweep c).make h).1).2).2
    have sameLevel : ((Move.consult c).make ((Move.sweep c).make h).1).1.active = h.active := by
      rw [Host.active_make rfl, Host.active_make rfl]
    rw [silent _ s member (level.trans sameLevel.symm)] at uses
    cases uses

/-- A move right after a drain meets a cache that was drained. -/
theorem orderly_then {c : CacheId} {m : Move K V} (stays : m.shifts = false)
    (noCall : m.calls = false) (uses : m.uses = some c) :
    (drain run c >>= fun _ => make m).Orderly asks bars := by
  have drained := orderly_drain few callbacks c
  refine ⟨drained.settles.bind fun _ => settles_make m stays,
    drained.nested.bind fun _ => nested_make m noCall, ?_⟩
  intro h consistent accounts free s member level d asked
  rw [steps_bind] at free member
  rw [steps_make] at member
  simp only [List.mem_append, List.mem_singleton] at member
  rcases member with member | rfl
  · exact drained.asked h consistent accounts
      (fun t also => free t (List.mem_append_left _ also)) s member level d asked
  · have same := few asked
    rw [uses] at same
    cases same
    exact ⟨(drained.settles _ h consistent accounts).1, swept_drain run c h⟩

theorem orderly_get (c : CacheId) (key : K) : (get run c key).Orderly asks bars :=
  orderly_then few callbacks (m := .look c key) rfl rfl rfl

theorem orderly_insert (c : CacheId) (key : K) (value : V) :
    (insert run c key value).Orderly asks bars :=
  orderly_then few callbacks (m := .place c key value) rfl rfl rfl

theorem orderly_remove (c : CacheId) (key : K) : (remove run c key).Orderly asks bars :=
  orderly_then few callbacks (m := .takeOut c key) rfl rfl rfl

omit callbacks in
theorem orderly_clear (c : CacheId) : (clear c : Work K V Unit).Orderly asks bars := by
  refine ⟨inherited_settles.clear c, inherited_nested.clear c, ?_⟩
  intro h consistent accounts free s member level d asked
  have uses := few asked
  rw [clear, steps_bind, steps_make, steps_bind, steps_make, steps_make, run_make, run_make] at member
  simp only [List.mem_append, List.mem_singleton] at member
  rcases member with rfl | rfl | rfl
  · cases uses
  · cases uses
  · cases uses
    have unpinned := accounts.make consistent (m := .unpinAll c) rfl
    exact ⟨unpinned.make (consistent.make _) (m := .sweep c) rfl, Host.swept_sweep _ c⟩

omit callbacks in
theorem orderly_insertShared {limit : Nat}
    (callbacks : ∀ r : Routine K V Unit, (Host.runCallbacks limit r).Orderly asks bars) (c : CacheId)
    (key : K) (value : V) : (insertShared limit c key value).Orderly asks bars := by
  have drained := orderly_drain few callbacks c
  refine ⟨inherited_settles.insertShared (fun r => (callbacks r).settles) c key value,
    inherited_nested.insertShared (fun r => (callbacks r).nested) c key value, ?_⟩
  intro h consistent accounts free s member level d asked
  have uses := few asked
  rw [insertShared, steps_bind] at free member
  rw [steps_bind, steps_bind, steps_bind, steps_pure, steps_make, steps_make, steps_make,
    run_make] at member
  simp only [List.mem_append, List.mem_singleton, List.not_mem_nil, or_false] at member
  rcases member with member | rfl | rfl | rfl
  · exact drained.asked h consistent accounts
      (fun t also => free t (List.mem_append_left _ also)) s member level d asked
  · cases uses
  · cases uses
    exact ⟨(drained.settles _ h consistent accounts).1, swept_drain _ c h⟩
  · cases uses

end

/-- Drains, and what relies on them, are orderly in all that they use. -/
theorem drained_orderly (few : ∀ {m : Move K V} {c : CacheId}, asks m = some c → m.uses = some c) :
    Drained fun _ (w : Work K V _) => w.Orderly asks bars := by
  refine ⟨⟨⟨orderly_pure few, fun first second => first.bind second, ?_⟩, ?_⟩, orderly_evict few,
    orderly_drain few, orderly_get few, orderly_insert few, orderly_insertShared few,
    orderly_remove few, orderly_clear few⟩
  · exact orderly_of_silent few (settles_make _ rfl) (nested_make _ rfl) (silent_make _ rfl)
  · intro m bare
    refine orderly_of_silent few (settles_make m ?_) (nested_make m ?_) (silent_make m ?_) <;>
      cases m <;> first | rfl | cases bare

/-- The same of all operations, if no pair of a bulk insert that code of a caller makes is stored in a
    cache whose stores are asked for. -/
theorem operated_orderly (few : ∀ {m : Move K V} {c : CacheId}, asks m = some c → m.uses = some c)
    (parts : ∀ c key value, asks (.place c key value) = none ∨
      ∀ reply, bars (.noteServed c (.storeNext key value) reply) = true) :
    Operated fun _ (w : Work K V _) => w.Orderly asks bars := by
  apply (drained_orderly few).operated
  intro run callbacks c request
  have idle : ∀ {m : Move K V}, m.shifts = false → m.calls = false → m.uses = none →
      (make m).Orderly asks bars := fun stays noCall silent =>
    orderly_of_silent few (settles_make _ stays) (nested_make _ noCall) (silent_make _ silent)
  have perform : (∀ key value, request = .storeNext key value →
      (make (.place c key value) : Work K V _).Orderly asks bars) →
      (Host.perform run c request).Orderly asks bars := fun place =>
    (drained_orderly few).perform callbacks c place (fun _ _ _ _ => idle rfl rfl rfl)
      (fun key _ => orderly_reclaim few callbacks c key) fun _ => idle rfl rfl rfl
  cases request with
  | storeNext key value =>
    rcases parts c key value with unasked | barred
    · apply perform
      rintro _ _ ⟨⟩
      exact orderly_make rfl rfl unasked
    · refine ⟨inherited_settles.perform (fun r => (callbacks r).settles) c _,
        inherited_nested.perform (fun r => (callbacks r).nested) c _, ?_⟩
      intro h consistent accounts free s member level d asked
      have uses := few asked
      rw [Host.perform, steps_bind, run_make, steps_make] at free member
      simp only [Move.make] at free member
      cases found : h.cache? c with
      | none =>
        rw [found, steps_pure, List.append_nil, List.mem_singleton] at member
        subst member
        cases uses
      | some cache =>
        -- Such a request is noted at its end, and that is barred.
        rw [found] at free
        dsimp only at free
        rw [steps_bind, steps_bind, steps_make] at free
        have noted := free _ (List.mem_append_right _ (List.mem_append_right _
          (List.mem_append_left _ (List.mem_singleton_self _))))
        rw [barred] at noted
        cases noted
  | _ => exact perform fun _ _ same => by cases same

theorem inherited_orderly :
    Inherited fun _ (w : Work K V _) => w.Orderly Move.asks fun _ => false :=
  (drained_orderly Move.uses_of_asks).inherited (fun _ _ _ => orderly_make rfl rfl rfl)
    (fun _ _ _ => orderly_make rfl rfl rfl) (fun _ _ _ => orderly_make rfl rfl rfl)
    (orderly_reclaim Move.uses_of_asks)

end Work

/-! ### Runs -/

/-- The slot under a key, if it is live. -/
def Cache.liveSlot? (c : Cache K V) (key : K) : Option SlotId :=
  (c.table.get? key).filter c.pool.isLive

/-- Sweeping takes no live entry out, whatever waits in line under the same key. -/
theorem Cache.Accounts.liveSlot?_sweep {c : Cache K V} {flight : List SlotId}
    (accounts : c.Accounts flight) (consistent : c.Consistent) (key : K) :
    c.sweep.1.liveSlot? key = c.liveSlot? key := by
  have pool : c.sweep.1.pool = c.pool := rfl
  rw [liveSlot?, liveSlot?, consistent.get?_sweep, pool]
  cases bound : c.table.get? key with
  | none => rfl
  | some id =>
    by_cases waits : id ∈ c.pending
    · have dead := accounts.dead id (List.mem_append_left _ waits)
      have notLive := SlotPool.isLive_eq_not_isDead (consistent.lt_nextId bound)
      rw [dead] at notLive
      simp [Option.filter, waits, notLive]
    · simp [Option.filter, waits]

namespace Session

variable [BEq V]

/-- A run leaves nothing in flight, and accounts for all dead entries at all points of time. -/
theorem accounts_run (limit : Nat) (board : PressureBoard) (acts : List (Act K V)) :
    (((empty board : Session K V).run limit acts).1.host.Accounts fun _ => []) ∧
      ∀ s ∈ (empty board : Session K V).history limit acts, ∃ flight, s.before.Accounts flight :=
  (Work.inherited_settles.workAll limit ([] : Cursors K) acts) _ _
    (Host.consistent_empty board) (Host.accounts_empty board)

theorem consistent_run (limit : Nat) (board : PressureBoard) (acts : List (Act K V)) :
    ((empty board : Session K V).run limit acts).1.host.Consistent :=
  consistent_states limit board acts _ (List.mem_append_right _ (List.mem_singleton_self _))

theorem consistent_before (limit : Nat) (board : PressureBoard) (acts : List (Act K V)) :
    ∀ s ∈ (empty board : Session K V).history limit acts, s.before.Consistent := fun _ member =>
  consistent_states limit board acts _ (List.mem_append_left _ (List.mem_map_of_mem member))

section

variable {limit : Nat} {board : PressureBoard} {acts : List (Act K V)} {c : CacheId}
  {cache : Cache K V}

/-- Dead entries that are counted and not listed wait in line. -/
theorem entries_accounted
    (found : ((empty board).run limit acts).1.host.cache? c = some cache) :
    (∀ key id, cache.table.get? key = some id → cache.pool.isDead id = true → id ∈ cache.pending) ∧
      (∀ id ∈ cache.pending, cache.pool.isDead id = true) ∧
      cache.pending.Nodup ∧
      cache.size - cache.pending.length ≤ cache.toList.length ∧
      cache.toList.length ≤ cache.size := by
  have accounts := (accounts_run limit board acts).1.present c cache found
  have consistent := consistent_run limit board acts c cache found
  have nodup := accounts.nodup
  rw [List.append_nil] at nodup
  refine ⟨?_, ?_, nodup, ?_, consistent.length_toList_le⟩
  · intro key id bound dead
    rw [← List.append_nil cache.pending]
    exact accounts.installed key id bound dead
  · intro id waits
    exact accounts.dead id (List.mem_append_left _ waits)
  · exact Nat.sub_le_of_le_add (accounts.size_le consistent)

/-- A sweep takes out what waits in line, and no live entry. -/
theorem liveSlot?_of_sweep {s : Step K V} (member : s ∈ (empty board).history limit acts)
    (sweeps : s.move = .sweep c) {d : CacheId} (found : s.before.cache? d = some cache) :
    ∃ swept, s.after.cache? d = some swept ∧ swept.pool = cache.pool ∧
      (∀ key, swept.liveSlot? key = cache.liveSlot? key) ∧
      (d = c → ∀ key, ∀ id ∈ cache.pending, swept.table.get? key ≠ some id) := by
  obtain ⟨flight, accounts⟩ := (accounts_run limit board acts).2 s member
  have consistent := consistent_before limit board acts s member d cache found
  have after := Move.cache?_make_of_some found s.move
  rw [sweeps, Move.effectOn, Move.target] at after
  refine ⟨_, (congrArg (fun m => (m.make s.before).1.cache? d) sweeps).trans after, ?_⟩
  by_cases same : c = d
  · rw [if_pos (congrArg some same)]
    refine ⟨rfl, (accounts.present d cache found).liveSlot?_sweep consistent, ?_⟩
    intro _ key id waits bound
    rw [Move.effect, consistent.get?_sweep, Option.filter_eq_some_iff] at bound
    simp [waits] at bound
  · have other : some c ≠ some d := fun equal => same (Option.some.inj equal)
    rw [if_neg other]
    exact ⟨rfl, fun _ => rfl, fun equal => absurd equal.symm same⟩

/-- An act that settles leaves live entries only. -/
theorem live_of_settling {command : Command K V}
    (settling : command.Settling limit c ((empty board).run limit acts).1.host)
    (found : (((empty board).run limit acts).1.step limit c command).1.host.cache? c = some cache) :
    cache.pending = [] ∧
      (∀ key id, cache.table.get? key = some id → cache.pool.isLive id = true) ∧
      cache.size = cache.toList.length := by
  have consistentEnd := consistent_run limit board acts
  have swept := Command.swept_work limit ((empty board).run limit acts).1.cursors settling cache
    found
  have done := (Work.inherited_settles.act limit ((empty board).run limit acts).1.cursors
    (.on c command)) _ _ consistentEnd (accounts_run limit board acts).1
  have accounts := done.1.present c cache found
  have consistent := (consistentEnd.work _).2 c cache found
  exact ⟨swept, fun key id bound => accounts.isLive consistent swept bound,
    accounts.size_eq consistent swept⟩

/-- What is asked outside of cleaners meets live entries only. -/
theorem live_of_asked {s : Step K V} (member : s ∈ (empty board).history limit acts)
    (outside : s.before.active = 0) (found : s.before.cache? c = some cache) :
    (∀ key id, s.move = .look c key → cache.table.get? key = some id →
        cache.pool.isLive id = true) ∧
      (s.move = .consult c → (cache.usage s.before.board).entries = cache.toList.length) := by
  have consistent := consistent_before limit board acts s member c cache found
  have orderly := (Work.inherited_orderly.workAll limit ([] : Cursors K) acts).asked _
    (Host.consistent_empty board) (Host.accounts_empty board) (fun _ _ => rfl) s member outside c
  refine ⟨?_, ?_⟩
  · intro key id looks bound
    have found' := orderly (by rw [looks, Move.asks])
    exact (found'.1.present c cache found).isLive consistent (found'.2 cache found) bound
  · intro consults
    have found' := orderly (by rw [consults, Move.asks])
    exact (found'.1.present c cache found).size_eq consistent (found'.2 cache found)

end

/-- Between the acts of a run dead entries wait in line, which names dead slots only and none twice.
    A sweep, at any point of time, leaves the live entries as they are. An act that settles leaves
    live entries only. Outside of cleaners a look-up finds no dead entry, and a policy is told the
    number of live ones. -/
theorem dead_entries_accounted (limit : Nat) (board : PressureBoard) (acts : List (Act K V)) :
    (∀ c cache, ((empty board).run limit acts).1.host.cache? c = some cache →
      (∀ key id, cache.table.get? key = some id → cache.pool.isDead id = true →
        id ∈ cache.pending) ∧
      (∀ id ∈ cache.pending, cache.pool.isDead id = true) ∧
      cache.pending.Nodup ∧
      cache.size - cache.pending.length ≤ cache.toList.length ∧
      cache.toList.length ≤ cache.size) ∧
    (∀ s ∈ (empty board).history limit acts, ∀ c, s.move = .sweep c →
      ∀ d cache, s.before.cache? d = some cache → ∃ swept, s.after.cache? d = some swept ∧
        swept.pool = cache.pool ∧
        (∀ key, swept.liveSlot? key = cache.liveSlot? key) ∧
        (d = c → ∀ key, ∀ id ∈ cache.pending, swept.table.get? key ≠ some id)) ∧
    (∀ c command cache, Command.Settling limit c ((empty board).run limit acts).1.host command →
      (((empty board).run limit acts).1.step limit c command).1.host.cache? c = some cache →
      cache.pending = [] ∧
      (∀ key id, cache.table.get? key = some id → cache.pool.isLive id = true) ∧
      cache.size = cache.toList.length) ∧
    (∀ s ∈ (empty board).history limit acts, s.before.active = 0 →
      ∀ c cache, s.before.cache? c = some cache →
        (∀ key id, s.move = .look c key → cache.table.get? key = some id →
          cache.pool.isLive id = true) ∧
        (s.move = .consult c → (cache.usage s.before.board).entries = cache.toList.length)) := by
  refine ⟨fun c cache found => entries_accounted found, ?_, ?_, ?_⟩
  · intro s member c sweeps d cache found
    exact liveSlot?_of_sweep member sweeps found
  · intro c command cache settling found
    exact live_of_settling settling found
  · intro s member outside c cache found
    exact live_of_asked member outside found

end Session

end

/-- The entry of key 1 that a cleaner stored again outlives the sweep of the slot that it was
    called on. -/
theorem dead_entries_accounted_restoring :
    (∃ cache, ((Session.empty .empty).run 2 restoringActs).1.host.cache? 1 = some cache ∧
      cache.pending = [0] ∧ cache.size - 1 ≤ cache.toList.length) ∧
    (∃ s ∈ (Session.empty .empty).history 2 restoringActs, s.move = .sweep 0 ∧
      ∃ cache swept, s.before.cache? 0 = some cache ∧ cache.pending = [0] ∧
        s.after.cache? 0 = some swept ∧ cache.liveSlot? 1 = some 2 ∧ swept.liveSlot? 1 = some 2) ∧
    (∃ cache, (((Session.empty .empty).run 2 restoringActs).1.step 2 1
        (.request (.get 2))).1.host.cache? 1 = some cache ∧ cache.pending = []) ∧
    (∃ s ∈ (Session.empty .empty).history 2 restoringActs, s.before.active = 0 ∧
      s.move = .look 0 1 ∧ ∃ cache, s.before.cache? 0 = some cache ∧
        cache.table.get? 1 = some 0 ∧ cache.pool.isLive 0 = true) := by
  obtain ⟨between, sweeps, settles, outside⟩ :=
    Session.dead_entries_accounted 2 .empty restoringActs
  refine ⟨?_, ?_, ?_, ?_⟩
  · have there : (((Session.empty .empty).run 2 restoringActs).1.host.cache? 1).map
        Cache.pending = some [0] := by decide +kernel
    obtain ⟨cache, found, waits⟩ := Option.map_eq_some_iff.mp there
    have counted := (between 1 cache found).2.2.2.1
    rw [waits] at counted
    exact ⟨cache, found, waits, counted⟩
  · have there : ((Session.empty .empty).history 2 restoringActs)[56]?.any (fun s =>
        match s.move with
        | .sweep 0 => true
        | _ => false) = true := by decide +kernel
    obtain ⟨s, at56, sweep⟩ := Option.any_eq_true _ _ |>.mp there
    replace sweep : s.move = .sweep 0 := by
      split at sweep
      · assumption
      · cases sweep
    have facts : (((Session.empty .empty).history 2 restoringActs)[56]?.bind fun s =>
        s.before.cache? 0).map (fun cache => (cache.pending, cache.liveSlot? 1)) =
          some ([0], some 2) := by decide +kernel
    rw [at56, Option.bind_some] at facts
    obtain ⟨cache, found, shown⟩ := Option.map_eq_some_iff.mp facts
    obtain ⟨waits, live⟩ := Prod.mk.inj shown
    have member := List.mem_of_getElem? at56
    obtain ⟨swept, after, _, same, _⟩ := sweeps s member 0 sweep 0 cache found
    exact ⟨s, member, sweep, cache, swept, found, waits, after, live, (same 1).trans live⟩
  · have there : ((((Session.empty .empty).run 2 restoringActs).1.step 2 1
        (.request (.get 2))).1.host.cache? 1).isSome = true := by decide +kernel
    obtain ⟨cache, found⟩ := Option.isSome_iff_exists.mp there
    refine ⟨cache, found, (settles 1 (.request (.get 2)) cache ?_ found).1⟩
    unfold Command.Settling
    rfl
  · have there : ∃ s, ((Session.empty .empty).history 2 restoringActs)[12]? = some s ∧
        s.move = .look 0 1 := ⟨_, rfl, rfl⟩
    obtain ⟨s, at12, looks⟩ := there
    have facts : (((Session.empty .empty).history 2 restoringActs)[12]?.map fun s =>
        (s.before.active, (s.before.cache? 0).map fun cache => cache.table.get? 1)) =
          some (0, some (some 0)) := by decide +kernel
    rw [at12, Option.map_some, Option.some.injEq] at facts
    obtain ⟨level, shown⟩ := Prod.mk.inj facts
    obtain ⟨cache, found, bound⟩ := Option.map_eq_some_iff.mp shown
    have member := List.mem_of_getElem? at12
    exact ⟨s, member, level, looks, cache, found, bound,
      (outside s member level 0 cache found).1 1 0 looks bound⟩

end ReclaimableCache
