import ReclaimableCache.Proofs.Stale

/-!
# Caches that are left alone

While neither cleaners nor the sources of values touch a cache, and no code of a caller begins a bulk
insert there, all that is done to it is done by operations that begin with a drain, or that release
values and settle them. Look-ups and stores then
meet live entries only, and the slots of released values leave the table by sweeps.
-/

namespace ReclaimableCache

variable {K V α β : Type}

section

variable [DecidableEq K]

/-! ### What look-ups and stores meet -/

omit [DecidableEq K] in
/-- The cache in question, if a move uses it. -/
def Move.usesOf (c : CacheId) (m : Move K V) : Option CacheId :=
  if m.uses = some c then some c else none

omit [DecidableEq K] in
theorem Move.uses_of_usesOf {c d : CacheId} {m : Move K V} (asked : m.usesOf c = some d) :
    m.uses = some d := by
  rw [usesOf] at asked
  split at asked
  · rename_i uses
    exact uses.trans asked
  · cases asked

omit [DecidableEq K] in
/-- Whether a move notes that code of a caller stored the next pair of a bulk insert in a cache. -/
def Move.feeds (c : CacheId) : Move K V → Bool
  | noteServed d (.storeNext ..) _ => d == c
  | _ => false

namespace Work

/-- Whenever a cache is used, cleaners aside, nothing is in flight and nothing in the cache waits to be
    swept out. -/
def Meets (c : CacheId) (w : Work K V α) (h : Host K V) : Prop :=
  ∀ s ∈ w.steps h, s.before.active = h.active → s.move.uses = some c →
    (s.before.Accounts fun _ => []) ∧ s.before.Swept c

variable {c : CacheId} {h : Host K V}

/-- No code of a caller stores the next pair of a bulk insert in a cache in the course of some work. -/
def Unfed (c : CacheId) (w : Work K V α) (h : Host K V) : Prop :=
  ∀ s ∈ w.steps h, s.move.feeds c = false

theorem Unfed.bind {w : Work K V α} {f : α → Work K V β} (unfed : (w >>= f).Unfed c h) :
    w.Unfed c h ∧ (f (w.run h).2).Unfed c (w.run h).1 := by
  rw [Unfed, steps_bind] at unfed
  exact ⟨fun s member => unfed s (List.mem_append_left _ member),
    fun s member => unfed s (List.mem_append_right _ member)⟩

theorem meets_of_orderly {w : Work K V α} (orderly : w.Orderly (Move.usesOf c) (Move.feeds c))
    (consistent : h.Consistent) (accounts : h.Accounts fun _ => []) (unfed : w.Unfed c h) :
    w.Meets c h :=
  fun s member level uses =>
    orderly.asked h consistent accounts unfed s member level c (if_pos uses)

theorem operated_usesOf :
    Operated fun _ (w : Work K V _) => w.Orderly (Move.usesOf c) (Move.feeds c) := by
  refine operated_orderly Move.uses_of_usesOf fun d key value => ?_
  by_cases same : d = c
  · exact .inr fun reply => beq_iff_eq.mpr same
  · exact .inl (if_neg fun equal => same (Option.some.inj equal))

theorem meets_pure (a : α) : (pure a : Work K V α).Meets c h := fun s member => by simp at member

theorem meets_bind {w : Work K V α} {f : α → Work K V β} (nested : w.Nested) (first : w.Meets c h)
    (second : (f (w.run h).2).Meets c (w.run h).1) : (w >>= f).Meets c h := by
  intro s member level uses
  rw [steps_bind] at member
  rcases List.mem_append.mp member with member | member
  · exact first s member level uses
  · exact second s member (level.trans (nested h).1.symm) uses

theorem meets_make {m : Move K V} (accounts : h.Accounts fun _ => []) (swept : h.Swept c) :
    (make m).Meets c h := by
  intro s member _ _
  rw [steps_make, List.mem_singleton] at member
  exact member ▸ ⟨accounts, swept⟩

theorem OnlyPlaces.bind {w : Work K V α} {f : α → Work K V β} (places : (w >>= f).OnlyPlaces c h) :
    w.OnlyPlaces c h ∧ (f (w.run h).2).OnlyPlaces c (w.run h).1 := by
  rw [OnlyPlaces, steps_bind] at places
  exact ⟨fun s member => places s (List.mem_append_left _ member),
    fun s member => places s (List.mem_append_right _ member)⟩

/-- A source that does not touch the cache leaves nothing to be swept out between stores. -/
theorem meets_storeAll {limit : Nat} {source : List (Routine K V (Except Panic (K × V)))}
    (consistent : h.Consistent) (accounts : h.Accounts fun _ => []) (swept : h.Swept c)
    (places : (storeAll limit c source).OnlyPlaces c h) (unfed : (storeAll limit c source).Unfed c h) :
    (storeAll limit c source).Meets c h := by
  induction source generalizing h with
  | nil => exact meets_pure _
  | cons next rest ih =>
    have followed : (follow limit next).Orderly (Move.usesOf c) (Move.feeds c) :=
      operated_usesOf.follow limit next
    have settled := (followed.settles _ h consistent accounts).1
    have later := (consistent.work (follow limit next)).2
    obtain ⟨before, after⟩ := OnlyPlaces.bind places
    obtain ⟨unfedFirst, unfedRest⟩ := Unfed.bind unfed
    have still := swept_of_onlyPlaces swept before
    apply meets_bind followed.nested (meets_of_orderly followed consistent accounts unfedFirst)
    cases given : ((follow limit next).run h).2 with
    | error p => exact meets_pure _
    | ok e =>
      rw [given] at after unfedRest
      apply meets_bind (nested_make _ rfl) (meets_make settled still)
      exact ih (later.make _) (settled.make later rfl) (still.make fun _ same => by cases same)
        (OnlyPlaces.bind after).2 (Unfed.bind unfedRest).2

end Work

/-! ### Runs -/

variable [BEq V]

/-- A cache is left alone in the course of a run: no cleaner touches it, no source of values that are
    stored in it does, and no code of a caller makes a bulk insert there. -/
structure Session.LeavesAlone (limit : Nat) (c : CacheId) (s : Session K V) (acts : List (Act K V)) :
    Prop where
  unfed : ∀ t ∈ s.history limit acts, t.move.feeds c = false
  cleaners : ∀ t ∈ s.history limit acts, t.before.active ≠ s.host.active → t.move.target ≠ some c
  sources : ∀ earlier source later, acts = earlier ++ .on c (.insertAll source) :: later →
    (Work.storeAll limit c source).OnlyPlaces c
      ((Work.drain (Host.runCallbacks limit) c).run (s.run limit earlier).1.host).1

namespace Work

variable {c : CacheId} {h : Host K V} {limit : Nat}

omit [BEq V] in
theorem meets_insertAll {source : List (Routine K V (Except Panic (K × V)))}
    (consistent : h.Consistent) (accounts : h.Accounts fun _ => [])
    (places : (storeAll limit c source).OnlyPlaces c
      ((drain (Host.runCallbacks limit) c).run h).1) (unfed : (insertAll limit c source).Unfed c h) :
    (insertAll limit c source).Meets c h := by
  have drained : (drain (Host.runCallbacks limit) c : Work K V Unit).Orderly (Move.usesOf c)
      (Move.feeds c) := orderly_drain Move.uses_of_usesOf (operated_usesOf.runCallbacks limit) c
  obtain ⟨unfedDrain, unfedRest⟩ := Unfed.bind unfed
  apply meets_bind drained.nested (meets_of_orderly drained consistent accounts unfedDrain)
  exact meets_storeAll (consistent.work _).2 (drained.settles _ h consistent accounts).1
    (swept_drain _ c h) places unfedRest

/-- All acts but those that store what a source gives in the cache are orderly. -/
theorem orderly_act (cursors : Cursors K) {a : Act K V}
    (other : ∀ source, a ≠ .on c (.insertAll source)) :
    (a.work limit cursors).Orderly (Move.usesOf c) (Move.feeds c) := by
  cases a with
  | build config =>
    apply operated_usesOf.bind (orderly_make rfl rfl rfl)
    intro built
    cases built <;> exact operated_usesOf.pure _
  | on d command =>
    apply operated_usesOf.bind operated_usesOf.view
    intro h
    split
    · exact operated_usesOf.pure _
    · apply operated_usesOf.workOn limit cursors d
      · rintro source rfl
        have away : some d ≠ some c := fun same => other source (by rw [Option.some.inj same])
        exact (drained_orderly Move.uses_of_usesOf).insertAll operated_usesOf limit
          (fun key value => orderly_make rfl rfl (if_neg away)) source
      · exact fun _ e key id => orderly_make rfl rfl rfl

theorem meets_act (cursors : Cursors K) {a : Act K V} (consistent : h.Consistent)
    (accounts : h.Accounts fun _ => [])
    (places : ∀ source, a = .on c (.insertAll source) → (storeAll limit c source).OnlyPlaces c
      ((drain (Host.runCallbacks limit) c).run h).1) (unfed : (a.work limit cursors).Unfed c h) :
    (a.work limit cursors).Meets c h := by
  by_cases bulk : ∃ source, a = .on c (.insertAll source)
  · obtain ⟨source, rfl⟩ := bulk
    obtain ⟨unfedLook, unfedRest⟩ := Unfed.bind unfed
    apply meets_bind (nested_make _ rfl)
      (meets_of_orderly (orderly_make rfl rfl rfl) consistent accounts unfedLook)
    rw [run_make] at unfedRest ⊢
    simp only [Move.make] at unfedRest ⊢
    cases found : h.cache? c with
    | none => exact meets_pure _
    | some cache =>
      rw [found] at unfedRest
      exact meets_bind (inherited_nested.insertAll limit c source)
        (meets_insertAll consistent accounts (places source rfl) (Unfed.bind unfedRest).1)
        (meets_pure _)
  · exact meets_of_orderly (orderly_act cursors fun source same => bulk ⟨source, same⟩) consistent
      accounts unfed

end Work

namespace Session

variable {c : CacheId} {limit : Nat} {s : Session K V}

/-- Whenever a cache that is left alone is used, nothing in it waits to be swept out. -/
theorem LeavesAlone.meets {acts : List (Act K V)} (alone : s.LeavesAlone limit c acts)
    (consistent : s.host.Consistent) (accounts : s.host.Accounts fun _ => []) :
    (Act.workAll limit s.cursors acts).Meets c s.host := by
  have sources := alone.sources
  have unfed : (Act.workAll limit s.cursors acts).Unfed c s.host := alone.unfed
  clear alone
  induction acts generalizing s with
  | nil => exact Work.meets_pure _
  | cons a rest ih =>
    have settled := (Work.inherited_settles.act limit s.cursors a _ s.host consistent accounts).1
    obtain ⟨unfedFirst, unfedRest⟩ := Work.Unfed.bind unfed
    apply Work.meets_bind (Work.inherited_nested.act limit s.cursors a)
    · exact Work.meets_act s.cursors consistent accounts (fun source same =>
        sources [] source rest (by rw [same, List.nil_append])) unfedFirst
    · apply Work.meets_bind (Work.inherited_nested.workAll limit _ rest)
      · refine ih (s := (s.act limit a).1) (consistent.work _).2 settled ?_
          (Work.Unfed.bind unfedRest).1
        intro earlier source later split
        have places := sources (a :: earlier) source later (by rw [split, List.cons_append])
        rw [run_cons] at places
        exact places
      · exact Work.meets_pure _

end Session

/-! ### What counters say of a cache that is left alone -/

/-- Whether a move stores a value in a cache. -/
def Step.stores (c : CacheId) (s : Step K V) : Bool :=
  match s.move with
  | .place d _ _ => decide (d = c) && (s.before.cache? c).isSome
  | _ => false

omit [DecidableEq K] [BEq V] in
theorem Step.exists_of_stores {s : Step K V} {c : CacheId} (stores : s.stores c = true) :
    ∃ key value, s.move = .place c key value := by
  obtain ⟨h, m⟩ := s
  cases m with
  | place d key value =>
    obtain ⟨same, _⟩ := Bool.and_eq_true_iff.mp stores
    exact ⟨key, value, by rw [of_decide_eq_true same]⟩
  | _ => cases stores

/-- Whether a move stores a value in a cache in place of a live one. -/
def Step.replaces (c : CacheId) (s : Step K V) : Bool :=
  match s.move with
  | .place d key _ => decide (d = c) && (s.before.cache? c).any fun cache => cache.containsKey key
  | _ => false

omit [BEq V] in
/-- Each value that is stored is counted as new or as an update. -/
theorem Step.gain_stores (s : Step K V) (c : CacheId) :
    s.gain c .newInserts + s.gain c .updates = (s.stores c).toNat := by
  obtain ⟨h, m⟩ := s
  cases m with
  | place d key value =>
    by_cases same : d = c
    · subst same
      cases found : h.cache? d with
      | none => simp [gain, stores, found]
      | some cache =>
        cases bound : cache.table.get? key <;>
          simp [gain, stores, Move.target, Move.gain, found, bound]
    · simp [gain, stores, Move.target, same]
  | _ =>
    rw [gain_eq_zero (fun _ _ => rfl), gain_eq_zero (fun _ _ => rfl)]
    rfl

namespace Session

variable {c : CacheId} {limit : Nat} {board : PressureBoard} {acts : List (Act K V)} {s : Step K V}

theorem LeavesAlone.used (alone : (empty board : Session K V).LeavesAlone limit c acts)
    (member : s ∈ (empty board).history limit acts) (uses : s.move.uses = some c) :
    (s.before.Accounts fun _ => []) ∧ s.before.Swept c := by
  have level : s.before.active = 0 := by
    by_contra inside
    exact alone.cleaners s member inside (Move.target_of_uses uses)
  exact alone.meets (Host.consistent_empty board) (Host.accounts_empty board) s member level uses

/-- Whatever a use of the cache finds there is live. -/
theorem LeavesAlone.isLive (alone : (empty board : Session K V).LeavesAlone limit c acts)
    (member : s ∈ (empty board).history limit acts) (uses : s.move.uses = some c)
    {cache : Cache K V} (found : s.before.cache? c = some cache) {key : K} {id : SlotId}
    (bound : cache.table.get? key = some id) : cache.pool.isLive id = true := by
  obtain ⟨accounts, swept⟩ := alone.used member uses
  exact (accounts.present c cache found).isLive
    (consistent_before limit board acts s member c cache found) (swept cache found) bound

theorem LeavesAlone.left_dropped (alone : (empty board : Session K V).LeavesAlone limit c acts) :
    left c .dropped ((empty board : Session K V).history limit acts) = 0 := by
  apply List.sum_eq_zero
  intro n inside
  obtain ⟨⟨h, m⟩, member, rfl⟩ := List.mem_map.mp inside
  rw [Step.exits]
  split
  · rename_i target
    cases found : h.cache? c with
    | none => rfl
    | some cache =>
      cases m with
      | look d key =>
        cases bound : cache.table.get? key with
        | none => simp [Move.exits, bound]
        | some id =>
          have live := alone.isLive member target found bound
          simp [Move.exits, bound, live]
      | _ => rfl
  · rfl

omit [BEq V] in
theorem gained_stores (history : List (Step K V)) :
    gained c .newInserts history + gained c .updates history = history.countP (Step.stores c) := by
  rw [gained, gained, ← List.sum_map_add, countP_eq_sum]
  exact congrArg List.sum (List.map_congr_left fun s _ => s.gain_stores c)

theorem LeavesAlone.gained_updates (alone : (empty board : Session K V).LeavesAlone limit c acts) :
    gained c .updates ((empty board : Session K V).history limit acts) =
      ((empty board : Session K V).history limit acts).countP (Step.replaces c) := by
  rw [gained, countP_eq_sum]
  apply congrArg List.sum (List.map_congr_left fun s member => ?_)
  obtain ⟨h, m⟩ := s
  cases m with
  | place d key value =>
    by_cases same : d = c
    · subst same
      cases found : h.cache? d with
      | none => simp [Step.gain, Step.replaces, found]
      | some cache =>
        cases bound : cache.table.get? key with
        | none =>
          simp [Step.gain, Step.replaces, Move.target, Move.gain, Cache.containsKey, found, bound]
        | some id =>
          have live := alone.isLive member rfl found bound
          simp [Step.gain, Step.replaces, Move.target, Move.gain, Cache.containsKey, found, bound,
            live]
    · simp [Step.gain, Step.replaces, Move.target, same]
  | _ =>
    rw [Step.gain_eq_zero (fun _ _ => rfl)]
    rfl

/-- Stale entries leave the table by sweeps. -/
theorem LeavesAlone.countP_loses (alone : (empty board : Session K V).LeavesAlone limit c acts)
    (member : s ∈ (empty board).history limit acts) (unpicked : s.picksStale c = false) {n : Nat}
    (below : s.before.MadeBelow c n) :
    ((List.range n).countP fun id => s.loses c id) = s.gain c .swept := by
  have consistent := consistent_before limit board acts s member
  obtain ⟨h, m⟩ := s
  by_cases sweeps : m = .sweep c
  · subst sweeps
    obtain ⟨flight, accounts⟩ := (accounts_run limit board acts).2 _ member
    exact Step.countP_loses_sweep consistent accounts below
  · have nothing : Step.gain c .swept ⟨h, m⟩ = 0 := by
      cases m with
      | sweep d =>
        have away : d ≠ c := fun same => sweeps (congrArg Move.sweep same)
        simp [Step.gain, Move.target, away]
      | _ => exact Step.gain_eq_zero (fun _ _ => rfl) c
    rw [nothing, List.countP_eq_zero]
    intro id _
    rw [Bool.not_eq_true]
    refine Step.loses_eq_false consistent sweeps (fun uses id => ?_) unpicked id
    rw [← Bool.not_eq_true, Host.isStale, Bool.and_eq_true]
    rintro ⟨held, dead⟩
    cases found : h.cache? c with
    | none => simp [Host.holds, found] at held
    | some cache =>
      obtain ⟨key, bound⟩ := (Host.holds_iff consistent found).mp held
      have live := alone.isLive member uses found bound
      have known := (consistent c cache found).lt_nextId bound
      rw [SlotPool.isLive_eq_not_isDead known] at live
      simp [Host.isDead, found] at dead
      rw [dead] at live
      cases live

/-- What was released was swept out or is stale. -/
theorem LeavesAlone.staleCount_run (alone : (empty board : Session K V).LeavesAlone limit c acts)
    (unpicked : ∀ s ∈ (empty board : Session K V).history limit acts, s.picksStale c = false) {n : Nat}
    (below : ∀ s ∈ (empty board : Session K V).history limit acts, s.before.MadeBelow c n) :
    ((empty board).run limit acts).1.host.staleCount c n +
        gained c .swept ((empty board).history limit acts) =
      (((empty board).history limit acts).map (Step.released c)).sum := by
  have consistent := consistent_before (K := K) (V := V) limit board acts
  have none : (Host.empty board : Host K V).staleCount c n = 0 := by
    simp [Host.staleCount, Host.isStale, Host.holds, Host.empty, Host.cache?]
  have all := (Act.workAll limit ([] : Cursors K) acts).staleCount_run
    (Host.consistent_empty board) c n
  rw [none, Nat.zero_add] at all
  rw [gained, ← List.map_congr_left fun s member =>
    alone.countP_loses member (unpicked s member) (below s member),
    ← List.map_congr_left fun s member =>
      Step.countP_releases (consistent s member) (below s member)]
  exact all

/-- What was released was swept out or waits in line. -/
theorem LeavesAlone.gained_reclaimed (alone : (empty board : Session K V).LeavesAlone limit c acts)
    (unpicked : ∀ s ∈ (empty board : Session K V).history limit acts, s.picksStale c = false)
    {cache : Cache K V} (found : ((empty board).run limit acts).1.host.cache? c = some cache) :
    gained c .reclaimed ((empty board : Session K V).history limit acts) =
      gained c .swept ((empty board : Session K V).history limit acts) + cache.pending.length := by
  have below : ∀ s ∈ (empty board : Session K V).history limit acts,
      s.before.MadeBelow c cache.pool.nextId := by
    intro s member old there
    have grows := (Host.grows_make s.move s.before).trans ((Host.grows_steps _ _).2 s member)
    obtain ⟨later, ends, grown⟩ := grows c old there
    cases found.symm.trans ends
    exact grown.pool.made
  have line : ((empty board).run limit acts).1.host.pendingCount c = cache.pending.length := by
    rw [Host.pendingCount, found, Option.elim_some]
  have stale := alone.staleCount_run unpicked below
  have waiting := Host.staleCount_le (c := c) (consistent_run limit board acts)
    (accounts_run limit board acts).1 cache.pool.nextId
  have pending := pendingCount_run (K := K) (V := V) limit board acts c
  have swept : gained c .swept ((empty board : Session K V).history limit acts) ≤
      (((empty board : Session K V).history limit acts).map (Step.unqueued c)).sum :=
    List.sum_le_sum fun s _ => s.gain_swept_le c
  have queued := sum_queued_le (K := K) (V := V) limit board acts c
  have counted := sum_released (K := K) (V := V) limit board acts c
  omega

/-- What a cache let in is there, was counted out, or left uncounted. -/
theorem size_run {cache : Cache K V}
    (found : ((empty board).run limit acts).1.host.cache? c = some cache) :
    cache.size + gained c .removals ((empty board).history limit acts) +
        gained c .swept ((empty board).history limit acts) +
        ((empty board).picked limit c acts +
          ((empty board).history limit acts).countP (Step.notesPick c)) +
        left c .cleared ((empty board).history limit acts) +
        left c .dropped ((empty board).history limit acts) =
      gained c .newInserts ((empty board : Session K V).history limit acts) := by
  have none : (Host.empty board : Host K V).size c = 0 := by
    simp [Host.size, Host.empty, Host.cache?]
  have size : ((empty board).run limit acts).1.host.size c = cache.size := by
    rw [Host.size, found, Option.elim_some]
  have all := (Act.workAll limit ([] : Cursors K) acts).size_run (Host.consistent_empty board) c
  rw [none, Nat.zero_add] at all
  rw [← size, ← left_picked_history]
  exact all

/-- As long as it does not run over, a counter shows what moves added to it. -/
theorem toNat_counter {metric : Metric}
    (inRange : gained c metric ((empty board : Session K V).history limit acts) < 2 ^ 64)
    {cache : Cache K V} (found : ((empty board).run limit acts).1.host.cache? c = some cache) :
    (cache.counters.value metric).toNat =
      gained c metric ((empty board : Session K V).history limit acts) := by
  have counted := (Act.workAll limit ([] : Cursors K) acts).counter_run (Host.empty board) c metric
  have none : (Host.empty board : Host K V).counter c metric = 0 := by
    simp [Host.counter, Host.empty, Host.cache?]
  rw [none, UInt64.zero_add] at counted
  rw [← Host.counter_of_some found metric]
  refine (congrArg UInt64.toNat counted).trans ?_
  rw [Nat.toUInt64_eq, UInt64.toNat_ofNat']
  exact Nat.mod_eq_of_lt inRange

end Session

end

/-- A source of three values that asks the first cache for its size. -/
def threeValues : List (Routine UInt64 Nat (Except Panic (UInt64 × Nat))) :=
  [.ask 0 .length fun _ => .done (.ok (1, 10)), .done (.ok (2, 20)), .done (.ok (3, 30))]

/-- Two caches whose cleaners call the first one only. Entries of the second one leave it in all the
    ways that there are; a predicate that goes through the first one takes one out by its slot. -/
def balancedActs : List (Act UInt64 Nat) :=
  [.build .restoring, .build .restoring, .on 1 (.insertAll threeValues),
    .on 1 (.request (.reclaim 1)), .on 1 (.request (.insert 2 25)), .on 1 (.request (.remove 3)),
    .on 1 (.request (.insert 4 40)), .on 1 (.retain fun _ key _ => .done (key ≠ 4)),
    .on 1 (.request (.insert 5 50)), .on 1 (.request .clear), .on 1 (.request (.insert 6 60)),
    .on 0 (.retain fun _ _ _ => .ask 1 (.removeRecent 6 0) fun _ => .done true),
    .on 1 (.request (.insert 7 70)), .on 1 (.request (.reclaim 7))]

theorem leavesAlone_balancedActs : (Session.empty .empty).LeavesAlone 2 1 balancedActs := by
  refine ⟨?_, ?_, ?_⟩
  · have unfed : ((Session.empty .empty).history 2 balancedActs).all (fun s =>
        !s.move.feeds 1) = true := by decide +kernel
    intro s member
    simpa using List.all_eq_true.mp unfed s member
  · have apart : ((Session.empty .empty).history 2 balancedActs).all (fun s =>
        s.before.active == 0 || s.move.target != some 1) = true := by decide +kernel
    intro s member inside target
    have either := List.all_eq_true.mp apart s member
    rw [target] at either
    simp at either
    exact inside either
  · intro earlier source later split
    obtain _ | ⟨a, _ | ⟨b, _ | ⟨d, rest⟩⟩⟩ := earlier
    · cases split
    · cases split
    · have only : ((Work.storeAll 2 1 threeValues).steps
          ((Work.drain (Host.runCallbacks 2) 1).run
            ((Session.empty .empty).run 2 (balancedActs.take 2)).1.host).1).all (fun s =>
              s.move.target != some 1 || s.stores 1) = true := by decide +kernel
      cases split
      intro s member target
      have either := List.all_eq_true.mp only s member
      rw [target] at either
      simp at either
      exact Step.exists_of_stores either
    · have again : Act.on 1 (.insertAll source) ∈ balancedActs.drop 3 := by
        rw [split]
        simp
      simp [balancedActs] at again

end ReclaimableCache
