import ReclaimableCache.Proofs.Release

/-!
# Accounting for dead entries

A slot whose value is released stays in the table until it is swept out. Meanwhile it is accounted
for: it waits in line, or it is in flight, which means that the cleaner that it went to has not
returned. Operations that release values settle them before they return, so that between the
outermost operations nothing is in flight. Sweeping takes out exactly what waits in line.
-/

namespace ReclaimableCache

variable {K V : Type}

section

variable [DecidableEq K]

/-! ### Sweeping -/

namespace Cache

/-- Sweeping takes out the entries of the given slots and no others. -/
theorem get?_sweepOut {pool : SlotPool K V} (ids : List SlotId) {table : ShardedMap K}
    (keyed : ∀ key id, table.get? key = some id →
      ∃ slot, pool.get? id = some slot ∧ slot.key = key) (key : K) :
    (sweepOut pool ids table).1.get? key = (table.get? key).filter fun id => !ids.contains id := by
  induction ids generalizing table with
  | nil =>
    rw [sweepOut]
    cases table.get? key <;> rfl
  | cons first ids ih =>
    rw [sweepOut]
    cases made : pool.get? first with
    | none =>
      dsimp only
      rw [ih keyed]
      cases bound : table.get? key with
      | none => rfl
      | some id =>
        have other : id ≠ first := by
          rintro rfl
          obtain ⟨slot, found, _⟩ := keyed key id bound
          rw [made] at found
          cases found
        simp [Option.filter, other]
    | some slot =>
      dsimp only
      rw [ih]
      · rw [ShardedMap.get?_eraseIfSame]
        cases bound : table.get? key with
        | none => simp
        | some id =>
          by_cases same : id = first
          · subst same
            obtain ⟨_, found, rfl⟩ := keyed key id bound
            rw [made] at found
            cases found
            simp [bound, Option.filter]
          -- Another slot is installed under the key, so that the sweep leaves it alone.
          · have kept : ¬ (key = slot.key ∧ table.get? slot.key = some first) := by
              rintro ⟨rfl, current⟩
              rw [bound] at current
              exact same (Option.some.inj current)
            simp [kept, Option.filter, same]
      · intro k id bound
        rw [ShardedMap.get?_eraseIfSame] at bound
        split at bound
        · cases bound
        · exact keyed k id bound

/-- A sweep takes out what is queued, and nothing else. -/
theorem Consistent.get?_sweep {c : Cache K V} (consistent : c.Consistent) (key : K) :
    c.sweep.1.table.get? key = (c.table.get? key).filter fun id => !c.pending.contains id :=
  get?_sweepOut c.pending consistent.keyed key

end Cache

/-! ### Dead slots of a cache -/

/-- Whether a move may release values. -/
def Move.releases : Move K V → Bool
  | releaseValues .. | releaseValue .. => true
  | _ => false

/-- Whether a move may release values or puts a slot in line. -/
def Move.shifts : Move K V → Bool
  | enqueue .. => true
  | m => m.releases

omit [DecidableEq K] in
theorem Move.releases_of_shifts {m : Move K V} (stays : m.shifts = false) : m.releases = false := by
  cases m <;> first | rfl | exact stays

namespace Cache

/-- The dead slots of a cache are accounted for: those that wait in line and those in flight are
    dead, none is named twice, and every dead slot that is still installed is one of them. -/
structure Accounts (c : Cache K V) (flight : List SlotId) : Prop where
  nodup : (c.pending ++ flight).Nodup
  dead : ∀ id ∈ c.pending ++ flight, c.pool.isDead id = true
  installed : ∀ key id, c.table.get? key = some id → c.pool.isDead id = true →
    id ∈ c.pending ++ flight

/-- Only a release lets a slot die. -/
theorem isDead_effect (c : Cache K V) {m : Move K V} (board : PressureBoard)
    (stays : m.releases = false) (id : SlotId) :
    (m.effect board c).pool.isDead id = c.pool.isDead id := by
  cases m with
  | releaseValues d budget => cases stays
  | releaseValue d key => cases stays
  | look d key =>
    rw [Move.effect, touch]
    split
    · rfl
    · dsimp only
      split <;> exact (PinQueue.sameValues_pin c.queue c.pool _).isDead id
  | place d key value =>
    apply ((PinQueue.sameValues_pin c.queue (c.pool.add (.fresh key value)) _).isDead id).trans
    rw [SlotPool.isDead, SlotPool.get?_add]
    by_cases new : id = c.pool.nextId
    · rw [if_pos new, SlotPool.isDead_of_le (Nat.le_of_eq new.symm)]
      rfl
    · rw [if_neg new]
      rfl
  | unpinAll d => exact (PinQueue.sameValues_clear c.queue c.pool).isDead id
  | takeOut d key =>
    rw [Move.effect, takeOut]
    split <;> rfl
  | _ => rfl

/-- The queue changes when a slot is queued, and when all are swept out. -/
theorem pending_effect (c : Cache K V) {m : Move K V} (board : PressureBoard)
    (enqueues : ∀ d id, m ≠ .enqueue d id) (sweeps : ∀ d, m ≠ .sweep d) :
    (m.effect board c).pending = c.pending := by
  cases m with
  | enqueue d id => exact absurd rfl (enqueues d id)
  | sweep d => exact absurd rfl (sweeps d)
  | look d key =>
    rw [Move.effect, touch]
    split
    · rfl
    · dsimp only
      split <;> rfl
  | releaseValue d key =>
    rw [Move.effect, releaseValueOf]
    split <;> rfl
  | takeOut d key =>
    rw [Move.effect, takeOut]
    split <;> rfl
  | _ => rfl

variable {c : Cache K V} {flight : List SlotId}

/-- A new cache has nothing to account for. -/
theorem New.accounts {config : Config K V} {board : PressureBoard} (new : New config board c) :
    c.Accounts [] := by
  have nothing : c.pending ++ [] = [] := by rw [new.pending, List.append_nil]
  refine ⟨?_, ?_, ?_⟩
  · rw [nothing]
    exact List.nodup_nil
  · intro id member
    rw [nothing] at member
    cases member
  · intro key id bound _
    rw [new.get?] at bound
    cases bound

/-- What is queued leaves the table, and what is in flight stays there. -/
theorem Accounts.sweep (accounts : c.Accounts flight) (consistent : c.Consistent) :
    c.sweep.1.Accounts flight := by
  have inFlight : c.sweep.1.pending ++ flight = flight := rfl
  refine ⟨?_, ?_, ?_⟩
  · rw [inFlight]
    exact (List.nodup_append.mp accounts.nodup).2.1
  · intro id member
    rw [inFlight] at member
    exact accounts.dead id (List.mem_append_right _ member)
  · intro key id bound dead
    rw [consistent.get?_sweep, Option.filter_eq_some_iff] at bound
    have member := accounts.installed key id bound.1 dead
    rcases List.mem_append.mp member with waits | flies
    · simp [waits] at bound
    · exact flies

/-- A move that neither releases a value nor puts a slot in line leaves the accounts in order. -/
theorem Accounts.effect (accounts : c.Accounts flight) (consistent : c.Consistent) {m : Move K V}
    (board : PressureBoard) (stays : m.shifts = false) : (m.effect board c).Accounts flight := by
  by_cases sweeps : ∃ d, m = .sweep d
  · obtain ⟨d, rfl⟩ := sweeps
    exact accounts.sweep consistent
  · have enqueues : ∀ d id, m ≠ .enqueue d id := by
      rintro d id rfl
      cases stays
    have pending := c.pending_effect board enqueues fun d same => sweeps ⟨d, same⟩
    have dead := c.isDead_effect board (Move.releases_of_shifts stays)
    refine ⟨?_, ?_, ?_⟩
    · rw [pending]
      exact accounts.nodup
    · intro id member
      rw [pending] at member
      rw [dead]
      exact accounts.dead id member
    · intro key id bound isDead
      rw [dead] at isDead
      rw [pending]
      rcases (c.grows_effect m board).entered key id bound with before | new
      · exact accounts.installed key id before isDead
      · rw [SlotPool.isDead_of_le new] at isDead
        cases isDead

/-- Released values are in flight. -/
theorem Accounts.release {d : Cache K V} {victims : List (Victim K V)}
    (accounts : c.Accounts flight) (releases : c.pool.Releases d.pool victims)
    (table : d.table = c.table) (pending : d.pending = c.pending) :
    d.Accounts (victims.map Victim.id ++ flight) := by
  have arrange : ∀ id, id ∈ d.pending ++ (victims.map Victim.id ++ flight) ↔
      id ∈ victims.map Victim.id ∨ id ∈ c.pending ++ flight := by
    intro id
    rw [pending]
    simp only [List.mem_append]
    exact or_left_comm
  refine ⟨?_, ?_, ?_⟩
  · rw [pending]
    have moved : (c.pending ++ (victims.map Victim.id ++ flight)).Perm
        (victims.map Victim.id ++ (c.pending ++ flight)) := by
      rw [← List.append_assoc, ← List.append_assoc]
      exact List.perm_append_comm.append_right flight
    rw [moved.nodup_iff, List.nodup_append]
    refine ⟨releases.nodup, accounts.nodup, ?_⟩
    intro a victim b known same
    obtain ⟨v, member, rfl⟩ := List.mem_map.mp victim
    obtain ⟨slot, found, _, _, live⟩ := releases.were v member
    obtain ⟨other, there, dead⟩ := SlotPool.isDead_iff.mp (accounts.dead b known)
    rw [← same, found] at there
    cases there
    rw [live] at dead
    cases dead
  · intro id member
    rcases (arrange id).mp member with victim | known
    · exact releases.isDead.mpr (Or.inl victim)
    · exact releases.isDead.mpr (Or.inr (accounts.dead id known))
  · intro key id bound dead
    rw [table] at bound
    rcases releases.isDead.mp dead with victim | before
    · exact (arrange id).mpr (Or.inl victim)
    · exact (arrange id).mpr (Or.inr (accounts.installed key id bound before))

/-- A slot in flight is put in line. -/
theorem Accounts.enqueue {id : SlotId} (accounts : c.Accounts (id :: flight)) :
    (c.enqueue id).Accounts flight := by
  have same : (c.enqueue id).pending ++ flight = c.pending ++ (id :: flight) := by
    rw [Cache.enqueue, List.append_assoc, List.singleton_append]
  exact ⟨same ▸ accounts.nodup, fun k member => accounts.dead k (same ▸ member),
    fun key k bound dead => same ▸ accounts.installed key k bound dead⟩

end Cache

/-! ### Dead slots of a host -/

/-- The slots in flight, by cache. -/
abbrev Flight := CacheId → List SlotId

/-- What is in flight with more slots of one cache. -/
def Flight.with (flight : Flight) (c : CacheId) (ids : List SlotId) : Flight :=
  fun d => if d = c then ids ++ flight d else flight d

theorem Flight.with_nil (flight : Flight) (c : CacheId) : flight.with c [] = flight := by
  funext d
  unfold Flight.with
  split <;> rfl

/-- Slots may be put in flight one by one. -/
theorem Flight.with_cons (flight : Flight) (c : CacheId) (id : SlotId) (ids : List SlotId) :
    flight.with c (id :: ids) = (flight.with c ids).with c [id] := by
  funext d
  by_cases same : d = c <;> simp [Flight.with, same]

namespace Host

/-- The dead slots of every cache are accounted for. -/
structure Accounts (h : Host K V) (flight : Flight) : Prop where
  present : ∀ d cache, h.cache? d = some cache → cache.Accounts (flight d)
  absent : ∀ d, h.cache? d = none → flight d = []

theorem accounts_empty (board : PressureBoard) :
    (empty board : Host K V).Accounts fun _ => [] := by
  refine ⟨fun d cache found => ?_, fun _ _ => rfl⟩
  simp [empty, cache?] at found

variable {h : Host K V} {flight : Flight}

/-- What is to be shown of a move that changes what is in flight. -/
theorem Accounts.of_effect {m : Move K V} {later : Flight} (accounts : h.Accounts flight)
    (noBuild : ∀ config, m ≠ .build config)
    (present : ∀ d cache, h.cache? d = some cache → (m.effectOn h.board d cache).Accounts (later d))
    (absent : ∀ d, h.cache? d = none → flight d = [] → later d = []) :
    (m.make h).1.Accounts later := by
  refine ⟨?_, ?_⟩
  · intro d cache found
    rw [Move.cache?_make m h d noBuild, Option.map_eq_some_iff] at found
    obtain ⟨old, there, rfl⟩ := found
    exact present d old there
  · intro d none
    rw [Move.cache?_make m h d noBuild, Option.map_eq_none_iff] at none
    exact absent d none (accounts.absent d none)

/-- A move that neither releases nor queues leaves what is in flight. -/
theorem Accounts.make (accounts : h.Accounts flight) (consistent : h.Consistent) {m : Move K V}
    (stays : m.shifts = false) : (m.make h).1.Accounts flight := by
  refine ⟨?_, ?_⟩
  · intro d cache found
    rcases Move.exists_of_cache?_make m found with ⟨old, there, rfl⟩ | ⟨none, config, _, _, made⟩
    · unfold Move.effectOn
      split
      · exact (accounts.present d old there).effect (consistent d old there) h.board stays
      · exact accounts.present d old there
    · rw [accounts.absent d none]
      exact (Cache.new_assemble made).accounts
  · intro d none
    cases found : h.cache? d with
    | none => exact accounts.absent d found
    | some old =>
      rw [Move.cache?_make_of_some found] at none
      cases none

/-- What a pass releases is in flight until it is queued. -/
theorem Accounts.releaseValues (accounts : h.Accounts flight) (c : CacheId) (budget : Nat) :
    ((Move.releaseValues c budget).make h).1.Accounts
      (flight.with c (((Move.releaseValues c budget).make h).2.map Victim.id)) := by
  refine accounts.of_effect (fun _ same => by cases same) (fun d cache found => ?_)
    fun d none empty => ?_
  · by_cases same : d = c
    · subst same
      simp only [Move.effectOn, Move.target, if_true, Flight.with, Move.make, onCache, found]
      exact (accounts.present d cache found).release (cache.releases_releaseValues budget) rfl rfl
    · simp only [Move.effectOn, Move.target, Flight.with, if_neg same, Option.some.injEq,
        if_neg (Ne.symm same)]
      exact accounts.present d cache found
  · by_cases same : d = c
    · subst same
      simp [Flight.with, Move.make, onCache, none, empty]
    · simp [Flight.with, same, empty]

theorem Accounts.releaseValue (accounts : h.Accounts flight) (c : CacheId) (key : K) :
    ((Move.releaseValue c key).make h).1.Accounts
      (flight.with c (((Move.releaseValue c key).make h).2.toList.map Victim.id)) := by
  refine accounts.of_effect (fun _ same => by cases same) (fun d cache found => ?_)
    fun d none empty => ?_
  · by_cases same : d = c
    · subst same
      simp only [Move.effectOn, Move.target, if_true, Flight.with, Move.make, onCache, found]
      refine (accounts.present d cache found).release (cache.releases_releaseValueOf key) ?_ ?_
      · simp only [Move.effect, Cache.releaseValueOf]
        split <;> rfl
      · simp only [Move.effect, Cache.releaseValueOf]
        split <;> rfl
    · simp only [Move.effectOn, Move.target, Flight.with, if_neg same, Option.some.injEq,
        if_neg (Ne.symm same)]
      exact accounts.present d cache found
  · by_cases same : d = c
    · subst same
      simp [Flight.with, Move.make, onCache, none, empty]
    · simp [Flight.with, same, empty]

theorem Accounts.enqueue {c : CacheId} {id : SlotId}
    (accounts : h.Accounts (flight.with c [id])) :
    ((Move.enqueue c id).make h).1.Accounts flight := by
  refine accounts.of_effect (fun _ same => by cases same) (fun d cache found => ?_)
    fun d _ empty => ?_
  · have before := accounts.present d cache found
    by_cases same : d = c
    · subst same
      simp only [Flight.with, if_true] at before
      simp only [Move.effectOn, Move.target, if_true]
      exact before.enqueue
    · simp only [Flight.with, if_neg same] at before
      simp only [Move.effectOn, Move.target, Option.some.injEq, if_neg (Ne.symm same)]
      exact before
  · rw [Flight.with] at empty
    split at empty
    · cases empty
    · exact empty

end Host

/-! ### Dead slots in the course of work -/

namespace Work

/-- What is in flight before some work and, by its result, after it; meanwhile all dead slots are
    accounted for in one way or another. -/
def Carries {α : Type} (w : Work K V α) (before : Flight) (after : α → Flight) : Prop :=
  ∀ h : Host K V, h.Consistent → h.Accounts before →
    (w.run h).1.Accounts (after (w.run h).2) ∧ ∀ s ∈ w.steps h, ∃ flight, s.before.Accounts flight

/-- Work settles if it leaves nothing in flight that was not in flight before. -/
def Settles {α : Type} (w : Work K V α) : Prop :=
  ∀ flight, w.Carries flight fun _ => flight

variable {α β : Type} {flight : Flight}

theorem settles_pure (a : α) : (pure a : Work K V α).Settles := fun _ _ _ accounts =>
  ⟨accounts, by simp⟩

/-- What one part leaves in flight the next one takes over. -/
theorem Carries.bind {w : Work K V α} {f : α → Work K V β} {before : Flight}
    {between : α → Flight} {after : β → Flight} (first : w.Carries before between)
    (second : ∀ a, (f a).Carries (between a) after) : (w >>= f).Carries before after := by
  intro h consistent accounts
  have done := first h consistent accounts
  have rest := second (w.run h).2 (w.run h).1 (consistent.work w).2 done.1
  rw [run_bind, steps_bind]
  refine ⟨rest.1, fun s member => ?_⟩
  rcases List.mem_append.mp member with member | member
  · exact done.2 s member
  · exact rest.2 s member

/-- A move is judged by the accounts before and after it. -/
theorem carries_make {m : Move K V} {after : m.Result → Flight}
    (accounts : ∀ h : Host K V, h.Consistent → h.Accounts flight →
      (m.make h).1.Accounts (after (m.make h).2)) : (make m).Carries flight after := by
  intro h consistent before
  refine ⟨accounts h consistent before, fun s member => ?_⟩
  rw [steps_make, List.mem_singleton] at member
  exact ⟨flight, member ▸ before⟩

theorem carries_releaseValues (c : CacheId) (budget : Nat) (flight : Flight) :
    (make (.releaseValues c budget) : Work K V _).Carries flight
      fun victims => flight.with c (victims.map Victim.id) :=
  carries_make fun _ _ accounts => accounts.releaseValues c budget

theorem carries_releaseValue (c : CacheId) (key : K) (flight : Flight) :
    (make (.releaseValue c key) : Work K V _).Carries flight
      fun victim => flight.with c (victim.toList.map Victim.id) :=
  carries_make fun _ _ accounts => accounts.releaseValue c key

theorem carries_enqueue (c : CacheId) (id : SlotId) (flight : Flight) :
    (make (.enqueue c id) : Work K V _).Carries (flight.with c [id]) fun _ => flight :=
  carries_make fun _ _ accounts => accounts.enqueue

theorem settles_make (m : Move K V) (stays : m.shifts = false) : (make m).Settles := fun _ =>
  carries_make fun _ consistent accounts => accounts.make consistent stays

theorem Settles.bind {w : Work K V α} {f : α → Work K V β} (first : w.Settles)
    (second : ∀ a, (f a).Settles) : (w >>= f).Settles := fun flight =>
  (first flight).bind fun a => second a flight

section

variable {run : CallbackRunner K V} (callbacks : ∀ r, (run r).Settles)

include callbacks

/-- A call of a cleaner settles what its callbacks release, and leaves the value in flight. -/
theorem settles_clean (c : CacheId) (victim : Victim K V) : (clean run c victim).Settles := by
  apply Settles.bind (settles_make .view rfl)
  intro h
  cases (h.cache? c).bind Cache.cleaner with
  | none => exact settles_pure _
  | some cleaner =>
    apply Settles.bind (settles_make (.enterCleaner c victim) rfl)
    intro call
    exact (callbacks _).bind fun replies => settles_make _ rfl

/-- The cleaners of a pass settle its victims one after the other. -/
theorem carries_cleanAll (c : CacheId) (victims : List (Victim K V)) (flight : Flight) :
    (cleanAll run c victims).Carries (flight.with c (victims.map Victim.id)) fun _ => flight := by
  induction victims with
  | nil =>
    rw [List.map_nil, Flight.with_nil]
    exact settles_pure _ _
  | cons victim victims ih =>
    rw [List.map_cons, Flight.with_cons]
    apply Carries.bind (settles_clean callbacks c victim _)
    intro disposal
    apply Carries.bind (carries_enqueue c victim.id _)
    intro _
    exact ih.bind fun failures => settles_pure _ _

/-- A pass queues all that it released. -/
theorem settles_evict (c : CacheId) (budget : Nat) : (evict run c budget).Settles := by
  intro flight
  apply Carries.bind (carries_releaseValues c budget flight)
  intro victims
  apply (carries_cleanAll callbacks c victims flight).bind
  intro failures
  exact Settles.bind (settles_make (.closePass c victims.length failures) rfl)
    (fun _ => settles_pure _) flight

/-- So does a reclaim with its value. -/
theorem settles_reclaim (c : CacheId) (key : K) : (reclaim run c key).Settles := by
  intro flight
  apply Carries.bind (carries_releaseValue c key flight)
  intro victim
  cases victim with
  | none =>
    rw [Option.toList_none, List.map_nil, Flight.with_nil]
    exact settles_pure _ _
  | some victim =>
    apply Carries.bind (settles_clean callbacks c victim _)
    intro disposal
    apply Carries.bind (settles_make (.countReclaim c (disposal = .failed)) rfl _)
    intro _
    exact Carries.bind (carries_enqueue c victim.id flight) fun _ => settles_pure _ _

end

/-- All work that is done on a host settles. -/
theorem inherited_settles : Inherited fun _ (w : Work K V _) => w.Settles := by
  refine inherited_of_moves settles_pure (fun first second => first.bind second)
    (fun m steady => settles_make m ?_) (fun _ _ _ => settles_make _ rfl) settles_evict
    settles_reclaim
  cases m <;> first | rfl | cases steady

end Work

end

end ReclaimableCache
