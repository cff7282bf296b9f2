import ReclaimableCache.Proofs.Pass

/-!
# Caches at rest

A cache is at rest if none of its values is with a cleaner and nothing in it waits to be swept out.
As long as its own cleaner is quiet, nothing is in flight in it except in the midst of its passes and
reclaims, in which nothing looks into it, whatever the cleaners of other caches do. So each look-up
and each question to the policy, on whatever level of nesting, meets it at rest.
-/

namespace ReclaimableCache

variable {K V α β : Type}

section

variable [DecidableEq K]

namespace Host

/-- None of the values of a cache is with a cleaner. -/
def Calm (h : Host K V) (c : CacheId) : Prop :=
  ∀ cache, h.cache? c = some cache → cache.Accounts []

/-- Neither is a value of a cache with a cleaner nor does anything in the cache wait. -/
structure Rests (h : Host K V) (c : CacheId) : Prop where
  calm : h.Calm c
  swept : h.Swept c

omit [DecidableEq K] in
/-- If there is a cache, its cleaner is quiet. -/
def QuietAt (h : Host K V) (c : CacheId) : Prop := ∀ cache, h.cache? c = some cache → cache.Quiet

variable {h : Host K V} {c : CacheId}

/-- A cleaner that is quiet was so from the start. -/
theorem QuietAt.before {w : Work K V α} (quiet : (w.run h).1.QuietAt c) : h.QuietAt c := by
  intro cache found
  obtain ⟨later, there, grows⟩ := h.grows_run w c cache found
  have still := quiet later there
  rwa [Cache.Quiet, grows.cleaner] at still

/-- A cache stays calm unless a value is released or queued. -/
theorem Calm.make (calm : h.Calm c) (consistent : h.Consistent) {m : Move K V}
    (stays : m.target = some c → m.shifts = false) : (m.make h).1.Calm c := by
  intro cache found
  rcases Move.exists_of_cache?_make m found with ⟨old, there, rfl⟩ | ⟨_, config, _, _, made⟩
  · unfold Move.effectOn
    split
    · rename_i here
      exact (calm old there).effect (consistent c old there) h.board (stays here)
    · exact calm old there
  · exact (Cache.new_assemble made).accounts

end Host

namespace Work

/-! ### Reclaims with a quiet cleaner -/

section

variable {h : Host K V} {c : CacheId} {cache : Cache K V} (found : h.cache? c = some cache)
  (quiet : cache.Quiet) (limit : Nat) (key : K)

include found

/-- What is released is a matter of the cache alone. -/
theorem make_releaseValue :
    ((Move.releaseValue c key).make h).2 = (cache.releaseValueOf key).2 ∧
      ((Move.releaseValue c key).make h).1.cache? c = some (cache.releaseValueOf key).1 := by
  refine ⟨?_, Move.cache?_make_of_target found rfl⟩
  simp only [Move.make, Host.onCache, found]

include quiet

/-- The slot whose value it released waits when a reclaim is over. -/
theorem accounts_reclaim (accounts : cache.Accounts []) {later : Cache K V}
    (ends : ((reclaim (Host.runCallbacks limit) c key).run h).1.cache? c = some later) :
    later.Accounts [] := by
  obtain ⟨victim, released⟩ := make_releaseValue found key
  have shape : (cache.releaseValueOf key).1.table = cache.table ∧
      (cache.releaseValueOf key).1.pending = cache.pending := by
    rw [Cache.releaseValueOf]
    split <;> exact ⟨rfl, rfl⟩
  have flies := accounts.release (cache.releases_releaseValueOf key) shape.1 shape.2
  have still : (cache.releaseValueOf key).1.Quiet := by
    rw [Cache.Quiet, (cache.grows_releaseValueOf key).cleaner]
    exact quiet
  rw [reclaim, run_bind, run_make, victim] at ends
  cases taken : (cache.releaseValueOf key).2 with
  | none =>
    rw [taken] at ends flies
    rw [run_pure, released, Option.some.injEq] at ends
    exact ends ▸ flies
  | some v =>
    rw [taken] at ends flies
    have cleaned := (cache?_clean released still limit v c).trans released
    dsimp only at ends
    rw [run_bind] at ends
    generalize ((clean (Host.runCallbacks limit) c v).run _) = disposed at cleaned ends
    have counted := Move.cache?_make_of_target cleaned
      (m := .countReclaim c (disposed.2 = .failed)) rfl
    have queued := Move.cache?_make_of_target counted (m := .enqueue c v.id) rfl
    rw [run_bind, run_make, run_bind, run_make, run_pure, queued, Option.some.injEq] at ends
    have tallied : ((cache.releaseValueOf key).1.countReclaim (disposed.2 = .failed)).Accounts
        [v.id] := ⟨flies.nodup, flies.dead, flies.installed⟩
    exact ends ▸ tallied.enqueue

/-- With a quiet cleaner a reclaim does nothing but dispose of its value. -/
theorem mem_steps_reclaim {s : Step K V}
    (member : s ∈ (reclaim (Host.runCallbacks limit) c key).steps h) :
    s.move.ofRelease = true := by
  obtain ⟨victim, released⟩ := make_releaseValue found key
  have still : (cache.releaseValueOf key).1.Quiet := by
    rw [Cache.Quiet, (cache.grows_releaseValueOf key).cleaner]
    exact quiet
  rw [reclaim, steps_bind, run_make, victim, List.mem_append] at member
  rcases member with member | member
  · exact List.mem_singleton.mp member ▸ rfl
  · cases taken : (cache.releaseValueOf key).2 with
    | none =>
      rw [taken, steps_pure] at member
      cases member
    | some v =>
      rw [taken] at member
      dsimp only at member
      rw [steps_bind, steps_bind, steps_bind, steps_pure] at member
      simp only [List.append_nil, List.mem_append] at member
      rcases member with member | member | member
      · exact Move.ofRelease_of_dull
          (mem_steps_clean released (still.callsBack limit) (fun _ => rfl) v member)
      · exact List.mem_singleton.mp member ▸ rfl
      · exact List.mem_singleton.mp member ▸ rfl

end

/-- As long as the cleaner of a cache is quiet, work that begins with none of its values in flight ends
    so, and looks into the cache and asks its policy only while it is at rest. -/
def Restful (c : CacheId) (w : Work K V α) : Prop :=
  ∀ h : Host K V, h.Consistent → h.Calm c → (w.run h).1.QuietAt c →
    (w.run h).1.Calm c ∧ ∀ s ∈ w.steps h, s.move.asks = some c → s.before.Rests c

variable {c : CacheId}

theorem restful_pure (a : α) : (pure a : Work K V α).Restful c :=
  fun _ _ calm _ => ⟨calm, fun s member => by simp at member⟩

/-- A cleaner that is quiet at the end was quiet in between. -/
theorem Restful.bind {w : Work K V α} {f : α → Work K V β} (first : w.Restful c)
    (second : ∀ a, (f a).Restful c) : (w >>= f).Restful c := by
  intro h consistent calm quiet
  rw [run_bind] at quiet ⊢
  obtain ⟨calmed, asked⟩ := first h consistent calm quiet.before
  obtain ⟨last, more⟩ := second _ _ (consistent.work w).2 calmed quiet
  refine ⟨last, fun s member asks => ?_⟩
  rw [steps_bind] at member
  rcases List.mem_append.mp member with member | member
  · exact asked s member asks
  · exact more s member asks

/-- A move that neither asks the policy nor releases or queues anything may come at any time. -/
theorem restful_make {m : Move K V} (stays : m.target = some c → m.shifts = false)
    (idle : m.asks ≠ some c) : (make m).Restful c := by
  intro h consistent calm _
  rw [run_make, steps_make]
  refine ⟨calm.make consistent stays, fun s member asks => ?_⟩
  rw [List.mem_singleton] at member
  rw [member] at asks
  exact absurd asks idle

/-- What is done to another cache does not matter. -/
theorem restful_away {m : Move K V} (away : m.target ≠ some c) : (make m).Restful c :=
  restful_make (fun here => absurd here away)
    fun asks => away (Move.target_of_uses (Move.uses_of_asks asks))

theorem sequenced_restful : Sequenced fun _ (w : Work K V _) => w.Restful c :=
  ⟨restful_pure, fun first second => first.bind second, restful_away (m := .view) nofun⟩

/-! ### Passes and reclaims -/

section

variable {limit : Nat} (callbacks : ∀ r : Routine K V Unit, (Host.runCallbacks limit r).Restful c)

include callbacks

/-- A call of the cleaner of another cache leaves this one calm. -/
theorem restful_clean (d : CacheId) (victim : Victim K V) :
    (clean (Host.runCallbacks limit) d victim).Restful c := by
  refine sequenced_restful.coupled.clean (Host.runCallbacks limit) (Host.runCallbacks limit)
    sequenced_restful.view (fun cleaner d v => ?_) d victim
  apply Restful.bind (restful_away (m := .enterCleaner d v) nofun)
  intro call
  apply (callbacks (cleaner.callbacks call)).bind
  intro replies
  exact restful_away (m := .leaveCleaner call replies (cleaner.verdict call)) nofun

section

variable {d : CacheId} (other : d ≠ c)

include other

theorem restful_cleanAll_other (victims : List (Victim K V)) :
    (cleanAll (Host.runCallbacks limit) d victims).Restful c := by
  have away : some d ≠ some c := fun same => other (Option.some.inj same)
  induction victims with
  | nil => exact restful_pure 0
  | cons victim victims ih =>
    apply (restful_clean callbacks d victim).bind
    intro disposal
    apply Restful.bind (restful_away (m := .enqueue d victim.id) away)
    intro _
    exact ih.bind fun failures => restful_pure _

/-- So does a pass over another cache. -/
theorem restful_evict_other (budget : Nat) :
    (evict (Host.runCallbacks limit) d budget : Work K V Nat).Restful c := by
  have away : some d ≠ some c := fun same => other (Option.some.inj same)
  apply Restful.bind (restful_away (m := .releaseValues d budget) away)
  intro victims
  apply (restful_cleanAll_other callbacks other victims).bind
  intro failures
  apply Restful.bind (restful_away (m := .closePass d victims.length failures) away)
  exact fun _ => restful_pure _

theorem restful_reclaim_other (key : K) :
    (reclaim (Host.runCallbacks limit) d key : Work K V Bool).Restful c := by
  have away : some d ≠ some c := fun same => other (Option.some.inj same)
  apply Restful.bind (restful_away (m := .releaseValue d key) away)
  intro released
  cases released with
  | none => exact restful_pure _
  | some victim =>
    apply (restful_clean callbacks d victim).bind
    intro disposal
    apply Restful.bind (restful_away (m := .countReclaim d (disposal = .failed)) away)
    intro _
    apply Restful.bind (restful_away (m := .enqueue d victim.id) away)
    exact fun _ => restful_pure _

end

/-- A pass with a quiet cleaner puts all that it released in line, and looks at nothing. -/
theorem restful_evict (d : CacheId) (budget : Nat) :
    (evict (Host.runCallbacks limit) d budget : Work K V Nat).Restful c := by
  by_cases other : d ≠ c
  · exact restful_evict_other callbacks other budget
  · obtain rfl := not_not.mp other
    intro h consistent calm quiet
    cases found : h.cache? d with
    | none =>
      obtain ⟨ran, made⟩ := evict_of_absent found (Host.runCallbacks limit) budget
      rw [ran, made]
      refine ⟨calm, fun s member asks => ?_⟩
      rcases List.mem_pair.mp member with rfl | rfl <;> cases asks
    | some cache =>
      have quiet := quiet.before cache found
      refine ⟨fun later there => ?_, fun s member asks => ?_⟩
      · rw [(evict_quiet found quiet limit budget).2.2.1, Option.some.injEq] at there
        exact there ▸ (calm cache found).passed budget _
      · rw [Move.asks_of_ofRelease (mem_steps_evict found quiet limit budget member)] at asks
        cases asks

/-- A reclaim with a quiet cleaner puts the slot in line whose value it released. -/
theorem restful_reclaim (d : CacheId) (key : K) :
    (reclaim (Host.runCallbacks limit) d key : Work K V Bool).Restful c := by
  by_cases other : d ≠ c
  · exact restful_reclaim_other callbacks other key
  · obtain rfl := not_not.mp other
    intro h consistent calm quiet
    cases found : h.cache? d with
    | none =>
      have nothing : (Move.releaseValue d key).make h = (h, none) := by
        simp only [Move.make, Host.onCache, found]
      rw [reclaim, run_bind, steps_bind, run_make, nothing]
      refine ⟨calm, fun s member asks => ?_⟩
      obtain rfl := List.mem_singleton.mp member
      cases asks
    | some cache =>
      have quiet := quiet.before cache found
      refine ⟨fun later there => ?_, fun s member asks => ?_⟩
      · exact accounts_reclaim found quiet limit key (calm cache found) there
      · rw [Move.asks_of_ofRelease (mem_steps_reclaim found quiet limit key member)] at asks
        cases asks

end

/-! ### Drains -/

section

variable {limit : Nat} (callbacks : ∀ r : Routine K V Unit, (Host.runCallbacks limit r).Restful c)

include callbacks

theorem restful_spend (d : CacheId) (budget : Nat) :
    (spend (Host.runCallbacks limit) d budget : Work K V Unit).Restful c := by
  rw [spend]
  split
  · exact restful_pure ()
  · apply (restful_evict callbacks d budget).bind
    intro released
    split
    · exact restful_pure ()
    · exact restful_make (m := .sweep d) (fun _ => rfl) fun asks => by cases asks

/-- A drain asks the policy when nothing is in flight, and its pass ends so. -/
theorem restful_drain (d : CacheId) :
    (drain (Host.runCallbacks limit) d : Work K V Unit).Restful c := by
  intro h consistent calm quiet
  have swept := h.swept_sweep d
  have first := calm.make consistent (m := .sweep d) fun _ => rfl
  have asked := first.make (consistent.make _) (m := .consult d) fun _ => rfl
  rw [drain_eq_spend, run_bind, run_make, run_bind, run_make] at quiet ⊢
  rw [steps_bind, run_make, steps_make, steps_bind, run_make, steps_make]
  obtain ⟨last, more⟩ := restful_spend callbacks d _ _ ((consistent.make _).make _) asked quiet
  refine ⟨last, fun s member asks => ?_⟩
  simp only [List.mem_append, List.mem_singleton] at member
  rcases member with rfl | rfl | member
  · cases asks
  · cases asks
    exact ⟨first, swept⟩
  · exact more s member asks

/-- A look-up right after a drain meets a cache at rest. -/
theorem restful_get (d : CacheId) (key : K) :
    (get (Host.runCallbacks limit) d key : Work K V (Option V)).Restful c := by
  intro h consistent calm quiet
  rw [get, run_bind] at quiet
  obtain ⟨drained, asked⟩ := restful_drain callbacks d h consistent calm quiet.before
  rw [run_get, get, steps_bind, steps_make]
  refine ⟨drained.make (consistent.work _).2 fun _ => rfl, fun s member asks => ?_⟩
  simp only [List.mem_append, List.mem_singleton] at member
  rcases member with member | rfl
  · exact asked s member asks
  · cases asks
    exact ⟨drained, swept_drain _ _ h⟩

theorem restful_insert (d : CacheId) (key : K) (value : V) :
    (insert (Host.runCallbacks limit) d key value).Restful c :=
  (restful_drain callbacks d).bind fun _ => restful_make (fun _ => rfl) nofun

theorem restful_insertShared (d : CacheId) (key : K) (value : V) :
    (insertShared limit d key value).Restful c := by
  apply (restful_drain callbacks d).bind
  intro _
  apply sequenced_restful.bind sequenced_restful.view
  intro before
  apply Restful.bind (restful_make (m := .place d key value) (fun _ => rfl) nofun)
  intro previous
  apply sequenced_restful.bind sequenced_restful.view
  exact fun after => restful_pure _

theorem restful_remove (d : CacheId) (key : K) :
    (remove (Host.runCallbacks limit) d key : Work K V (Option V)).Restful c :=
  (restful_drain callbacks d).bind fun _ => restful_make (fun _ => rfl) nofun

theorem restful_releaseUnpinned (d : CacheId) :
    (releaseUnpinned (Host.runCallbacks limit) d : Work K V Nat).Restful c := by
  apply (restful_evict callbacks d _).bind
  intro released
  apply Restful.bind (restful_make (m := .sweep d) (fun _ => rfl) nofun)
  exact fun _ => restful_pure released

omit callbacks in
/-- A clear asks no policy. -/
theorem restful_clear (d : CacheId) : (clear d : Work K V Unit).Restful c := by
  apply Restful.bind (restful_make (m := .unpinAll d) (fun _ => rfl) nofun)
  intro _
  apply Restful.bind (restful_make (m := .sweep d) (fun _ => rfl) nofun)
  exact fun _ => restful_make (m := .dropEntries d) (fun _ => rfl) nofun

theorem restful_requests : Requests (fun α (w : Work K V α) _ => w.Restful c)
    (Host.runCallbacks limit) (Host.runCallbacks limit) :=
  ⟨restful_drain callbacks, restful_get callbacks, restful_remove callbacks, restful_releaseUnpinned callbacks,
    restful_clear, fun signal => restful_away (m := .raise signal) nofun⟩

/-- Each request is served in this way. -/
theorem restful_serve (d : CacheId) (request : Request K V) :
    (Host.serve limit d request).Restful c := by
  have changes : Changes (fun α (w : Work K V α) _ => w.Restful c) (Host.runCallbacks limit)
      (Host.runCallbacks limit) d request :=
    ⟨fun _ => restful_insert callbacks d, fun key value _ => restful_make (fun _ => rfl) nofun,
      fun key age _ id => restful_make (fun _ => rfl) nofun,
      fun key _ => restful_reclaim callbacks d key⟩
  exact sequenced_restful.coupled.perform (restful_requests callbacks) changes fun reply =>
    restful_away nofun

end

theorem restful_runCallbacks (limit : Nat) (r : Routine K V Unit) :
    (Host.runCallbacks limit r).Restful c :=
  sequenced_restful.runCallbacks (fun _ callbacks => restful_serve callbacks) limit r

theorem paired_restful (limit : Nat) :
    Paired (fun α (w : Work K V α) _ => w.Restful c) limit limit :=
  ⟨restful_serve (restful_runCallbacks limit), restful_get (restful_runCallbacks limit),
    restful_insert (restful_runCallbacks limit), restful_insertShared (restful_runCallbacks limit)⟩

theorem restful_insertAll (limit : Nat) (d : CacheId)
    (source : List (Routine K V (Except Panic (K × V)))) : (insertAll limit d source).Restful c := by
  apply (restful_drain (restful_runCallbacks limit) d).bind
  intro _
  exact sequenced_restful.storeAll (paired_restful limit).serve
    (fun key value => restful_make (fun _ => rfl) nofun) source

/-- Whatever is done from the outside. -/
theorem restful_workAll [BEq V] (limit : Nat) (cursors : Cursors K) (acts : List (Act K V)) :
    (Act.workAll limit cursors acts).Restful c := by
  apply sequenced_restful.workAll (paired_restful limit)
  · exact fun config => restful_away (m := .build config) nofun
  · exact restful_insertAll limit
  · exact fun d key id => restful_make (fun _ => rfl) nofun

end Work

namespace Session

variable [BEq V] {limit : Nat} {board : PressureBoard} {acts : List (Act K V)} {c : CacheId}

/-- Whatever is asked of a cache whose cleaner is quiet meets it at rest. -/
theorem rests_of_asks (quiet : ((empty board).run limit acts).1.host.QuietAt c) {s : Step K V}
    (member : s ∈ (empty board).history limit acts) (asks : s.move.asks = some c) :
    s.before.Rests c := by
  have calm : (Host.empty board : Host K V).Calm c := by
    intro cache found
    simp [Host.empty, Host.cache?] at found
  have restful := Work.restful_workAll (c := c) limit ([] : Cursors K) acts
  exact (restful _ (Host.consistent_empty board) calm quiet).2 s member asks

end Session

end

end ReclaimableCache
