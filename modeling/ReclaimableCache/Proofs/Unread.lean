import ReclaimableCache.Proofs.Work

/-!
# The journal is not read

Moves add to the journal, and none depends on what is in it. So whatever is done gives the same on
hosts that differ in their journals only, and leaves them so.
-/

namespace ReclaimableCache

variable {K V α β : Type}

/-- A session whose host has another journal. -/
def Session.withJournal (s : Session K V) (j : Journal K V) : Session K V :=
  { s with host := s.host.withJournal j }

/-! ### Moves -/

namespace Host

variable (h : Host K V) (j : Journal K V)

/-- What is done to a cache does not touch the journal. -/
theorem onCache_withJournal (c : CacheId) (otherwise : α) (f : Cache K V → Cache K V × α) :
    (h.withJournal j).onCache c otherwise f =
      ((h.onCache c otherwise f).1.withJournal j, (h.onCache c otherwise f).2) := by
  have same : (h.withJournal j).cache? c = h.cache? c := rfl
  rw [onCache, onCache, same]
  cases h.cache? c <;> rfl

theorem modifyCache_withJournal (c : CacheId) (f : Cache K V → Cache K V) :
    (h.withJournal j).modifyCache c f = (h.modifyCache c f).withJournal j := by
  have same : (h.withJournal j).cache? c = h.cache? c := rfl
  rw [modifyCache, modifyCache, same]
  cases h.cache? c <;> rfl

end Host

variable [DecidableEq K]

/-- A move that does not look at everything does the same, whatever is in the journal. -/
theorem Move.make_withJournal {m : Move K V} (blind : m ≠ .view) (h : Host K V) (j : Journal K V) :
    ∃ k, m.make (h.withJournal j) = ((m.make h).1.withJournal k, (m.make h).2) := by
  have same : ∀ c, (h.withJournal j).cache? c = h.cache? c := fun _ => rfl
  cases m with
  | view => exact absurd rfl blind
  | raise signal => exact ⟨j, rfl⟩
  | enterCleaner c victim => exact ⟨j, rfl⟩
  | noteServed c request reply => exact ⟨j.add (.served c request reply), rfl⟩
  | releaseValues c budget => exact ⟨j, h.onCache_withJournal j c _ _⟩
  | releaseValue c key => exact ⟨j, h.onCache_withJournal j c _ _⟩
  | takeOut c key => exact ⟨j, h.onCache_withJournal j c _ _⟩
  | takeOutSlot c key slot => exact ⟨j, h.onCache_withJournal j c _ _⟩
  | enqueue c slot => exact ⟨j, Prod.ext (h.modifyCache_withJournal j c _) rfl⟩
  | countReclaim c failed => exact ⟨j, Prod.ext (h.modifyCache_withJournal j c _) rfl⟩
  | unpinAll c => exact ⟨j, Prod.ext (h.modifyCache_withJournal j c _) rfl⟩
  | leaveCleaner call replies verdict => cases verdict <;> exact ⟨_, rfl⟩
  | build config =>
    rw [make, make, Host.build_eq, Host.build_eq]
    cases config.check with
    | error e => exact ⟨j, rfl⟩
    | ok checked =>
      have board : (h.withJournal j).board = h.board := rfl
      dsimp only
      rw [board]
      cases config.assemble h.board <;> exact ⟨_, rfl⟩
  | sweep c =>
    rw [make, make, Host.sweep, Host.sweep, h.onCache_withJournal j c]
    dsimp only
    split <;> exact ⟨_, rfl⟩
  | consult c =>
    have board : (h.withJournal j).board = h.board := rfl
    rw [make, make, Host.consult, Host.consult, same, board]
    cases h.cache? c with
    | none => exact ⟨j, rfl⟩
    | some cache =>
      dsimp only
      split <;> exact ⟨_, rfl⟩
  | closePass c released failures =>
    rw [make, make, Host.closePass, Host.closePass]
    dsimp only
    split
    · exact ⟨_, Prod.ext (h.modifyCache_withJournal j c _) rfl⟩
    · exact ⟨_, Prod.ext (Host.modifyCache_withJournal (h.log _) (j.add _) c _) rfl⟩
  | look c key =>
    rw [make, make, Host.look, Host.look, same]
    cases h.cache? c with
    | none => exact ⟨j, rfl⟩
    | some cache =>
      dsimp only
      cases cache.table.get? key with
      | none => exact ⟨j, rfl⟩
      | some id =>
        dsimp only
        split <;> exact ⟨_, rfl⟩
  | place c key value =>
    rw [make, make, Host.place, Host.place, same]
    cases h.cache? c <;> exact ⟨_, rfl⟩
  | dropEntries c =>
    rw [make, make, Host.dropEntries, Host.dropEntries, same]
    cases h.cache? c <;> exact ⟨_, rfl⟩

namespace Work

/-! ### Work -/

/-- The second piece of work does what the first one does, whatever is in the journal. -/
def Unread (w x : Work K V α) : Prop :=
  ∀ (h : Host K V) (j : Journal K V),
    ∃ k, x.run (h.withJournal j) = ((w.run h).1.withJournal k, (w.run h).2)

theorem unread_pure (a : α) : Unread (pure a : Work K V α) (pure a) := fun _ j => ⟨j, rfl⟩

/-- The rest is done to a host with yet another journal. -/
theorem Unread.bind {w x : Work K V α} {f g : α → Work K V β} (first : Unread w x)
    (second : ∀ a, Unread (f a) (g a)) : Unread (w >>= f) (x >>= g) := by
  intro h j
  obtain ⟨between, ran⟩ := first h j
  obtain ⟨last, ends⟩ := second (w.run h).2 (w.run h).1 between
  refine ⟨last, ?_⟩
  rw [run_bind, run_bind, ran]
  exact ends

/-- A single move, as long as it does not show what is in the journal. -/
theorem unread_make {m : Move K V} (blind : m ≠ .view) : Unread (make m) (make m) :=
  fun h j => m.make_withJournal blind h j

/-- A host may be looked at, if nothing in the journal decides about what is done then. -/
theorem unread_view {f g : Host K V → Work K V α} (same : ∀ h j, g (Host.withJournal h j) = g h)
    (each : ∀ h, Unread (f h) (g h)) : Unread (make .view >>= f) (make .view >>= g) := by
  intro h j
  rw [run_bind, run_bind, run_make, run_make]
  simp only [Move.make]
  rw [same]
  exact each h h j

/-- So all that is put together from such parts is unread. -/
theorem coupled_unread : Coupled fun _ (w x : Work K V _) => Unread w x := by
  refine ⟨unread_pure, fun first second => first.bind second, fun {α f g} blind each => ?_⟩
  apply unread_view _ each
  intro h j
  rw [← blind h h.journal]
  exact (blind (h.withJournal j) h.journal).symm

theorem unread_plain (m : Move K V) (plain : m.plain = true) : Unread (make m) (make m) := by
  apply unread_make
  rintro rfl
  cases plain

section

variable {run : CallbackRunner K V} (callbacks : ∀ r, Unread (run r) (run r))

include callbacks

/-- A cleaner is found on the host, and its calls are numbered there and not in the journal. -/
theorem unread_clean (c : CacheId) (victim : Victim K V) :
    Unread (clean run c victim) (clean run c victim) := by
  apply unread_view fun _ _ => rfl
  intro h
  cases (h.cache? c).bind Cache.cleaner with
  | none => exact unread_pure _
  | some cleaner =>
    apply (unread_make (m := .enterCleaner c victim) nofun).bind
    intro call
    apply (callbacks (cleaner.callbacks call)).bind
    intro replies
    exact unread_make (m := .leaveCleaner call replies (cleaner.verdict call)) nofun

theorem unread_evict (c : CacheId) (budget : Nat) :
    Unread (evict run c budget) (evict run c budget) :=
  coupled_unread.evict run run (unread_clean callbacks) (fun _ _ => unread_make nofun)
    (fun _ _ => unread_make nofun) (fun _ _ _ => unread_make nofun) c budget

theorem unread_perform (c : CacheId) (request : Request K V) :
    Unread (Host.perform run c request) (Host.perform run c request) := by
  have evict := unread_evict callbacks
  refine coupled_unread.perform (coupled_unread.requests unread_plain run run evict)
    ⟨fun _ key value => ?_, fun _ _ _ => unread_make nofun, fun _ _ _ _ => unread_make nofun,
      fun key _ => ?_⟩ fun _ => unread_make nofun
  · exact coupled_unread.insert unread_plain run run evict (fun _ _ _ => unread_make nofun) c key
      value
  · exact coupled_unread.reclaim run run (unread_clean callbacks) (fun _ _ => unread_make nofun)
      (fun _ _ => unread_make nofun) (fun _ _ => unread_make nofun) c key

end

/-- Callbacks are unread at every depth, since those are that are nested in them. -/
theorem unread_runCallbacks (limit : Nat) (r : Routine K V Unit) :
    Unread (Host.runCallbacks limit r) (Host.runCallbacks limit r) := by
  induction limit generalizing r with
  | zero => exact unread_pure []
  | succ limit ih =>
    exact coupled_unread.map _ (coupled_unread.routine _ _ (unread_perform ih) r)

/-- The operations that commands are made of are unread. -/
theorem paired_unread (limit : Nat) : Paired (fun _ (w x : Work K V _) => Unread w x) limit limit := by
  have evict := unread_evict (unread_runCallbacks (K := K) (V := V) limit)
  have place := fun c key value => unread_make (K := K) (V := V) (m := .place c key value) nofun
  exact ⟨unread_perform (unread_runCallbacks limit), coupled_unread.get unread_plain _ _ evict,
    coupled_unread.insert unread_plain _ _ evict place,
    coupled_unread.insertShared unread_plain place limit limit evict⟩

theorem unread_follow (limit : Nat) (r : Routine K V α) :
    Unread (follow limit r) (follow limit r) :=
  coupled_unread.follow limit limit (paired_unread limit).serve r

theorem unread_insertAll (limit : Nat) (c : CacheId)
    (source : List (Routine K V (Except Panic (K × V)))) :
    Unread (insertAll limit c source) (insertAll limit c source) :=
  coupled_unread.insertAll limit limit unread_plain (fun _ _ => unread_make nofun)
    (unread_evict (unread_runCallbacks limit)) fun next _ => unread_follow limit next

variable [BEq V]

/-- Hence so is whatever a session does. -/
theorem unread_act (limit : Nat) (cursors : Cursors K) (a : Act K V) :
    Unread (a.work limit cursors) (a.work limit cursors) := by
  cases a with
  | build config =>
    apply (unread_make (m := .build config) nofun).bind
    intro built
    cases built <;> exact unread_pure _
  | on c command =>
    apply unread_view fun _ _ => rfl
    intro h
    cases h.cache? c with
    | none => exact unread_pure _
    | some cache =>
      apply (paired_unread limit).workOn coupled_unread cursors c cache
      · exact fun source _ => unread_insertAll limit c source
      · exact fun _ d key id => unread_make nofun

theorem unread_workAll (limit : Nat) (cursors : Cursors K) (acts : List (Act K V)) :
    Unread (Act.workAll limit cursors acts) (Act.workAll limit cursors acts) := by
  induction acts generalizing cursors with
  | nil => exact unread_pure _
  | cons a rest ih =>
    apply (unread_act limit cursors a).bind
    intro first
    exact (ih first.1).bind fun others => unread_pure _

end Work

/-! ### Runs -/

/-- Whatever is in the journal, a run gives the same answers and leaves the same but for the journal. -/
theorem Session.run_withJournal [BEq V] (limit : Nat) (s : Session K V) (acts : List (Act K V))
    (j : Journal K V) : ∃ k, (s.withJournal j).run limit acts =
      ((s.run limit acts).1.withJournal k, (s.run limit acts).2) := by
  obtain ⟨k, ran⟩ := Work.unread_workAll limit s.cursors acts s.host j
  refine ⟨k, ?_⟩
  have cursors : (s.withJournal j).cursors = s.cursors := rfl
  have host : (s.withJournal j).host = s.host.withJournal j := rfl
  rw [run, carryOut, cursors, host, ran]
  rfl

end ReclaimableCache
