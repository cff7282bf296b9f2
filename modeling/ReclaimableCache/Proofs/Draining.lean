import ReclaimableCache.Proofs.Contents

/-!
# Draining with a quiet cleaner

A cleaner is quiet if it raises signals at most. With such a cleaner a pass does nothing to a cache
but release values and put their slots in line, and a drain loses some bindings under keys that
were free before it, whatever the policy asks for.
-/

namespace ReclaimableCache

variable {K V α : Type}

/-- Whether a request raises a signal. -/
def Request.raises : Request K V → Bool
  | raise _ => true
  | _ => false

/-- The cleaner raises signals at most, however its calls end. -/
def Cleaner.Quiet (cleaner : Cleaner K V) : Prop := cleaner.Only Request.raises

theorem Cleaner.Quiet.gives {cleaner : Cleaner K V} (quiet : cleaner.Quiet) (call : Cleaning K V) :
    (cleaner.callbacks call).Gives () := by
  have only := quiet call
  generalize cleaner.callbacks call = r at only
  induction r with
  | done result => rfl
  | ask c request next ih =>
    cases request with
    | raise signal => exact fun reply => ih reply (only.2 reply)
    | _ => cases only.1

/-- There is no cleaner but a quiet one. -/
def Cache.Quiet (c : Cache K V) : Prop := ∀ cleaner, c.cleaner = some cleaner → cleaner.Quiet

section

variable [DecidableEq K]

/-! ### Code that raises signals at most -/

theorem Host.cache?_perform_raise (run : CallbackRunner K V) (c : CacheId) (signal : SignalId)
    (h : Host K V) (d : CacheId) :
    ((perform run c (.raise signal)).run h).1.cache? d = h.cache? d := by
  cases found : h.cache? c with
  | none =>
    rw [perform, Work.run_bind, Work.run_make]
    simp only [Move.make, found]
    rw [Work.run_pure]
  | some cache =>
    rw [Work.run_perform run found]
    rfl

/-- Such code leaves every cache alone, and gives what it gives. -/
theorem Routine.Gives.run {r : Routine K V α} {a : α} (gives : r.Gives a)
    (run : CallbackRunner K V) (h : Host K V) :
    ((r.work (Host.perform run)).run h).2.2 = a ∧
      ∀ d, ((r.work (Host.perform run)).run h).1.cache? d = h.cache? d := by
  induction r generalizing h with
  | done result => exact ⟨gives, fun _ => rfl⟩
  | ask c request next ih =>
    cases request with
    | raise signal =>
      rw [Routine.work, Work.run_bind, Work.run_bind, Work.run_pure]
      have rest := ih _ (gives ((Host.perform run c (.raise signal)).run h).2)
        ((Host.perform run c (.raise signal)).run h).1
      exact ⟨rest.1, fun d => (rest.2 d).trans (Host.cache?_perform_raise run c signal h d)⟩
    | _ => exact gives.elim

namespace Work

theorem run_follow {r : Routine K V α} {a : α} (gives : r.Gives a) (limit : Nat) (h : Host K V) :
    ((follow limit r).run h).2 = a ∧ ∀ d, ((follow limit r).run h).1.cache? d = h.cache? d := by
  rw [follow, run_map]
  exact gives.run (Host.runCallbacks limit) h

theorem cache?_runCallbacks {r : Routine K V Unit} (gives : r.Gives ()) (limit : Nat)
    (h : Host K V) (d : CacheId) :
    ((Host.runCallbacks limit r).run h).1.cache? d = h.cache? d := by
  cases limit with
  | zero => rfl
  | succ limit =>
    rw [Host.runCallbacks, run_map]
    exact (gives.run (Host.runCallbacks limit) h).2 d

/-! ### Passes -/

variable {c : CacheId} {cache : Cache K V} {h : Host K V} (found : h.cache? c = some cache)
  (quiet : cache.Quiet)

include found quiet

theorem cache?_clean (limit : Nat) (victim : Victim K V) (d : CacheId) :
    ((clean (Host.runCallbacks limit) c victim).run h).1.cache? d = h.cache? d := by
  rw [clean, run_bind, run_make]
  simp only [Move.make, found, Option.bind_some]
  cases configured : cache.cleaner with
  | none => rfl
  | some cleaner =>
    have left := fun call replies verdict (g : Host K V) => Move.cache?_make_of_none
      (m := .leaveCleaner call replies verdict) rfl (fun _ same => by cases same) g d
    rw [dispose, run_callCleaner]
    refine (left _ _ _ _).trans ?_
    refine (cache?_runCallbacks ((quiet cleaner configured).gives _) limit _ d).trans ?_
    exact Move.cache?_make_of_none (m := .enterCleaner c victim) rfl (fun _ same => by cases same) h d

/-- The second half of a pass puts the slots of the victims in line. -/
theorem cache?_cleanAll (limit : Nat) (victims : List (Victim K V)) :
    ((cleanAll (Host.runCallbacks limit) c victims).run h).1.cache? c =
      some { cache with pending := cache.pending ++ victims.map Victim.id } := by
  induction victims generalizing h cache with
  | nil =>
    rw [cleanAll, run_pure, found, List.map_nil, List.append_nil]
  | cons victim victims ih =>
    rw [cleanAll, run_bind, run_bind, run_make, run_bind, run_pure]
    have cleaned := (cache?_clean found quiet limit victim c).trans found
    have queued := Move.cache?_make_of_target cleaned (m := .enqueue c victim.id) rfl
    apply (ih queued quiet).trans
    rw [Move.effect, Cache.enqueue, List.map_cons, List.append_assoc, List.singleton_append]

/-- A pass loses the bindings of the values that it released, and says how many they were. -/
theorem loses_evict (consistent : cache.Consistent) (limit budget : Nat) :
    ∃ later, ((evict (Host.runCallbacks limit) c budget).run h).1.cache? c = some later ∧
      cache.Loses later ((cache.releaseValues budget).2.map Victim.key).toFinset ∧
      ((evict (Host.runCallbacks limit) c budget).run h).2 =
        ((cache.releaseValues budget).2.map Victim.key).toFinset.card := by
  have victims : ((Move.releaseValues c budget).make h).2 = (cache.releaseValues budget).2 := by
    simp only [Move.make, Host.onCache, found]
  have released := Move.cache?_make_of_target found (m := .releaseValues c budget) rfl
  rw [Move.effect] at released
  have still : (cache.releaseValues budget).1.Quiet := quiet
  have cleaned := cache?_cleanAll released still limit (cache.releaseValues budget).2
  rw [run_evict]
  dsimp only
  rw [victims]
  refine ⟨_, Move.cache?_make_of_target cleaned rfl, ?_, ?_⟩
  · rw [← Finset.union_empty ((cache.releaseValues budget).2.map Victim.key).toFinset]
    exact (consistent.loses_releaseValues budget).trans (.aside rfl rfl)
  · rw [List.toFinset_card_of_nodup (consistent.nodup_keys_releaseValues budget), List.length_map]

end Work

/-! ### Drains -/

/-- A host with nothing in flight, and a cache of it whose cleaner is quiet. -/
structure Host.Ready (h : Host K V) (c : CacheId) (cache : Cache K V) : Prop where
  found : h.cache? c = some cache
  consistent : h.Consistent
  accounts : h.Accounts fun _ => []
  quiet : cache.Quiet

namespace Host.Ready

variable {h : Host K V} {c : CacheId} {cache : Cache K V} (ready : h.Ready c cache)

include ready

theorem here : cache.Consistent := ready.consistent c cache ready.found

theorem accounted : cache.Accounts [] := ready.accounts.present c cache ready.found

/-- Work that settles leaves a host ready. -/
theorem work {w : Work K V α} (settles : w.Settles) {later : Cache K V}
    (found : (w.run h).1.cache? c = some later) : (w.run h).1.Ready c later := by
  refine ⟨found, (ready.consistent.work w).2,
    (settles _ h ready.consistent ready.accounts).1, ?_⟩
  obtain ⟨grown, there, grows⟩ := h.grows_run w c cache ready.found
  rw [found] at there
  cases there
  rw [Cache.Quiet, grows.cleaner]
  exact ready.quiet

theorem make {m : Move K V} (target : m.target = some c) (stays : m.shifts = false) :
    (m.make h).1.Ready c (m.effect h.board cache) := by
  exact ready.work (Work.settles_make m stays) (Move.cache?_make_of_target ready.found target)

theorem evict (limit budget : Nat) :
    ∃ later, ((Work.evict (Host.runCallbacks limit) c budget).run h).1.Ready c later ∧
      cache.Loses later ((cache.releaseValues budget).2.map Victim.key).toFinset ∧
      ((Work.evict (Host.runCallbacks limit) c budget).run h).2 =
        ((cache.releaseValues budget).2.map Victim.key).toFinset.card := by
  obtain ⟨later, found, loses, count⟩ :=
    Work.loses_evict ready.found ready.quiet ready.here limit budget
  have callbacks := Work.inherited_settles (K := K) (V := V).runCallbacks limit
  exact ⟨later, ready.work (Work.settles_evict callbacks c budget) found, loses, count⟩

theorem sweep : ((Move.sweep c).make h).1.Ready c cache.sweep.1 ∧ cache.Loses cache.sweep.1 ∅ :=
  ⟨ready.make rfl rfl, ready.accounted.loses_sweep ready.here⟩

/-- A drain loses bindings of free keys, and leaves nothing that waits to be swept out. -/
theorem drain (limit : Nat) :
    ∃ later lost, ((Work.drain (Host.runCallbacks limit) c).run h).1.Ready c later ∧
      cache.Loses later lost ∧ later.pending = [] := by
  have swept := Work.swept_drain (Host.runCallbacks limit) c h
  have settled : ∃ later lost, ((Work.drain (Host.runCallbacks limit) c).run h).1.Ready c later ∧
      cache.Loses later lost := by
    obtain ⟨first, none⟩ := ready.sweep
    have asked := first.make (m := .consult c) rfl rfl
    have before := none.trans (Cache.Loses.aside
      (d := Move.effect ((Move.sweep c).make h).1.board cache.sweep.1 (.consult c)) rfl rfl)
    rw [Work.run_drain]
    dsimp only
    split
    · exact ⟨_, _, asked, before⟩
    · obtain ⟨later, evicted, lost, _⟩ :=
        asked.evict limit ((Move.consult c).make ((Move.sweep c).make h).1).2
      split
      · exact ⟨later, _, evicted, before.trans lost⟩
      · obtain ⟨last, nothing⟩ := evicted.sweep
        exact ⟨_, _, last, (before.trans lost).trans nothing⟩
  obtain ⟨later, lost, ended, loses⟩ := settled
  exact ⟨later, lost, ended, loses, swept later ended.found⟩

end Host.Ready

end

end ReclaimableCache
