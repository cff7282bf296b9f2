import Mathlib.Data.List.Chain
import ReclaimableCache.Proofs.Coupling

/-!
# Reasoning about work

What every move keeps is kept by all work: an invariant holds between any two moves, a relation
holds from any state to any later one, and a number that goes up by one with certain moves counts
them. A property that is not kept by every move may still be inherited by composed work from its
parts (`Work.Inherited`); then it only has to be shown for single moves, for a pass that releases
values and for a reclaim, and every operation, every callback and every run has it.
-/

namespace ReclaimableCache

variable {K V α β : Type}

namespace Work

section

variable [DecidableEq K]

/-! ### What every move keeps -/

/-- What every move keeps holds all along. -/
theorem invariant {P : Host K V → Prop} (keep : ∀ m h, P h → P (Move.make h m).1)
    (w : Work K V α) {h : Host K V} (start : P h) :
    (∀ s ∈ w.steps h, P s.before) ∧ P (w.run h).1 := by
  induction w generalizing h with
  | done a => exact ⟨by simp [steps], start⟩
  | move m next ih =>
    have rest := ih (m.make h).2 (keep m h start)
    refine ⟨fun s member => ?_, rest.2⟩
    rcases List.mem_cons.mp member with rfl | member
    · exact start
    · exact rest.1 s member

/-- What the moves of this very run keep. -/
theorem invariant_of_steps {P : Host K V → Prop} (w : Work K V α) {h : Host K V}
    (keep : ∀ s ∈ w.steps h, P s.before → P s.after) (start : P h) : P (w.run h).1 := by
  induction w generalizing h with
  | done a => exact start
  | move m next ih =>
    have first := keep ⟨h, m⟩ List.mem_cons_self start
    exact ih (m.make h).2 (fun s member => keep s (List.mem_cons_of_mem _ member)) first

/-- A relation that every move is in holds from each state to every later one. -/
theorem pairwise_steps {R : Host K V → Host K V → Prop} (refl : ∀ h, R h h)
    (trans : ∀ {a b c}, R a b → R b c → R a c) (keep : ∀ m h, R h (Move.make h m).1)
    (w : Work K V α) (h : Host K V) :
    (w.steps h).Pairwise (fun s t => R s.after t.before) ∧
      ∀ s ∈ w.steps h, R s.after (w.run h).1 := by
  induction w generalizing h with
  | done a => simp [steps]
  | move m next ih =>
    have rest := ih (m.make h).2 (m.make h).1
    have later := (next (m.make h).2).invariant (P := R (m.make h).1)
      (fun m h holds => trans holds (keep m h)) (refl _)
    refine ⟨List.pairwise_cons.mpr ⟨later.1, rest.1⟩, fun s member => ?_⟩
    rcases List.mem_cons.mp member with rfl | member
    · exact later.2
    · exact rest.2 s member

/-- The first move is made where the work starts. -/
theorem before_of_head (w : Work K V α) {h : Host K V} {s : Step K V}
    (first : s ∈ (w.steps h).head?) : s.before = h := by
  cases w with
  | done a => cases first
  | move m next =>
    cases first
    rfl

/-- Each move is made on what the move before it left behind. -/
theorem chained_steps (w : Work K V α) (h : Host K V) :
    (w.steps h).IsChain fun s t => t.before = s.after := by
  induction w generalizing h with
  | done a => exact .nil
  | move m next ih =>
    exact List.isChain_cons.mpr
      ⟨fun _ first => before_of_head _ first, ih (m.make h).2 (m.make h).1⟩

/-- What the moves of this very run keep, given the moves that were made before them, holds before each
    of them and at the end. -/
theorem along_run {P : List (Step K V) → Host K V → Prop} (w : Work K V α)
    {past : List (Step K V)} {h : Host K V}
    (keep : ∀ past, ∀ s ∈ w.steps h, P past s.before → P (past ++ [s]) s.after) (start : P past h) :
    (∀ before s later, w.steps h = before ++ s :: later → P (past ++ before) s.before) ∧
      P (past ++ w.steps h) (w.run h).1 := by
  induction w generalizing past h with
  | done a => exact ⟨by simp [steps], (List.append_nil past).symm ▸ start⟩
  | move m next ih =>
    have first := keep past ⟨h, m⟩ List.mem_cons_self start
    obtain ⟨each, last⟩ := ih (m.make h).2
      (fun past s member => keep past s (List.mem_cons_of_mem _ member)) first
    refine ⟨fun before s later split => ?_, ?_⟩
    · cases before with
      | nil =>
        obtain ⟨rfl, _⟩ := List.cons.inj split
        rwa [List.append_nil]
      | cons other before =>
        obtain ⟨rfl, others⟩ := List.cons.inj split
        rw [List.append_cons]
        exact each before s later others
    · rw [steps, List.append_cons]
      exact last

/-- What every move keeps, given the moves that were made before it, holds before each move. -/
theorem along_steps {P : List (Step K V) → Host K V → Prop}
    (keep : ∀ past m h, P past h → P (past ++ [⟨h, m⟩]) (Move.make h m).1) (w : Work K V α)
    {past : List (Step K V)} {h : Host K V} (start : P past h) {before later : List (Step K V)}
    {s : Step K V} (split : w.steps h = before ++ s :: later) : P (past ++ before) s.before :=
  (w.along_run (fun past s _ => keep past s.move s.before) start).1 before s later split

/-- A number that goes up by one with each move of a kind, and stays with the others, counts the
    moves of that kind. -/
theorem count_steps {P : Host K V → Prop} (keep : ∀ m h, P h → P (Move.make h m).1)
    (kind : Step K V → Bool) (number : Host K V → Nat)
    (counts : ∀ m h, P h →
      number h + (if kind ⟨h, m⟩ then 1 else 0) = number (Move.make h m).1)
    (w : Work K V α) {h : Host K V} (start : P h) :
    number h + (w.steps h).countP kind = number (w.run h).1 := by
  induction w generalizing h with
  | done a => rfl
  | move m next ih =>
    have first := counts m h start
    have rest := ih (m.make h).2 (keep m h start)
    rw [steps, List.countP_cons, run]
    omega

end

end Work

/-! ### What composed work inherits from its parts -/

/-- The kinds of moves form a chain. -/
theorem Move.steady_of_regular {m : Move K V} (regular : m.regular = true) : m.steady = true := by
  cases m <;> first | exact regular | rfl

/-- Whether a regular move relies on nothing that was done right before. The others look into a
    cache, ask its policy, or change its entries otherwise than by a sweep. -/
def Move.bare : Move K V → Bool
  | look .. | consult .. | place .. | takeOut .. | dropEntries .. => false
  | m => m.regular

namespace Work

/-- A property that composed work has if its parts have it. -/
structure Sequenced (Φ : (α : Type) → Work K V α → Prop) : Prop where
  pure : ∀ {α : Type} (a : α), Φ α (pure a)
  bind : ∀ {α β : Type} {w : Work K V α} {f : α → Work K V β}, Φ α w → (∀ a, Φ β (f a)) →
    Φ β (w >>= f)
  view : Φ (Host K V) (make .view)

/-- A property of composed work that single moves have as well. -/
structure Composed (Φ : (α : Type) → Work K V α → Prop) : Prop extends Sequenced Φ where
  make : ∀ m : Move K V, m.bare = true → Φ m.Result (make m)

/-- A property that drains and what relies on them have as well, if the callbacks of cleaners do. -/
structure Drained [DecidableEq K] (Φ : (α : Type) → Work K V α → Prop) : Prop
    extends Composed Φ where
  evict : ∀ {run : CallbackRunner K V}, (∀ r, Φ _ (run r)) → ∀ c budget,
    Φ Nat (evict run c budget)
  drain : ∀ {run : CallbackRunner K V}, (∀ r, Φ _ (run r)) → ∀ c, Φ Unit (drain run c)
  get : ∀ {run : CallbackRunner K V}, (∀ r, Φ _ (run r)) → ∀ c key, Φ _ (get run c key)
  insert : ∀ {run : CallbackRunner K V}, (∀ r, Φ _ (run r)) → ∀ c key value,
    Φ _ (insert run c key value)
  insertShared : ∀ {limit : Nat}, (∀ r, Φ _ (Host.runCallbacks limit r)) → ∀ c key value,
    Φ _ (insertShared limit c key value)
  remove : ∀ {run : CallbackRunner K V}, (∀ r, Φ _ (run r)) → ∀ c key, Φ _ (remove run c key)
  clear : ∀ c, Φ Unit (clear c)

/-- A property that the operations on a cache have, if the callbacks of cleaners do. -/
structure Operated [DecidableEq K] (Φ : (α : Type) → Work K V α → Prop) : Prop
    extends Sequenced Φ where
  perform : ∀ {run : CallbackRunner K V}, (∀ r, Φ _ (run r)) → ∀ c request,
    Φ _ (Host.perform run c request)
  get : ∀ {run : CallbackRunner K V}, (∀ r, Φ _ (run r)) → ∀ c key, Φ _ (get run c key)
  insert : ∀ {run : CallbackRunner K V}, (∀ r, Φ _ (run r)) → ∀ c key value,
    Φ _ (insert run c key value)
  insertShared : ∀ {limit : Nat}, (∀ r, Φ _ (Host.runCallbacks limit r)) → ∀ c key value,
    Φ _ (insertShared limit c key value)

/-- A property that the operations on a cache inherit from passes, reclaims and look-ups. -/
structure Inherited [DecidableEq K] (Φ : (α : Type) → Work K V α → Prop) : Prop
    extends Drained Φ, Operated Φ where
  place : ∀ c key value, Φ _ (Work.make (.place c key value))
  pick : ∀ c key id, Φ Bool (Work.make (.takeOutSlot c key id))
  reclaim : ∀ {run : CallbackRunner K V}, (∀ r, Φ _ (run r)) → ∀ c key,
    Φ Bool (reclaim run c key)

variable {Φ : (α : Type) → Work K V α → Prop}

namespace Sequenced

variable (sequenced : Sequenced Φ)

include sequenced

/-- A property of one piece of work is a relation that does not look at the other. -/
theorem coupled : Coupled fun α w _ => Φ α w :=
  ⟨sequenced.pure, sequenced.bind, fun _ each => sequenced.bind sequenced.view each⟩

/-- A result may be changed, and no move is added. -/
theorem map {w : Work K V α} (f : α → β) (holds : Φ α w) : Φ β (f <$> w) :=
  sequenced.bind holds fun a => sequenced.pure (f a)

theorem routine_of_only {kind : Request K V → Bool}
    {serve : CacheId → Request K V → Work K V (Reply V)}
    (served : ∀ c request, kind request = true → Φ _ (serve c request)) {r : Routine K V α}
    (only : r.Only kind) : Φ _ (r.work serve) :=
  sequenced.coupled.routine_of_only serve serve served only

theorem routine {serve : CacheId → Request K V → Work K V (Reply V)}
    (served : ∀ c request, Φ _ (serve c request)) (r : Routine K V α) : Φ _ (r.work serve) :=
  sequenced.coupled.routine serve serve served r

section

variable {run : CallbackRunner K V} (callbacks : ∀ r, Φ _ (run r))

include callbacks

theorem clean (disposing : ∀ m : Move K V, m.disposing = true → Φ m.Result (make m)) (c : CacheId)
    (v : Victim K V) : Φ _ (clean run c v) := by
  refine sequenced.coupled.clean run run sequenced.view (fun cleaner c v => ?_) c v
  apply sequenced.bind (disposing (.enterCleaner c v) rfl)
  intro call
  apply sequenced.bind (callbacks (cleaner.callbacks call))
  intro replies
  exact disposing (.leaveCleaner call replies (cleaner.verdict call)) rfl

/-- The values of a pass are disposed of one after the other. -/
theorem cleanAll (disposing : ∀ m : Move K V, m.disposing = true → Φ m.Result (make m)) (c : CacheId)
    (victims : List (Victim K V)) : Φ _ (cleanAll run c victims) :=
  sequenced.coupled.cleanAll run run (sequenced.clean callbacks disposing)
    (fun c id => disposing (.enqueue c id) rfl) c victims

/-- Where each move of a pass has a property, a pass has it. -/
theorem evict (disposing : ∀ m : Move K V, m.disposing = true → Φ m.Result (make m))
    (release : ∀ c budget, Φ _ (make (.releaseValues c budget)))
    (close : ∀ c released failures, Φ Unit (make (.closePass c released failures))) (c : CacheId)
    (budget : Nat) : Φ Nat (evict run c budget) :=
  sequenced.coupled.evict run run (sequenced.clean callbacks disposing)
    (fun c id => disposing (.enqueue c id) rfl) release close c budget

theorem reclaim (disposing : ∀ m : Move K V, m.disposing = true → Φ m.Result (make m))
    (release : ∀ c key, Φ _ (make (.releaseValue c key)))
    (count : ∀ c failed, Φ Unit (make (.countReclaim c failed))) (c : CacheId) (key : K) :
    Φ Bool (reclaim run c key) :=
  sequenced.coupled.reclaim run run (sequenced.clean callbacks disposing)
    (fun c id => disposing (.enqueue c id) rfl) release count c key

end

variable [DecidableEq K]

theorem runCallbacks
    (serve : ∀ limit, (∀ r, Φ _ (Host.runCallbacks limit r)) → ∀ c request,
      Φ _ (Host.serve limit c request)) (limit : Nat) (r : Routine K V Unit) :
    Φ _ (Host.runCallbacks limit r) := by
  induction limit generalizing r with
  | zero => exact sequenced.pure []
  | succ limit ih => exact sequenced.map _ (sequenced.routine (serve limit ih) r)

variable {limit : Nat} (served : ∀ c request, Φ _ (Host.serve limit c request))

include served

/-- A caller's code makes its requests one after the other. -/
theorem follow (r : Routine K V α) : Φ α (follow limit r) :=
  sequenced.coupled.follow limit limit served r

theorem retain {c : CacheId} (pick : ∀ key id, Φ Bool (make (.takeOutSlot c key id)))
    (keep : Predicate K V) : Φ _ (retain limit c keep) :=
  sequenced.coupled.retain limit limit pick fun heard key value =>
    sequenced.routine served (keep heard key value)

theorem storeAll {c : CacheId} (place : ∀ key value, Φ _ (make (.place c key value)))
    (source : List (Routine K V (Except Panic (K × V)))) : Φ _ (storeAll limit c source) :=
  sequenced.coupled.storeAll limit limit place fun next _ => sequenced.follow served next

end Sequenced

namespace Composed

variable (composed : Composed Φ)

include composed

/-- All that is special about a clear is its last move. -/
theorem clear {c : CacheId} (drop : Φ Unit (Work.make (.dropEntries c))) : Φ Unit (clear c) := by
  apply composed.bind (composed.make (.unpinAll c) rfl)
  intro _
  exact composed.bind (composed.make (.sweep c) rfl) fun _ => drop

end Composed

namespace Drained

variable [DecidableEq K] (drained : Drained Φ) {run : CallbackRunner K V}
  (callbacks : ∀ r, Φ _ (run r))

include drained

section

include callbacks

theorem releaseUnpinned (c : CacheId) : Φ Nat (releaseUnpinned run c) := by
  apply drained.bind (drained.evict callbacks c _)
  intro released
  exact drained.bind (drained.make (.sweep c) rfl) fun _ => drained.pure released

/-- Most requests are made of moves and passes. -/
theorem requests : Requests (fun α w _ => Φ α w) run run :=
  ⟨drained.drain callbacks, drained.get callbacks, drained.remove callbacks,
    drained.releaseUnpinned callbacks, drained.clear, fun signal => drained.make (.raise signal) rfl⟩

variable (c : CacheId) {request : Request K V}
  (place : ∀ key value, request = .storeNext key value → Φ _ (make (.place c key value)))
  (pick : ∀ key age, request = .removeRecent key age → ∀ id,
    Φ Bool (make (.takeOutSlot c key id)))
  (reclaim : ∀ key, request = .reclaim key → Φ Bool (reclaim run c key))

include place pick reclaim

theorem changes : Changes (fun α w _ => Φ α w) run run c request :=
  ⟨fun _ => drained.insert callbacks c, place, pick, reclaim⟩

theorem performOn (cache : Cache K V) : Φ _ (performOn run c cache request) :=
  drained.coupled.performOn (drained.requests callbacks)
    (drained.changes callbacks c place pick reclaim) cache

theorem perform (note : ∀ reply, Φ Unit (make (.noteServed c request reply))) :
    Φ _ (Host.perform run c request) :=
  drained.coupled.perform (drained.requests callbacks)
    (drained.changes callbacks c place pick reclaim) note

end

/-- It is enough to look at requests. -/
theorem operated (perform : ∀ {run : CallbackRunner K V}, (∀ r, Φ _ (run r)) → ∀ c request,
    Φ _ (Host.perform run c request)) : Operated Φ :=
  ⟨drained.toSequenced, perform, drained.get, drained.insert, drained.insertShared⟩

/-- It is enough to look at reclaims, at the ends of requests and at single stores and picks. -/
theorem inherited (note : ∀ c request reply, Φ Unit (make (.noteServed c request reply)))
    (place : ∀ c key value, Φ _ (make (.place c key value)))
    (pick : ∀ c key id, Φ Bool (make (.takeOutSlot c key id)))
    (reclaim : ∀ {run : CallbackRunner K V}, (∀ r, Φ _ (run r)) → ∀ c key,
      Φ Bool (reclaim run c key)) : Inherited Φ :=
  { drained, drained.operated fun callbacks c request =>
      drained.perform callbacks c (fun key value _ => place c key value)
        (fun key _ _ id => pick c key id) (fun key _ => reclaim callbacks c key) (note c request) with
    place := place
    pick := pick
    reclaim := reclaim }

end Drained

/-- Where all regular moves have a property, nothing needs to be shown of drains and look-ups. -/
theorem drained_of_moves [DecidableEq K] (onPure : ∀ {α : Type} (a : α), Φ α (pure a))
    (onBind : ∀ {α β : Type} {w : Work K V α} {f : α → Work K V β}, Φ α w → (∀ a, Φ β (f a)) →
      Φ β (w >>= f))
    (onMove : ∀ m : Move K V, m.regular = true → Φ m.Result (make m))
    (onEvict : ∀ {run : CallbackRunner K V}, (∀ r, Φ _ (run r)) → ∀ c budget,
      Φ Nat (evict run c budget)) : Drained Φ := by
  have composed : Composed Φ := by
    refine ⟨⟨onPure, onBind, onMove .view rfl⟩, fun m bare => onMove m ?_⟩
    cases m <;> first | rfl | cases bare
  have coupled := composed.coupled
  have move : ∀ m : Move K V, m.plain = true → Φ m.Result (make m) := fun m plain =>
    onMove m (Move.regular_of_plain plain)
  have place : ∀ c key value, Φ _ (make (.place c key value)) := fun c key value =>
    onMove (.place c key value) rfl
  refine ⟨composed, onEvict, ?_, ?_, ?_, ?_, ?_, coupled.clear move⟩
  · exact fun {run} callbacks => coupled.drain move run run (onEvict callbacks)
  · exact fun {run} callbacks => coupled.get move run run (onEvict callbacks)
  · exact fun {run} callbacks => coupled.insert move run run (onEvict callbacks) place
  · exact fun {limit} callbacks => coupled.insertShared move place limit limit (onEvict callbacks)
  · exact fun {run} callbacks => coupled.remove move run run (onEvict callbacks)

/-- What all moves have, and what work has if its parts have it, is a property of all work. -/
theorem inherited_of_moves [DecidableEq K] (onPure : ∀ {α : Type} (a : α), Φ α (pure a))
    (onBind : ∀ {α β : Type} {w : Work K V α} {f : α → Work K V β}, Φ α w → (∀ a, Φ β (f a)) →
      Φ β (w >>= f))
    (onMove : ∀ m : Move K V, m.steady = true → Φ m.Result (make m))
    (onNote : ∀ c request reply, Φ Unit (make (.noteServed c request reply)))
    (onEvict : ∀ {run : CallbackRunner K V}, (∀ r, Φ _ (run r)) → ∀ c budget,
      Φ Nat (evict run c budget))
    (onReclaim : ∀ {run : CallbackRunner K V}, (∀ r, Φ _ (run r)) → ∀ c key,
      Φ Bool (reclaim run c key)) : Inherited Φ :=
  (drained_of_moves onPure onBind (fun m regular => onMove m (Move.steady_of_regular regular))
    onEvict).inherited onNote (fun c key value => onMove (.place c key value) rfl)
    (fun c key id => onMove (.takeOutSlot c key id) rfl) onReclaim

variable [DecidableEq K]

/-! ### What every step has -/

/-- Every step of some work has a property, whatever the host. -/
def Always (P : Step K V → Prop) (w : Work K V α) : Prop := ∀ h : Host K V, ∀ s ∈ w.steps h, P s

section

variable {P : Step K V → Prop}

theorem always_pure (a : α) : (pure a : Work K V α).Always P := fun _ s member => by
  simp at member

/-- A step belongs to one of the parts. -/
theorem Always.bind {w : Work K V α} {f : α → Work K V β} (first : w.Always P)
    (second : ∀ a, (f a).Always P) : (w >>= f).Always P := by
  intro h s member
  rw [steps_bind] at member
  rcases List.mem_append.mp member with member | member
  · exact first h s member
  · exact second _ _ s member

theorem always_make {m : Move K V} (holds : ∀ h : Host K V, P ⟨h, m⟩) : (make m).Always P := by
  intro h s member
  rw [steps_make, List.mem_singleton] at member
  exact member ▸ holds h

/-- What holds of every step does not depend on how steps are put together. -/
theorem sequenced_always (view : ∀ h : Host K V, P ⟨h, .view⟩) :
    Sequenced fun _ (w : Work K V _) => w.Always P :=
  ⟨always_pure, fun first second => first.bind second, always_make view⟩

end

namespace Sequenced

variable [BEq V] (sequenced : Sequenced Φ) {limit : Nat}
  (paired : Paired (fun α w _ => Φ α w) limit limit) (build : ∀ config, Φ _ (make (.build config)))
  (bulk : ∀ c source, Φ _ (insertAll limit c source))
  (pick : ∀ d key id, Φ Bool (make (.takeOutSlot d key id)))

include sequenced paired build bulk pick

/-- Under one limit on the nesting of callbacks it is enough to look at the operations. -/
theorem act (cursors : Cursors K) (a : Act K V) : Φ _ (a.work limit cursors) := by
  cases a with
  | build config =>
    apply sequenced.bind (build config)
    intro built
    cases built <;> exact sequenced.pure _
  | on c command =>
    apply sequenced.bind sequenced.view
    intro h
    split
    · exact sequenced.pure _
    · exact paired.workOn sequenced.coupled cursors c _ (fun source _ => bulk c source) fun _ => pick

/-- Acts are carried out one after the other. -/
theorem workAll (cursors : Cursors K) (acts : List (Act K V)) :
    Φ _ (Act.workAll limit cursors acts) := by
  induction acts generalizing cursors with
  | nil => exact sequenced.pure _
  | cons a rest ih =>
    apply sequenced.bind (sequenced.act paired build bulk pick cursors a)
    intro first
    exact sequenced.bind (ih first.1) fun others => sequenced.pure _

end Sequenced

namespace Operated

variable (operated : Operated Φ)

include operated

theorem runCallbacks (limit : Nat) (r : Routine K V Unit) : Φ _ (Host.runCallbacks limit r) :=
  operated.toSequenced.runCallbacks (fun _ callbacks => operated.perform callbacks) limit r

theorem serve (limit : Nat) (c : CacheId) (request : Request K V) :
    Φ _ (Host.serve limit c request) :=
  operated.perform (operated.runCallbacks limit) c request

theorem follow (limit : Nat) (r : Routine K V α) : Φ α (follow limit r) :=
  operated.toSequenced.follow (operated.serve limit) r

theorem paired (limit : Nat) : Paired (fun α w _ => Φ α w) limit limit :=
  ⟨operated.serve limit, operated.get (operated.runCallbacks limit),
    operated.insert (operated.runCallbacks limit),
    operated.insertShared (operated.runCallbacks limit)⟩

theorem insertEach (limit : Nat) (c : CacheId) (entries : List (K × V)) :
    Φ Unit (insertEach limit c entries) :=
  (operated.paired limit).insertEach operated.coupled c entries

theorem insertOptional (limit : Nat) (c : CacheId) (key : K) (value : Option V) :
    Φ _ (insertOptional limit c key value) :=
  (operated.paired limit).insertOptional operated.coupled c key value

theorem getOrCompute (limit : Nat) (c : CacheId) (key : K)
    (compute : Routine K V (Except Panic V)) : Φ _ (getOrCompute limit c key compute) :=
  (operated.paired limit).getOrCompute operated.coupled c key compute

/-! ### Commands and runs -/

variable [BEq V]

/-- Commands that store all that a source gives, or pick entries, are looked at for themselves. -/
theorem workOn (limit : Nat) (cursors : Cursors K) (c : CacheId) (cache : Cache K V)
    {command : Command K V}
    (bulk : ∀ source, command = .insertAll source → Φ _ (insertAll limit c source))
    (pick : command.picks = true → ∀ d key id, Φ Bool (make (.takeOutSlot d key id))) :
    Φ _ (command.workOn limit cursors c cache) :=
  (operated.paired limit).workOn operated.coupled cursors c cache bulk pick

variable (build : ∀ config, Φ _ (make (.build config)))
  (bulk : ∀ limit c source, Φ _ (insertAll limit c source))
  (pick : ∀ d key id, Φ Bool (make (.takeOutSlot d key id)))

include build bulk pick

theorem act (limit : Nat) (cursors : Cursors K) (a : Act K V) : Φ _ (a.work limit cursors) :=
  operated.toSequenced.act (operated.paired limit) build (bulk limit) pick cursors a

theorem workAll (limit : Nat) (cursors : Cursors K) (acts : List (Act K V)) :
    Φ _ (Act.workAll limit cursors acts) :=
  operated.toSequenced.workAll (operated.paired limit) build (bulk limit) pick cursors acts

end Operated

/-- Passes and requests are enough for a source of values. -/
theorem Drained.insertAll (drained : Drained Φ) (operated : Operated Φ) (limit : Nat) {c : CacheId}
    (place : ∀ key value, Φ _ (make (.place c key value)))
    (source : List (Routine K V (Except Panic (K × V)))) : Φ _ (insertAll limit c source) :=
  drained.bind (drained.drain (operated.runCallbacks limit) c) fun _ =>
    drained.storeAll (operated.serve limit) place source

namespace Inherited

variable (inherited : Inherited Φ)

include inherited

theorem performOn {run : CallbackRunner K V} (callbacks : ∀ r, Φ _ (run r)) (c : CacheId)
    (cache : Cache K V) (request : Request K V) : Φ _ (performOn run c cache request) :=
  inherited.toDrained.performOn callbacks c (fun key value _ => inherited.place c key value)
    (fun key _ _ id => inherited.pick c key id) (fun key _ => inherited.reclaim callbacks c key) cache

theorem insertAll (limit : Nat) (c : CacheId)
    (source : List (Routine K V (Except Panic (K × V)))) : Φ _ (insertAll limit c source) :=
  inherited.toDrained.insertAll inherited.toOperated limit (inherited.place c) source

variable [BEq V]

theorem act (limit : Nat) (cursors : Cursors K) (a : Act K V) : Φ _ (a.work limit cursors) :=
  inherited.toOperated.act (fun config => inherited.make (.build config) rfl) inherited.insertAll
    inherited.pick limit cursors a

/-- Whatever is done from the outside inherits the property. -/
theorem workAll (limit : Nat) (cursors : Cursors K) (acts : List (Act K V)) :
    Φ _ (Act.workAll limit cursors acts) :=
  inherited.toOperated.workAll (fun config => inherited.make (.build config) rfl) inherited.insertAll
    inherited.pick limit cursors acts

end Inherited

/-! ### Operations move by move -/

variable (run : CallbackRunner K V) (c : CacheId) (h : Host K V)

theorem run_callCleaner (cleaner : Cleaner K V) (victim : Victim K V) :
    (callCleaner run cleaner c victim).run h =
      let entered := h.enterCleaner c victim
      let served := (run (cleaner.callbacks entered.2)).run entered.1
      served.1.leaveCleaner entered.2 served.2 (cleaner.verdict entered.2) :=
  (run_bind _ _ h).trans (run_bind _ _ _)

theorem steps_callCleaner (cleaner : Cleaner K V) (victim : Victim K V) :
    (callCleaner run cleaner c victim).steps h =
      let entered := h.enterCleaner c victim
      let served := (run (cleaner.callbacks entered.2)).run entered.1
      ⟨h, .enterCleaner c victim⟩ :: (run (cleaner.callbacks entered.2)).steps entered.1 ++
        [⟨served.1, .leaveCleaner entered.2 served.2 (cleaner.verdict entered.2)⟩] :=
  (steps_bind _ _ h).trans (congrArg (List.cons _) (steps_bind _ _ _))

variable {run c h} in
/-- What is done in a call of a cleaner: it is entered, its callbacks are served, and it is left. -/
theorem mem_steps_callCleaner {cleaner : Cleaner K V} {victim : Victim K V} {s : Step K V} :
    s ∈ (callCleaner run cleaner c victim).steps h ↔
      let entered := h.enterCleaner c victim
      let served := (run (cleaner.callbacks entered.2)).run entered.1
      s = ⟨h, .enterCleaner c victim⟩ ∨ s ∈ (run (cleaner.callbacks entered.2)).steps entered.1 ∨
        s = ⟨served.1, .leaveCleaner entered.2 served.2 (cleaner.verdict entered.2)⟩ := by
  simp [steps_callCleaner]

/-- A pass releases, cleans and is closed. -/
theorem run_evict (budget : Nat) :
    (evict run c budget).run h =
      let released := (Move.releaseValues c budget).make h
      let cleaned := (cleanAll run c released.2).run released.1
      (((Move.closePass c released.2.length cleaned.2).make cleaned.1).1, released.2.length) := by
  rw [evict, run_bind, run_make, run_bind, run_bind, run_make]
  rfl

/-- A drain sweeps, asks the policy and makes a pass. -/
theorem run_drain :
    ((drain run c).run h).1 =
      let asked := (Move.consult c).make ((Move.sweep c).make h).1
      if asked.2 = 0 then asked.1
      else
        let evicted := (evict run c asked.2).run asked.1
        if evicted.2 = 0 then evicted.1 else ((Move.sweep c).make evicted.1).1 := by
  rw [drain, run_bind, run_make, run_bind, run_make]
  dsimp only
  by_cases nothing : ((Move.consult c).make ((Move.sweep c).make h).1).2 = 0
  · rw [if_pos nothing, if_pos nothing, run_pure]
  · rw [if_neg nothing, if_neg nothing, run_bind]
    generalize (evict run c ((Move.consult c).make ((Move.sweep c).make h).1).2).run
      ((Move.consult c).make ((Move.sweep c).make h).1).1 = evicted
    by_cases none : evicted.2 = 0
    · rw [if_pos none, if_pos none, run_pure]
    · rw [if_neg none, if_neg none, run_make]

/-- A look-up comes after a drain, and so do the operations below. -/
theorem run_get (key : K) :
    (get run c key).run h = (Move.look c key).make ((drain run c).run h).1 := by
  rw [get, run_bind, run_make]

theorem run_insert (key : K) (value : V) :
    (insert run c key value).run h = (Move.place c key value).make ((drain run c).run h).1 := by
  rw [insert, run_bind, run_make]

theorem run_remove (key : K) :
    (remove run c key).run h = (Move.takeOut c key).make ((drain run c).run h).1 := by
  rw [remove, run_bind, run_make]

theorem run_releaseUnpinned :
    (releaseUnpinned run c).run h =
      let evicted := (evict run c Policy.unlimited).run h
      (((Move.sweep c).make evicted.1).1, evicted.2) := by
  rw [releaseUnpinned, run_bind, run_bind, run_make]
  rfl

theorem run_clear :
    ((clear c).run h).1 =
      ((Move.dropEntries c).make ((Move.sweep c).make ((Move.unpinAll c).make h).1).1).1 := by
  rw [clear, run_bind, run_make, run_bind, run_make, run_make]

/-- What was there before is read between the drain and the placing. -/
theorem run_insertShared (limit : Nat) (key : K) (value : V) :
    (insertShared limit c key value).run h =
      let drained := ((drain (Host.runCallbacks limit) c).run h).1
      let placed := (Move.place c key value).make drained
      (placed.1, placed.2, match drained.cache? c, placed.1.cache? c with
        | some earlier, some later =>
            later.table.isCurrent key earlier.pool.nextId && later.pool.isLive earlier.pool.nextId
        | _, _ => false) := by
  have view : ∀ h : Host K V, (make (.view : Move K V)).run h = (h, h) := fun _ => rfl
  rw [insertShared, run_bind, run_bind, view, run_bind, run_make, run_bind, view]
  rfl

/-- Nothing can be done to a cache that is not there. -/
theorem run_command_of_none [BEq V] {c : CacheId} {h : Host K V} (absent : h.cache? c = none)
    (limit : Nat) (cursors : Cursors K) (command : Command K V) :
    (command.work limit cursors c).run h = (h, cursors, .reply .noCache) := by
  rw [Command.work, run_bind, run_make]
  simp only [Move.make, absent]
  rfl

/-- Nor can anything be asked of it. -/
theorem run_serve_of_none {c : CacheId} {h : Host K V} (absent : h.cache? c = none) (limit : Nat)
    (request : Request K V) : (Host.serve limit c request).run h = (h, .noCache) := by
  rw [Host.serve, Host.perform, run_bind, run_make]
  simp only [Move.make, absent]
  rfl

variable {c h} {cache : Cache K V} (found : h.cache? c = some cache)

include found

theorem run_perform (request : Request K V) :
    (Host.perform run c request).run h =
      let performed := (performOn run c cache request).run h
      (((Move.noteServed c request performed.2).make performed.1).1, performed.2) := by
  rw [Host.perform, run_bind, run_make]
  simp only [Move.make, found]
  rw [run_bind, run_bind, run_make]
  rfl

theorem run_command [BEq V] (limit : Nat) (cursors : Cursors K) (command : Command K V) :
    (command.work limit cursors c).run h = (command.workOn limit cursors c cache).run h := by
  rw [Command.work, run_bind, run_make]
  simp only [Move.make, found]

end Work

/-! ### Sessions -/

namespace Session

variable [DecidableEq K] [BEq V] {s : Session K V} {c : CacheId} {cache : Cache K V}

theorem run_cons (s : Session K V) (limit : Nat) (a : Act K V) (rest : List (Act K V)) :
    (s.run limit (a :: rest)).1 = ((s.act limit a).1.run limit rest).1 := by
  rw [run, carryOut, Act.workAll, Work.run_bind, Work.run_bind, Work.run_pure]
  rfl

theorem answers_cons (s : Session K V) (limit : Nat) (a : Act K V) (rest : List (Act K V)) :
    (s.run limit (a :: rest)).2 = (s.act limit a).2 :: ((s.act limit a).1.run limit rest).2 := by
  rw [run, carryOut, Act.workAll, Work.run_bind, Work.run_bind, Work.run_pure]
  rfl

theorem run_append (s : Session K V) (limit : Nat) (first second : List (Act K V)) :
    s.run limit (first ++ second) =
      (((s.run limit first).1.run limit second).1,
        (s.run limit first).2 ++ ((s.run limit first).1.run limit second).2) := by
  induction first generalizing s with
  | nil => rfl
  | cons a first ih =>
    rw [List.cons_append, Prod.ext_iff, run_cons, answers_cons, run_cons, answers_cons, ih]
    exact ⟨rfl, rfl⟩

theorem history_cons (limit : Nat) (s : Session K V) (a : Act K V) (rest : List (Act K V)) :
    s.history limit (a :: rest) =
      (a.work limit s.cursors).steps s.host ++ (s.act limit a).1.history limit rest := by
  rw [history, Act.workAll, Work.steps_bind, Work.steps_bind, Work.steps_pure, List.append_nil]
  rfl

theorem history_single (limit : Nat) (s : Session K V) (a : Act K V) :
    s.history limit [a] = (a.work limit s.cursors).steps s.host :=
  (history_cons limit s a []).trans (List.append_nil _)

theorem history_append (limit : Nat) (s : Session K V) (first second : List (Act K V)) :
    s.history limit (first ++ second) =
      s.history limit first ++ (s.run limit first).1.history limit second := by
  induction first generalizing s with
  | nil => rfl
  | cons a first ih =>
    rw [List.cons_append, history_cons, history_cons, ih, List.append_assoc, run_cons]

/-- The moves of a command on a cache that is there. -/
theorem history_command (found : s.host.cache? c = some cache) (limit : Nat)
    (command : Command K V) : s.history limit [.on c command] =
      ⟨s.host, .view⟩ :: (command.workOn limit s.cursors c cache).steps s.host := by
  rw [history_single, Act.work, Command.work, Work.steps_bind, Work.run_make]
  simp only [Move.make, found]
  rfl

/-- The host once a command on a cache that is there is carried out. -/
theorem host_step (found : s.host.cache? c = some cache) (limit : Nat) (command : Command K V) :
    (s.step limit c command).1.host =
      ((command.workOn limit s.cursors c cache).run s.host).1 := by
  rw [step, carryOut, Work.run_command found]

/-- The answer to a command on a cache that is there. -/
theorem answer_step (found : s.host.cache? c = some cache) (limit : Nat) (command : Command K V) :
    (s.step limit c command).2 =
      ((command.workOn limit s.cursors c cache).run s.host).2.2 := by
  rw [step, carryOut, Work.run_command found]

/-- A request of a caller does what the same request does when code of his makes it. -/
theorem act_request (s : Session K V) (limit : Nat) (c : CacheId) (asked : Request K V) :
    s.act limit (.on c (.request asked)) =
    (⟨((Host.serve limit c asked).run s.host).1, s.cursors⟩,
      .reply ((Host.serve limit c asked).run s.host).2) := by
  rw [act, carryOut, Act.work]
  cases found : s.host.cache? c with
  | none => rw [Work.run_command_of_none found, Work.run_serve_of_none found]
  | some cache =>
    rw [Work.run_command found, Command.workOn, Work.run_bind, Work.run_pure]

/-- The caches once a request is carried out; making a note of it changes none of them. -/
theorem cache?_step_request (found : s.host.cache? c = some cache) (limit : Nat)
    (asked : Request K V) (d : CacheId) :
    (s.step limit c (.request asked)).1.host.cache? d =
      ((Work.performOn (Host.runCallbacks limit) c cache asked).run s.host).1.cache? d := by
  rw [host_step found, Command.workOn, Work.run_bind, Work.run_pure, Host.serve,
    Work.run_perform _ found]
  exact Move.cache?_make_of_none rfl (fun _ same => by cases same) _ d

theorem answer_step_request (found : s.host.cache? c = some cache) (limit : Nat)
    (asked : Request K V) :
    (s.step limit c (.request asked)).2 =
      .reply ((Work.performOn (Host.runCallbacks limit) c cache asked).run s.host).2 := by
  rw [answer_step found, Command.workOn, Work.run_bind, Work.run_pure, Host.serve,
    Work.run_perform _ found]

/-- What the moves of a run keep, given the moves that were made before them, holds at each point of
    time. -/
theorem along_states {P : List (Step K V) → Host K V → Prop} {limit : Nat} {acts : List (Act K V)}
    (keep : ∀ past, ∀ t ∈ s.history limit acts, P past t.before → P (past ++ [t]) t.after)
    (start : P [] s.host) {i : Nat} {h : Host K V} (there : (s.states limit acts)[i]? = some h) :
    P ((s.history limit acts).take i) h := by
  obtain ⟨each, last⟩ := (Act.workAll limit s.cursors acts).along_run keep start
  rw [states, List.getElem?_append, List.length_map] at there
  split at there
  · rename_i inside
    rw [List.getElem?_map, List.getElem?_eq_getElem inside, Option.map_some,
      Option.some.injEq] at there
    subst there
    have split := List.take_append_drop i (s.history limit acts)
    rw [List.drop_eq_getElem_cons inside] at split
    exact each _ _ _ split.symm
  · rename_i outside
    rw [List.take_of_length_le (Nat.le_of_not_lt outside)]
    obtain rfl := List.mem_singleton.mp (List.mem_of_getElem? there)
    exact last

end Session

end ReclaimableCache
