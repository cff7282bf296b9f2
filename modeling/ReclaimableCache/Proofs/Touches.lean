import Mathlib.Data.List.DropRight
import ReclaimableCache.Proofs.Fate
import ReclaimableCache.Proofs.Mild
import ReclaimableCache.Proofs.Protection

/-!
# Pins and touches

A slot is touched when a value is stored in it, and when a look-up finds its value. Each touch pins the
slot, and lets the oldest pin go once there are too many. So the pin queue is the tail of all touches
since a cache was last cleared, as long as look-ups meet live entries only: with a quiet cleaner they
always do. What becomes of a slot after it was touched does not matter.
-/

namespace ReclaimableCache

variable {K V α : Type}

section

variable [DecidableEq K]

/-! ### Touches -/

/-- The slot of a cache that a move touches: the one that it makes if it stores a value, and the one
    that it reads if it looks a value up and finds it. -/
def Step.touched? (c : CacheId) (s : Step K V) : Option SlotId :=
  match s.move with
  | .place d _ _ => if d = c then (s.before.cache? c).map fun cache => cache.pool.nextId else none
  | .look d key => if d = c then (s.before.cache? c).bind fun cache => cache.liveSlot? key else none
  | _ => none

/-- Whether a move takes all pins off a cache. -/
def Step.unpins (c : CacheId) (s : Step K V) : Bool :=
  match s.move with
  | .unpinAll d => decide (d = c)
  | _ => false

/-- The slots of a cache that were touched since all pins were last taken off, oldest first. -/
def touches (c : CacheId) (history : List (Step K V)) : List SlotId :=
  history.foldl (fun touched s => if s.unpins c then [] else touched ++ (s.touched? c).toList) []

theorem touches_concat (c : CacheId) (past : List (Step K V)) (s : Step K V) :
    touches c (past ++ [s]) =
      if s.unpins c then [] else touches c past ++ (s.touched? c).toList := by
  rw [touches, List.foldl_append]
  rfl

/-- A move touches nothing and takes no pins off. -/
def Step.Untouching (c : CacheId) (s : Step K V) : Prop :=
  s.unpins c = false ∧ s.touched? c = none

theorem Step.untouching_of_mild {s : Step K V} (mild : s.move.mild = true) (c : CacheId) :
    s.Untouching c := by
  obtain ⟨h, m⟩ := s
  cases m <;> first | exact ⟨rfl, rfl⟩ | cases mild

theorem Step.untouching_of_away {s : Step K V} {c : CacheId} (away : s.move.target ≠ some c) :
    s.Untouching c := by
  obtain ⟨h, m⟩ := s
  cases m with
  | place d key value => exact ⟨rfl, if_neg fun same => away (congrArg some same)⟩
  | look d key => exact ⟨rfl, if_neg fun same => away (congrArg some same)⟩
  | unpinAll d => exact ⟨decide_eq_false fun same => away (congrArg some same), rfl⟩
  | _ => exact ⟨rfl, rfl⟩

theorem touches_concat_of_untouching {c : CacheId} (past : List (Step K V)) {s : Step K V}
    (untouching : s.Untouching c) : touches c (past ++ [s]) = touches c past := by
  rw [touches_concat, untouching.1, untouching.2]
  exact List.append_nil _

/-- Mild moves touch nothing and take no pins off. -/
theorem touches_of_mild (c : CacheId) (past : List (Step K V)) {more : List (Step K V)}
    (mild : ∀ s ∈ more, s.move.mild = true) : touches c (past ++ more) = touches c past := by
  induction more using List.reverseRecOn with
  | nil => rw [List.append_nil]
  | append_singleton more s ih =>
    have before := ih fun t member => mild t (List.mem_append_left _ member)
    have last := mild s (List.mem_append_right _ List.mem_cons_self)
    rw [← List.append_assoc, touches_concat_of_untouching _ (Step.untouching_of_mild last c), before]

/-! ### Touched slots -/

theorem Move.Touches.finds {h : Host K V} {c : CacheId} {cache : Cache K V} {key : K}
    {m : Move K V} {id : SlotId} {value : V} (found : h.cache? c = some cache)
    (touches : m.Touches c cache key id value) : (m.make h).1.Finds c key id value := by
  cases touches with
  | hit installed holds =>
    have there := Move.cache?_make_of_target found (m := .look c key) rfl
    have same := (PinQueue.sameValues_pin cache.queue cache.pool id).value? id
    simp only [Move.effect, Cache.touch, installed, Cache.pin, same, holds] at there
    refine ⟨_, there, installed, same.trans holds, ?_⟩
    rw [Cache.peek]
    simp only [Cache.tally, installed, Option.bind_some]
    exact same.trans holds
  | stored =>
    have bound := cache.get?_store key key value
    have holds := cache.value?_store key value cache.pool.nextId
    rw [if_pos rfl] at bound holds
    refine ⟨_, Move.cache?_make_of_target found (m := .place c key value) rfl, bound, holds, ?_⟩
    rw [Move.effect, Cache.peek, bound, Option.bind_some, holds]

theorem Step.touched?_place {h : Host K V} {c : CacheId} {cache : Cache K V}
    (found : h.cache? c = some cache) (key : K) (value : V) :
    (⟨h, .place c key value⟩ : Step K V).touched? c = some cache.pool.nextId := by
  simp [touched?, found]

theorem Step.touched?_look {h : Host K V} {c : CacheId} {cache : Cache K V}
    (found : h.cache? c = some cache) (key : K) :
    (⟨h, .look c key⟩ : Step K V).touched? c = cache.liveSlot? key := by
  simp [touched?, found]

/-- What is touched holds a value then. -/
theorem Step.touched?_eq_some_iff {s : Step K V} {c : CacheId} {cache : Cache K V}
    (found : s.before.cache? c = some cache) (id : SlotId) :
    s.touched? c = some id ↔ ∃ key value, s.move.Touches c cache key id value := by
  obtain ⟨h, m⟩ := s
  constructor
  · intro touched
    have target : m.target = some c := by
      by_contra away
      rw [(untouching_of_away away).2] at touched
      cases touched
    cases m with
    | place d key value =>
      obtain rfl : d = c := Option.some.inj target
      rw [touched?_place found] at touched
      obtain rfl := Option.some.inj touched
      exact ⟨key, value, .stored value⟩
    | look d key =>
      obtain rfl : d = c := Option.some.inj target
      rw [touched?_look found] at touched
      obtain ⟨installed, live⟩ := Option.filter_eq_some_iff.mp touched
      obtain ⟨value, holds⟩ := Option.isSome_iff_exists.mp live
      exact ⟨key, value, .hit installed holds⟩
    | _ => cases touched
  · rintro ⟨key, value, touches⟩
    cases touches with
    | hit installed holds =>
      have live : cache.pool.isLive id = true := Option.isSome_iff_exists.mpr ⟨value, holds⟩
      rw [touched?_look found, Cache.liveSlot?, installed, Option.filter_some, if_pos live]
    | stored => exact touched?_place found key value

/-- A look-up that gives a value touches the slot that it finds the value in; one that does not touches
    nothing. -/
theorem Host.look_touched {h : Host K V} {c : CacheId} {cache : Cache K V}
    (found : h.cache? c = some cache) (key : K) :
    (∃ id value, (⟨h, .look c key⟩ : Step K V).touched? c = some id ∧
      ((Move.look c key).make h).2 = some value ∧ cache.table.get? key = some id ∧
      ((Move.look c key).make h).1.Finds c key id value) ∨
    ((⟨h, .look c key⟩ : Step K V).touched? c = none ∧ ((Move.look c key).make h).2 = none) := by
  cases touched : (⟨h, .look c key⟩ : Step K V).touched? c with
  | some id =>
    obtain ⟨_, value, ⟨installed, holds⟩⟩ := (Step.touched?_eq_some_iff found id).mp touched
    have gives := (Move.look_snd_eq_some_iff found key value).mpr ⟨id, .hit installed holds⟩
    exact Or.inl ⟨id, value, rfl, gives, installed, (Move.Touches.hit installed holds).finds found⟩
  | none =>
    refine Or.inr ⟨rfl, Option.eq_none_iff_forall_ne_some.mpr fun value gives => ?_⟩
    obtain ⟨id, reads⟩ := (Move.look_snd_eq_some_iff found key value).mp gives
    cases touched.symm.trans ((Step.touched?_eq_some_iff found id).mpr ⟨key, value, reads⟩)

/-! ### What moves do to the queue -/

namespace Cache

variable {c : Cache K V}

theorem queue_effect_of_mild {m : Move K V} (mild : m.mild = true) (board : PressureBoard) :
    (m.effect board c).queue = c.queue := by
  cases m with
  | releaseValue d key =>
    rw [Move.effect, releaseValueOf]
    split <;> rfl
  | takeOut d key =>
    rw [Move.effect, takeOut]
    split <;> rfl
  | _ => first | rfl | cases mild

theorem queue_touch (c : Cache K V) (key : K) :
    (c.touch key).1.queue = (c.table.get? key).elim c.queue fun id => (c.pin id).queue := by
  rw [touch]
  cases c.table.get? key with
  | none => rfl
  | some id =>
    dsimp only
    split <;> rfl

/-- What a move on a cache does to its pin queue: it takes all pins off, or it pins the slot that it
    touches, or it leaves the queue alone. -/
theorem queue_effect {h : Host K V} {d : CacheId} (found : h.cache? d = some c)
    (consistent : c.Consistent) {m : Move K V} (target : m.target = some d)
    (rests : m.asks = some d → h.Rests d) :
    (Step.unpins d ⟨h, m⟩ = true ∧ (m.effect h.board c).queue.ids = []) ∨
    (∃ id, ∃ pool : SlotPool K V, Step.unpins d ⟨h, m⟩ = false ∧
      Step.touched? d ⟨h, m⟩ = some id ∧ (m.effect h.board c).queue = (c.queue.pin pool id).1) ∨
    (Step.Untouching d ⟨h, m⟩ ∧ (m.effect h.board c).queue = c.queue) := by
  by_cases mild : m.mild = true
  · exact Or.inr (Or.inr ⟨Step.untouching_of_mild mild d, queue_effect_of_mild mild h.board⟩)
  · cases m with
    | build config => cases target
    | place e key value =>
      obtain rfl : e = d := Option.some.inj target
      exact Or.inr (Or.inl ⟨_, _, rfl, Step.touched?_place found key value, rfl⟩)
    | look e key =>
      obtain rfl : e = d := Option.some.inj target
      have read := Step.touched?_look found key
      have rests := rests rfl
      have looked : ((Move.look e key).effect h.board c).queue =
          (c.table.get? key).elim c.queue fun id => (c.pin id).queue := c.queue_touch key
      rw [liveSlot?] at read
      cases bound : c.table.get? key with
      | none =>
        rw [bound] at read looked
        exact Or.inr (Or.inr ⟨⟨rfl, read⟩, looked⟩)
      | some id =>
        have live := (rests.calm c found).isLive consistent (rests.swept c found) bound
        rw [bound, Option.filter_some, if_pos live] at read
        rw [bound] at looked
        exact Or.inr (Or.inl ⟨id, c.pool, rfl, read, looked⟩)
    | unpinAll e =>
      exact Or.inl ⟨decide_eq_true (Option.some.inj target), rfl⟩
    | _ => cases mild rfl

end Cache

/-- The pin queue of a cache is the tail of what was touched. A cache that is not there was not touched
    either. -/
structure Host.Tails (h : Host K V) (c : CacheId) (past : List (Step K V)) : Prop where
  tail : ∀ cache, h.cache? c = some cache →
    cache.queue.ids = (touches c past).rtake cache.queue.capacity
  absent : h.cache? c = none → touches c past = []

namespace Host.Tails

variable {c : CacheId} {past : List (Step K V)}

theorem step_of_absent {s : Step K V} (tails : s.before.Tails c past)
    (absent : s.before.cache? c = none) : s.after.Tails c (past ++ [s]) := by
  obtain ⟨h, m⟩ := s
  have untouched : Step.touched? c ⟨h, m⟩ = none := by
    cases m <;> simp [Step.touched?, absent]
  have nothing : touches c (past ++ [⟨h, m⟩]) = [] := by
    rw [touches_concat, tails.absent absent, untouched]
    exact ite_self _
  refine ⟨fun cache there => ?_, fun _ => nothing⟩
  rcases Move.exists_of_cache?_make m there with ⟨old, before, _⟩ | ⟨_, config, _, _, made⟩
  · rw [absent] at before
    cases before
  · rw [nothing, PinQueue.ids_create (Cache.new_assemble made).queue]
    simp [List.rtake]

theorem tail_effect {h : Host K V} {cache : Cache K V}
    (found : h.cache? c = some cache) (consistent : cache.Consistent) {m : Move K V}
    (target : m.target = some c) (rests : m.asks = some c → h.Rests c)
    (tail : cache.queue.ids = (touches c past).rtake cache.queue.capacity) :
    (m.effect h.board cache).queue.ids =
      (touches c (past ++ [⟨h, m⟩])).rtake cache.queue.capacity := by
  rcases Cache.queue_effect found consistent target rests with
    ⟨unpins, queue⟩ | ⟨id, pool, keeps, touched, queue⟩ | ⟨untouching, queue⟩
  · rw [touches_concat, if_pos unpins, queue]
    simp [List.rtake]
  · rw [touches_concat, keeps, touched, queue]
    exact PinQueue.ids_pin_rtake pool tail consistent.pins.bounded id
  · rw [touches_concat_of_untouching past untouching, queue, tail]

theorem step {s : Step K V} (tails : s.before.Tails c past) (consistent : s.before.Consistent)
    (rests : s.move.asks = some c → s.before.Rests c) : s.after.Tails c (past ++ [s]) := by
  obtain ⟨h, m⟩ := s
  cases found : h.cache? c with
  | none => exact tails.step_of_absent found
  | some cache =>
    have tail := tails.tail cache found
    have becomes := Move.cache?_make_of_some found m
    refine ⟨fun later there => ?_, fun gone => ?_⟩
    · rw [Step.after, becomes, Option.some.injEq] at there
      subst there
      rw [Move.effectOn]
      split
      · rename_i target
        rw [cache.capacity_effect m h.board]
        exact tail_effect found (consistent c cache found) target rests tail
      · rename_i away
        rw [touches_concat_of_untouching past (Step.untouching_of_away away)]
        exact tail
    · rw [Step.after, becomes] at gone
      cases gone

end Host.Tails

/-! ### What operations touch -/

theorem touches_between (c : CacheId) (past : List (Step K V)) {first last : List (Step K V)}
    {s : Step K V} (before : ∀ t ∈ first, t.move.mild = true)
    (after : ∀ t ∈ last, t.move.mild = true) (keeps : s.unpins c = false) :
    touches c (past ++ (first ++ s :: last)) = touches c past ++ (s.touched? c).toList := by
  have shape : past ++ (first ++ s :: last) = past ++ first ++ [s] ++ last := by
    simp only [List.append_assoc, List.cons_append, List.nil_append]
  rw [shape, touches_of_mild c _ after, touches_concat, keeps, touches_of_mild c _ before]
  rfl

namespace Work

variable {c : CacheId}

/-- No slot is made but to store a value. -/
theorem nextId_run (w : Work K V α) {h : Host K V} {cache : Cache K V}
    (found : h.cache? c = some cache)
    (keeps : ∀ s ∈ w.steps h, ∀ d key value, s.move ≠ .place d key value) :
    ∃ later, (w.run h).1.cache? c = some later ∧ later.pool.nextId = cache.pool.nextId := by
  apply w.invariant_of_steps (P := fun g => ∃ later, g.cache? c = some later ∧
    later.pool.nextId = cache.pool.nextId) _ ⟨cache, found, rfl⟩
  rintro s member ⟨later, there, same⟩
  refine ⟨_, Move.cache?_make_of_some there s.move, ?_⟩
  rw [Move.effectOn]
  split
  · exact (later.nextId_effect s.before.board (keeps s member)).trans same
  · exact same

end Work

omit [DecidableEq K] in
theorem Move.ne_place_of_mild {m : Move K V} (mild : m.mild = true) (d : CacheId) (key : K)
    (value : V) : m ≠ .place d key value := by
  rintro rfl
  cases mild

namespace Host.Ready

variable {h : Host K V} {c : CacheId} {cache : Cache K V} (ready : h.Ready c cache)

include ready

/-- A drain makes no slot. -/
theorem drained (limit : Nat) :
    ∃ later, ((Work.drain (runCallbacks limit) c).run h).1.Ready c later ∧ later.pending = [] ∧
      later.pool.nextId = cache.pool.nextId := by
  obtain ⟨later, _, drained, _, swept⟩ := ready.drain limit
  obtain ⟨same, there, next⟩ := (Work.drain (runCallbacks limit) c).nextId_run ready.found
    fun s member => Move.ne_place_of_mild (Work.mild_drain ready.found ready.quiet limit member)
  cases drained.found.symm.trans there
  exact ⟨later, drained, swept, next⟩

theorem get_touched (limit : Nat) (key : K) (past : List (Step K V)) :
    (∃ id value, ((Work.get (runCallbacks limit) c key).run h).2 = some value ∧
      touches c (past ++ (Work.get (runCallbacks limit) c key).steps h) = touches c past ++ [id] ∧
      ((Work.get (runCallbacks limit) c key).run h).1.Finds c key id value ∧
      id < cache.pool.nextId) ∨
    (((Work.get (runCallbacks limit) c key).run h).2 = none ∧
      touches c (past ++ (Work.get (runCallbacks limit) c key).steps h) = touches c past) := by
  obtain ⟨later, drained, _, next⟩ := ready.drained limit
  have touched : touches c (past ++ (Work.get (runCallbacks limit) c key).steps h) =
      touches c past ++
        (Step.touched? c ⟨((Work.drain (runCallbacks limit) c).run h).1, .look c key⟩).toList := by
    rw [Work.get, Work.steps_bind]
    exact touches_between c past (fun t member =>
      Work.mild_drain ready.found ready.quiet limit member) (fun _ member => by cases member) rfl
  rw [Work.run_get, touched]
  rcases Host.look_touched drained.found key with
    ⟨id, value, reads, gives, installed, finds⟩ | ⟨reads, gives⟩
  · have old := drained.here.lt_nextId installed
    exact Or.inl ⟨id, value, gives, by rw [reads]; rfl, finds, next ▸ old⟩
  · exact Or.inr ⟨gives, by rw [reads]; exact List.append_nil _⟩

/-- After a drain the slot that is made is the one that was next before it. -/
theorem place_touched (limit : Nat) (key : K) (value : V) (past first last : List (Step K V))
    (also : ∀ t ∈ first, t.move.mild = true) (mild : ∀ t ∈ last, t.move.mild = true) :
    let drained := ((Work.drain (runCallbacks limit) c).run h).1
    touches c (past ++ ((Work.drain (runCallbacks limit) c).steps h ++ (first ++
        ⟨drained, .place c key value⟩ :: last))) = touches c past ++ [cache.pool.nextId] ∧
      ((Move.place c key value).make drained).1.Finds c key cache.pool.nextId value := by
  intro drained
  obtain ⟨later, settled, _, next⟩ := ready.drained limit
  have made := Step.touched?_place settled.found key value
  refine ⟨?_, next ▸ (Move.Touches.stored value).finds settled.found⟩
  rw [← List.append_assoc _ first, touches_between c past _ mild rfl, made, next]
  · rfl
  · intro t member
    rcases List.mem_append.mp member with member | member
    · exact Work.mild_drain ready.found ready.quiet limit member
    · exact also t member

theorem insert_touched (limit : Nat) (key : K) (value : V) (past : List (Step K V)) :
    touches c (past ++ (Work.insert (runCallbacks limit) c key value).steps h) =
        touches c past ++ [cache.pool.nextId] ∧
      ((Work.insert (runCallbacks limit) c key value).run h).1.Finds c key cache.pool.nextId
        value := by
  rw [Work.run_insert, Work.insert, Work.steps_bind]
  apply ready.place_touched limit key value past [] [] <;> exact fun _ member => by cases member

theorem insertShared_touched (limit : Nat) (key : K) (value : V) (past : List (Step K V)) :
    touches c (past ++ (Work.insertShared limit c key value).steps h) =
        touches c past ++ [cache.pool.nextId] ∧
      ((Work.insertShared limit c key value).run h).1.Finds c key cache.pool.nextId value := by
  rw [Work.run_insertShared, Work.insertShared, Work.steps_bind]
  refine ready.place_touched limit key value past [⟨_, .view⟩] [⟨_, .view⟩] ?_ ?_
  · exact fun t member => List.mem_singleton.mp member ▸ rfl
  · exact fun t member => List.mem_singleton.mp member ▸ rfl

omit ready in
/-- A source that makes no requests has one slot made for each value that it gives. -/
theorem storeAll_touched {h : Host K V} {cache : Cache K V} (ready : h.Ready c cache) (limit : Nat)
    {source : List (Routine K V (Except Panic (K × V)))} {given : List (Except Panic (K × V))}
    (gives : List.Forall₂ Routine.Gives source given) (past : List (Step K V)) :
    touches c (past ++ (Work.storeAll limit c source).steps h) = touches c past ++
      List.range' cache.pool.nextId (given.takeWhile Except.isOk).length := by
  induction gives generalizing h cache past with
  | nil => exact (congrArg (touches c) (List.append_nil past)).trans (List.append_nil _).symm
  | @cons next first rest others gives _ ih =>
    have silent := Work.always_follow gives limit h
    obtain ⟨result, same⟩ := Work.run_follow gives limit h
    have asked := ready.work (Work.inherited_settles.follow limit next)
      ((same c).trans ready.found)
    rw [Work.storeAll, Work.steps_bind, result]
    cases first with
    | error p =>
      have none := touches_of_mild c past silent
      dsimp only
      rw [Work.steps_pure, List.append_nil, none]
      exact (List.append_nil _).symm
    | ok e =>
      have stored := (asked.place e.1 e.2).1
      have counted := cache.nextId_store e.1 e.2
      have made := Step.touched?_place asked.found e.1 e.2
      dsimp only
      rw [Work.steps_bind, Work.steps_make, ← List.append_assoc, ← List.append_assoc]
      have placed : touches c (past ++ (Work.follow limit next).steps h ++
          [⟨((Work.follow limit next).run h).1, .place c e.1 e.2⟩]) =
            touches c past ++ [cache.pool.nextId] := by
        rw [touches_concat, touches_of_mild c past silent, made]
        rfl
      refine (ih stored _).trans ?_
      rw [placed, counted, List.append_assoc]
      rfl

/-- Neither a look-up nor code of the caller that makes no requests makes a slot. -/
theorem missed (limit : Nat) (key : K) {β : Type} {r : Routine K V β} {b : β} (gives : r.Gives b) :
    ∃ later, ((Work.follow limit r).run
        ((Work.get (runCallbacks limit) c key).run h).1).1.Ready c later ∧
      later.pool.nextId = cache.pool.nextId := by
  obtain ⟨drained, settled, _, next⟩ := ready.drained limit
  have looked : ((Work.get (runCallbacks limit) c key).run h).1.Ready c (drained.touch key).1 := by
    rw [Work.run_get]
    exact (settled.look key).1
  have same : (drained.touch key).1.pool.nextId = drained.pool.nextId :=
    drained.nextId_effect (m := .look c key) .empty fun _ _ _ same => by cases same
  obtain ⟨_, stays⟩ := Work.run_follow gives limit ((Work.get (runCallbacks limit) c key).run h).1
  exact ⟨_, looked.work (Work.inherited_settles.follow limit r) ((stays c).trans looked.found),
    same.trans next⟩

/-- A value that has to be computed is stored in the slot that was next before. -/
theorem getOrCompute_touched (limit : Nat) (key : K) {compute : Routine K V (Except Panic V)}
    {given : Except Panic V} (gives : compute.Gives given) (past : List (Step K V)) :
    (∃ id value computed,
      ((Work.getOrCompute limit c key compute).run h).2 = .ok (value, computed) ∧
      touches c (past ++ (Work.getOrCompute limit c key compute).steps h) =
        touches c past ++ [id] ∧
      ((Work.getOrCompute limit c key compute).run h).1.Finds c key id value ∧
      (computed = true ↔ id = cache.pool.nextId)) ∨
    (∃ p, ((Work.getOrCompute limit c key compute).run h).2 = .error p ∧
      touches c (past ++ (Work.getOrCompute limit c key compute).steps h) = touches c past) := by
  rw [Work.getOrCompute, Work.run_bind, Work.steps_bind]
  rcases ready.get_touched limit key past with ⟨id, value, got, touched, finds, old⟩ | ⟨got, touched⟩
  · rw [got]
    dsimp only
    rw [Work.run_pure, Work.steps_pure, List.append_nil]
    exact Or.inl ⟨id, value, false, rfl, touched, finds, (fun same => by cases same),
      fun new => absurd new old.ne⟩
  · obtain ⟨later, asked, next⟩ := ready.missed limit key gives
    have result := (Work.run_follow gives limit
      ((Work.get (runCallbacks limit) c key).run h).1).1
    -- The code that computes the value makes no requests, so that it touches nothing.
    have silent := touches_of_mild c (past ++ (Work.get (runCallbacks limit) c key).steps h)
      (Work.always_follow gives limit ((Work.get (runCallbacks limit) c key).run h).1)
    rw [got]
    dsimp only
    rw [Work.run_bind, Work.steps_bind, result, ← List.append_assoc, ← List.append_assoc]
    cases given with
    | error p =>
      dsimp only
      rw [Work.run_pure, Work.steps_pure, List.append_nil, silent]
      exact Or.inr ⟨p, rfl, touched⟩
    | ok value =>
      obtain ⟨stores, finds⟩ := asked.insert_touched limit key value
        (past ++ (Work.get (runCallbacks limit) c key).steps h ++
          (Work.follow limit compute).steps ((Work.get (runCallbacks limit) c key).run h).1)
      dsimp only
      rw [Work.run_bind, Work.steps_bind, Work.run_pure, Work.steps_pure, List.append_nil, stores,
        silent, touched]
      refine Or.inl ⟨cache.pool.nextId, value, true, rfl, ?_, next ▸ finds, fun _ => rfl, fun _ => rfl⟩
      rw [next]

end Host.Ready

/-! ### What commands touch -/

namespace Session

variable [BEq V] {s : Session K V} {c : CacheId} {cache : Cache K V}

theorem touches_command (found : s.host.cache? c = some cache) (limit : Nat)
    (command : Command K V) (past : List (Step K V)) :
    ∃ viewed, touches c viewed = touches c past ∧
      touches c (past ++ s.history limit [.on c command]) =
        touches c (viewed ++ (command.workOn limit s.cursors c cache).steps s.host) := by
  refine ⟨past ++ [⟨s.host, .view⟩], touches_of_mild c past ?_, ?_⟩
  · exact fun t member => List.mem_singleton.mp member ▸ rfl
  · rw [history_command found, List.append_cons]

theorem touches_request (found : s.host.cache? c = some cache) (limit : Nat)
    (asked : Request K V) (past : List (Step K V)) :
    ∃ viewed, touches c viewed = touches c past ∧
      touches c (past ++ s.history limit [.on c (.request asked)]) =
        touches c (viewed ++
          (Work.performOn (Host.runCallbacks limit) c cache asked).steps s.host) := by
  obtain ⟨viewed, same, touched⟩ := touches_command found limit (.request asked) past
  rw [Command.workOn, Work.steps_bind, Work.steps_pure, List.append_nil, Work.steps_serve found,
    List.append_cons, ← List.append_assoc] at touched
  refine ⟨viewed ++ [⟨s.host, .view⟩], (touches_of_mild c viewed ?_).trans same, touched.trans ?_⟩
  · exact fun t member => List.mem_singleton.mp member ▸ rfl
  · exact touches_of_mild c _ fun t member => List.mem_singleton.mp member ▸ rfl

theorem touches_mild (found : s.host.cache? c = some cache) (quiet : cache.Quiet) (limit : Nat)
    {command : Command K V} (mild : command.Mild) (past : List (Step K V)) :
    touches c (past ++ s.history limit [.on c command]) = touches c past := by
  obtain ⟨viewed, same, touched⟩ := touches_command found limit command past
  rw [touched, touches_of_mild c viewed, same]
  exact fun t member => Work.mild_workOn found quiet limit mild s.cursors member

/-- Clearing a cache forgets what was touched. -/
theorem touches_clear (found : s.host.cache? c = some cache) (limit : Nat)
    (past : List (Step K V)) : touches c (past ++ s.history limit [.on c (.request .clear)]) = [] := by
  obtain ⟨viewed, _, touched⟩ := touches_request found limit .clear past
  have unpins : (⟨s.host, .unpinAll c⟩ : Step K V).unpins c = true := decide_eq_true rfl
  rw [touched, Work.performOn, Work.clear, Work.steps_bind, Work.steps_pure, List.append_nil,
    Work.steps_bind, Work.steps_make, List.singleton_append, List.append_cons, touches_of_mild,
    touches_concat, if_pos unpins]
  intro t member
  rw [Work.steps_bind, List.mem_append] at member
  rcases member with member | member <;> exact List.mem_singleton.mp member ▸ rfl

section

variable (ready : s.host.Ready c cache) (limit : Nat) (past : List (Step K V))

include ready

omit ready in
theorem finds_step_request (found : s.host.cache? c = some cache) (limit : Nat)
    {asked : Request K V} {key : K} {id : SlotId} {value : V}
    (finds : ((Work.performOn (Host.runCallbacks limit) c cache asked).run s.host).1.Finds c key id
      value) : (s.step limit c (.request asked)).1.host.Finds c key id value := by
  obtain ⟨later, there, holds⟩ := finds
  exact ⟨later, (cache?_step_request found limit asked c).trans there, holds⟩

theorem touches_get (key : K) :
    (∃ id value, (s.step limit c (.request (.get key))).2 = .reply (.value (some value)) ∧
      touches c (past ++ s.history limit [.on c (.request (.get key))]) = touches c past ++ [id] ∧
      (s.step limit c (.request (.get key))).1.host.Finds c key id value) ∨
    ((s.step limit c (.request (.get key))).2 = .reply (.value none) ∧
      touches c (past ++ s.history limit [.on c (.request (.get key))]) = touches c past) := by
  obtain ⟨viewed, same, touched⟩ := touches_request ready.found limit (.get key) past
  rw [answer_step_request ready.found, touched, ← same, Work.performOn, Work.steps_map,
    Work.run_map]
  rcases ready.get_touched limit key viewed with ⟨id, value, got, reads, finds, _⟩ | ⟨got, reads⟩
  · refine Or.inl ⟨id, value, by rw [got], reads, finds_step_request ready.found limit ?_⟩
    rw [Work.performOn, Work.run_map]
    exact finds
  · exact Or.inr ⟨by rw [got], reads⟩

theorem touches_insert (key : K) (value : V) {command : Command K V}
    (stores : command = .request (.insert key value) ∨ command = .insertShared key value ∨
      command = .insertOptional key (some value)) :
    touches c (past ++ s.history limit [.on c command]) = touches c past ++ [cache.pool.nextId] ∧
      (s.step limit c command).1.host.Finds c key cache.pool.nextId value := by
  rcases stores with rfl | rfl | rfl
  · obtain ⟨viewed, same, touched⟩ := touches_request ready.found limit (.insert key value) past
    obtain ⟨made, finds⟩ := ready.insert_touched limit key value viewed
    refine ⟨?_, finds_step_request ready.found limit ?_⟩
    · rw [touched, ← same, Work.performOn, Work.steps_map, made]
    · rw [Work.performOn, Work.run_map]
      exact finds
  · obtain ⟨viewed, same, touched⟩ := touches_command ready.found limit (.insertShared key value) past
    obtain ⟨made, finds⟩ := ready.insertShared_touched limit key value viewed
    rw [touched, ← same, host_step ready.found, Command.workOn, Work.steps_bind, Work.run_bind,
      Work.run_pure, Work.steps_pure, List.append_nil]
    exact ⟨made, finds⟩
  · obtain ⟨viewed, same, touched⟩ :=
      touches_command ready.found limit (.insertOptional key (some value)) past
    obtain ⟨made, finds⟩ := ready.insert_touched limit key value viewed
    rw [touched, ← same, host_step ready.found, Command.workOn, Work.steps_bind, Work.run_bind,
      Work.insertOptional, Work.steps_map, Work.run_map]
    dsimp only
    rw [Work.run_pure, Work.steps_pure, List.append_nil]
    exact ⟨made, finds⟩

theorem touches_insertAll {source : List (Routine K V (Except Panic (K × V)))}
    {given : List (Except Panic (K × V))} (gives : List.Forall₂ Routine.Gives source given) :
    touches c (past ++ s.history limit [.on c (.insertAll source)]) = touches c past ++
      List.range' cache.pool.nextId (given.takeWhile Except.isOk).length := by
  obtain ⟨viewed, same, touched⟩ := touches_command ready.found limit (.insertAll source) past
  obtain ⟨later, drained, _, next⟩ := ready.drained limit
  have silent := touches_of_mild c viewed fun t member =>
    Work.mild_drain ready.found ready.quiet limit member
  rw [touched, Command.workOn, Work.steps_bind, Work.steps_pure, List.append_nil, Work.insertAll,
    Work.steps_bind, ← List.append_assoc, drained.storeAll_touched limit gives, silent, same, next]

theorem touches_getOrCompute (key : K) {compute : Routine K V (Except Panic V)}
    {given : Except Panic V} (gives : compute.Gives given) :
    (∃ id value computed,
      (s.step limit c (.getOrCompute key compute)).2 = .obtained value computed ∧
      touches c (past ++ s.history limit [.on c (.getOrCompute key compute)]) =
        touches c past ++ [id] ∧
      (s.step limit c (.getOrCompute key compute)).1.host.Finds c key id value ∧
      (computed = true ↔ id = cache.pool.nextId)) ∨
    (∃ p, (s.step limit c (.getOrCompute key compute)).2 = .fault (.panic p) ∧
      touches c (past ++ s.history limit [.on c (.getOrCompute key compute)]) =
        touches c past) := by
  obtain ⟨viewed, same, touched⟩ := touches_command ready.found limit (.getOrCompute key compute) past
  rw [touched, ← same, host_step ready.found, answer_step ready.found, Command.workOn,
    Work.steps_bind, Work.run_bind, Work.run_pure, Work.steps_pure, List.append_nil]
  rcases ready.getOrCompute_touched limit key gives viewed with
    ⟨id, value, computed, got, made⟩ | ⟨p, got, made⟩
  · exact Or.inl ⟨id, value, computed, by rw [got]; rfl, made⟩
  · exact Or.inr ⟨p, by rw [got]; rfl, made⟩

end

/-! ### Runs -/

section

variable {limit : Nat} {board : PressureBoard} {acts : List (Act K V)}
  (quiet : ((empty board).run limit acts).1.host.QuietAt c)

include quiet

/-- At each point of time of a run the queue is the tail of what was touched before. -/
theorem tails_states {i : Nat} {h : Host K V}
    (there : ((empty board).states limit acts)[i]? = some h) :
    h.Tails c (((empty board).history limit acts).take i) := by
  apply along_states (P := fun past g => g.Tails c past) _ _ there
  · intro past t member tails
    exact tails.step (consistent_before limit board acts t member) (rests_of_asks quiet member)
  · exact ⟨(fun _ found => by cases found), fun _ => rfl⟩

/-- A move that touches nothing and takes no pins off leaves the queue alone. -/
theorem queue_of_untouching {t : Step K V} (member : t ∈ (empty board).history limit acts)
    {before after : Cache K V} (found : t.before.cache? c = some before)
    (untouching : t.Untouching c) (there : t.after.cache? c = some after) :
    after.queue = before.queue := by
  have becomes := Move.cache?_make_of_some found t.move
  obtain rfl := Option.some.inj (there.symm.trans becomes)
  rw [Move.effectOn]
  split
  · rename_i target
    have consistent := consistent_before limit board acts t member c before found
    rcases Cache.queue_effect found consistent target (rests_of_asks quiet member) with
      ⟨unpins, _⟩ | ⟨id, _, _, touched, _⟩ | ⟨_, queue⟩
    · cases untouching.1.symm.trans unpins
    · cases untouching.2.symm.trans touched
    · exact queue
  · rfl

/-- With a quiet cleaner the pin queue of a cache is, at each point of time, the tail of what was touched
    since the cache was last cleared: of each slot that a value was stored in, when it was made, and of
    each slot that a look-up found its value in. So it is as long as it can be, up to the number of
    pins. What is touched is told command by command, too; nothing else adds a pin or takes one off,
    whatever becomes of the slots. -/
theorem pins_last_touches :
    (∀ (i : Nat) (h : Host K V) (cache : Cache K V),
      ((empty board).states limit acts)[i]? = some h → h.cache? c = some cache →
      let touched := touches c (((empty board).history limit acts).take i)
      cache.queue.ids = touched.rtake cache.queue.capacity ∧
        cache.pinned = min cache.queue.capacity touched.length) ∧
    (∀ t ∈ (empty board).history limit acts, ∀ cache, t.before.cache? c = some cache →
      (∀ id, t.touched? c = some id ↔ ∃ key value, t.move.Touches c cache key id value) ∧
      (∀ key id value, t.move.Touches c cache key id value → t.after.Finds c key id value) ∧
      (∀ key value, ((Move.look c key).make t.before).2 = some value ↔
        ∃ id, (Move.look c key).Touches c cache key id value) ∧
      (t.Untouching c → ∀ after, t.after.cache? c = some after → after.queue = cache.queue)) ∧
    ∀ cache, ((empty board).run limit acts).1.host.cache? c = some cache →
      let s := ((empty board).run limit acts).1
      let past := touches c ((empty board).history limit acts)
      let now := fun command => touches c ((empty board).history limit (acts ++ [.on c command]))
      (∀ command, command.Mild → now command = past) ∧
      now (.request .clear) = [] ∧
      (∀ key, (∃ id value,
          (s.step limit c (.request (.get key))).2 = .reply (.value (some value)) ∧
          now (.request (.get key)) = past ++ [id] ∧
          (s.step limit c (.request (.get key))).1.host.Finds c key id value) ∨
        ((s.step limit c (.request (.get key))).2 = .reply (.value none) ∧
          now (.request (.get key)) = past)) ∧
      (∀ key value command, command = .request (.insert key value) ∨
          command = .insertShared key value ∨ command = .insertOptional key (some value) →
        now command = past ++ [cache.pool.nextId] ∧
          (s.step limit c command).1.host.Finds c key cache.pool.nextId value) ∧
      (∀ source given, List.Forall₂ Routine.Gives source given →
        now (.insertAll source) = past ++
          List.range' cache.pool.nextId (given.takeWhile Except.isOk).length) ∧
      ∀ key compute given, compute.Gives given →
        (∃ id value computed,
          (s.step limit c (.getOrCompute key compute)).2 = .obtained value computed ∧
          now (.getOrCompute key compute) = past ++ [id] ∧
          (s.step limit c (.getOrCompute key compute)).1.host.Finds c key id value ∧
          (computed = true ↔ id = cache.pool.nextId)) ∨
        (∃ p, (s.step limit c (.getOrCompute key compute)).2 = .fault (.panic p) ∧
          now (.getOrCompute key compute) = past) := by
  refine ⟨fun i h cache there found => ?_, fun t member cache found => ?_, fun cache found => ?_⟩
  · have tail := (tails_states quiet there).tail cache found
    refine ⟨tail, ?_⟩
    rw [Cache.pinned, PinQueue.length, tail, List.rtake, List.length_drop]
    omega
  · exact ⟨Step.touched?_eq_some_iff found, fun key id value touches => touches.finds found,
      Move.look_snd_eq_some_iff found, fun untouching after there =>
        queue_of_untouching quiet member found untouching there⟩
  · intro s past now
    have ready : s.host.Ready c cache := ⟨found, consistent_run limit board acts,
      (accounts_run limit board acts).1, quiet cache found⟩
    simp only [now, history_append]
    exact ⟨fun command mild => touches_mild found ready.quiet limit mild _,
      touches_clear found limit _, touches_get ready limit _,
      fun key value command stores => touches_insert ready limit _ key value stores,
      fun source given gives => touches_insertAll ready limit _ gives,
      fun key compute given gives => touches_getOrCompute ready limit _ key gives⟩

end

end Session

end

/-- A cache with room for two pins, and with the cleaner that raises a signal or panics. -/
def Config.pinning : Config UInt64 Nat :=
  { Config.grumbling with pinCapacity := 2, policy := .softLimit 2 Nat.two_pos, signal := some 0 }

/-- One of two values is looked up twice and taken out, a third value is not found, and a fourth one is
    stored. -/
def pinningActs : List (Act UInt64 Nat) :=
  [.build .pinning, .on 0 (.request (.insert 1 10)), .on 0 (.request (.insert 2 20)),
    .on 0 (.request (.get 1)), .on 0 (.request (.get 1)), .on 0 (.request (.remove 1)),
    .on 0 (.request (.get 3)), .on 0 (.request (.insert 4 40))]

/-- The slot of the value that was taken out keeps one of the two pins. -/
theorem pins_last_touches_pinning :
    ∃ cache, ((Session.empty ⟨#[0]⟩).run 1 pinningActs).1.host.cache? 0 = some cache ∧
      touches 0 ((Session.empty ⟨#[0]⟩).history 1 pinningActs) = [0, 1, 0, 0, 2] ∧
      cache.queue.ids = [0, 2] ∧ cache.pinned = 2 ∧
      touches 0 ((Session.empty ⟨#[0]⟩).history 1
        (pinningActs ++ [.on 0 (.request (.reclaim 2))])) = [0, 1, 0, 0, 2] := by
  have touched : touches 0 ((Session.empty ⟨#[0]⟩).history 1 pinningActs) = [0, 1, 0, 0, 2] := by
    decide +kernel
  have shown : (((Session.empty ⟨#[0]⟩).run 1 pinningActs).1.host.cache? 0).map (fun cache =>
      cache.queue.capacity) = some 2 := by decide +kernel
  obtain ⟨cache, found, capacity⟩ := Option.map_eq_some_iff.mp shown
  have built : (((Session.empty ⟨#[0]⟩).act 1 (.build Config.pinning)).1.host.cache? 0).map
      Cache.cleaner = some Config.grumbling.cleaner := rfl
  obtain ⟨made, there, configured⟩ := Option.map_eq_some_iff.mp built
  have quiet : ((Session.empty ⟨#[0]⟩).run 1 pinningActs).1.host.QuietAt 0 := by
    obtain ⟨_, same, grows⟩ := Host.grows_run (Act.workAll 1 [] (pinningActs.drop 1))
      ((Session.empty ⟨#[0]⟩).act 1 (.build Config.pinning)).1.host 0 made there
    intro last ends
    rw [pinningActs, Session.run_cons] at ends
    obtain rfl := Option.some.inj (ends.symm.trans same)
    exact quiet_grumbling (grows.cleaner.trans configured)
  obtain ⟨tails, _, commands⟩ := Session.pins_last_touches quiet
  have last : ((Session.empty ⟨#[0]⟩).states 1 pinningActs)[((Session.empty ⟨#[0]⟩).history 1
      pinningActs).length]? = some ((Session.empty ⟨#[0]⟩).run 1 pinningActs).1.host := by
    simp [Session.states]
  obtain ⟨ids, length⟩ := tails _ _ cache last found
  rw [List.take_length, touched, capacity] at ids length
  exact ⟨cache, found, touched, ids, length,
    ((commands cache found).1 (.request (.reclaim 2)) rfl).trans touched⟩

end ReclaimableCache
