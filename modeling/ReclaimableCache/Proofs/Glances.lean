import ReclaimableCache.Proofs.Order

/-!
# Predicates that only look

A predicate that looks at other caches than the one that is walked over, and raises signals, but does
nothing else and does not remember what it was asked, answers the same about an entry whenever it is
asked about it. Entries may be taken out of a table and signals may be raised in any order; hence such
a predicate is steady.
-/

namespace ReclaimableCache

variable {K V α β : Type}

/-- Whether a request only looks at a cache. -/
def Request.looks : Request K V → Bool
  | peek _ | containsKey _ | pending | length => true
  | _ => false

/-- Code that looks at other caches than one and raises signals, and does nothing else. -/
def Routine.LooksBeside (c : CacheId) : Routine K V α → Prop
  | done _ => True
  | ask _ (.raise _) next => ∀ reply, (next reply).LooksBeside c
  | ask d request next => request.looks = true ∧ d ≠ c ∧ ∀ reply, (next reply).LooksBeside c

/-! ### Any order will do -/

theorem PressureBoard.raise_comm (b : PressureBoard) (s t : SignalId) :
    (b.raise s).raise t = (b.raise t).raise s := by
  refine congrArg PressureBoard.mk (Array.ext_getElem? fun i => ?_)
  simp only [raise, Array.getElem?_modify]
  split <;> split <;> rfl

/-- Signals may be raised in any order. -/
theorem PressureBoard.foldl_raise_perm {signals others : List SignalId}
    (perm : others.Perm signals) (b : PressureBoard) :
    others.foldl raise b = signals.foldl raise b :=
  haveI : RightCommutative raise := ⟨raise_comm⟩
  perm.foldl_eq b

namespace ShardedMap

variable (m : ShardedMap K)

theorem modifyShard_comm {f g : Shard K → Shard K} (comm : ∀ s, g (f s) = f (g s))
    (i j first second size : Nat) :
    (m.modifyShard i f first).modifyShard j g size =
      (m.modifyShard j g second).modifyShard i f size := by
  have shards : (m.shards.modify i f).modify j g = (m.shards.modify j g).modify i f := by
    refine Array.ext_getElem? fun k => ?_
    simp only [Array.getElem?_modify]
    split <;> split <;> cases m.shards[k]? <;> simp [comm]
  rw [modifyShard, modifyShard, modifyShard, modifyShard, mk.injEq]
  exact ⟨rfl, shards, rfl⟩

variable [DecidableEq K]

/-- Entries may be taken out in any order. -/
theorem erase_comm (key k : K) : (m.erase key).erase k = (m.erase k).erase key := by
  by_cases same : k = key
  · rw [same]
  have other : ¬ key = k := fun equal => same equal.symm
  have left : (m.erase key).contains k = m.contains k := by
    rw [contains, get?_erase, if_neg same, contains]
  have right : (m.erase k).contains key = m.contains key := by
    rw [contains, get?_erase, if_neg other, contains]
  have shards : ∀ s : Shard K, (s.erase key).erase k = (s.erase k).erase key := by
    intro s
    rw [Shard.erase, Shard.erase, Shard.erase, Shard.erase, List.filter_filter, List.filter_filter]
    simp only [Bool.and_comm]
  rw [erase.eq_def (m.erase key), erase.eq_def (m.erase k), left, right,
    (m.sameShape_erase key).shardIndex, (m.sameShape_erase k).shardIndex]
  by_cases first : m.contains key = true <;> by_cases second : m.contains k = true <;>
    simp only [erase, first, second, if_true, if_false, Bool.false_eq_true]
  exact m.modifyShard_comm shards _ _ _ _ _

/-- Takes the entries of keys out one after the other. -/
def eraseAll (keys : List K) : ShardedMap K := keys.foldl erase m

theorem eraseAll_perm {keys others : List K} (perm : others.Perm keys) :
    m.eraseAll others = m.eraseAll keys :=
  haveI : RightCommutative (erase (K := K)) := ⟨fun m key k => m.erase_comm key k⟩
  perm.foldl_eq m

theorem get?_eraseAll {keys : List K} {k : K} (stays : k ∉ keys) :
    (m.eraseAll keys).get? k = m.get? k := by
  induction keys generalizing m with
  | nil => rfl
  | cons key keys ih =>
    rw [List.mem_cons, not_or] at stays
    obtain ⟨other, stays⟩ := stays
    rw [eraseAll, List.foldl_cons, ← eraseAll, ih _ stays, get?_erase, if_neg other]

theorem size_eraseAll_le (keys : List K) : (m.eraseAll keys).size ≤ m.size := by
  induction keys generalizing m with
  | nil => exact Nat.le_refl _
  | cons key keys ih =>
    refine Nat.le_trans (ih _) ?_
    rw [erase]
    split
    · exact Nat.sub_le _ _
    · exact Nat.le_refl _

end ShardedMap

section

variable [DecidableEq K]

/-! ### Work that only looks -/

/-- On the second host signals were raised, and nothing was done to a cache. -/
structure Host.Raises (h g : Host K V) (signals : List SignalId) : Prop where
  caches : g.caches = h.caches
  aside : g.aside = (signals.foldl PressureBoard.raise h.board, h.cleanings, h.active)

/-- The second host has the same caches, but that one of them may be another. -/
structure Host.Beside (c : CacheId) (h g : Host K V) : Prop where
  others : ∀ d, d ≠ c → g.cache? d = h.cache? d
  has : (g.cache? c).isSome = (h.cache? c).isSome

namespace Host.Beside

variable {c : CacheId} {h g f : Host K V} (beside : h.Beside c g)

include beside

omit [DecidableEq K]

theorem isSome (d : CacheId) : (g.cache? d).isSome = (h.cache? d).isSome := by
  by_cases same : d = c
  · rw [same, beside.has]
  · rw [beside.others d same]

theorem of_caches (same : f.caches = g.caches) : h.Beside c f := by
  have caches := Host.cache?_of_caches same
  refine ⟨fun d other => ?_, ?_⟩
  · rw [caches, beside.others d other]
  · rw [caches, beside.has]

end Host.Beside

/-- The work raises signals and does nothing else on a host, and ends with a result. -/
structure Work.Glances (w : Work K V α) (signals : List SignalId) (result : α) (h : Host K V) :
    Prop where
  raises : h.Raises (w.run h).1 signals
  result : (w.run h).2 = result
  calls : w.calls h = []
  still : ∀ s ∈ w.steps h, s.before.caches = h.caches

namespace Work

variable {w : Work K V α} {f : α → Work K V β} {signals others : List SignalId} {a : α} {b : β}
  {h : Host K V}

theorem glances_pure (a : α) (h : Host K V) : (pure a : Work K V α).Glances [] a h :=
  ⟨⟨rfl, rfl⟩, rfl, rfl, fun _ none => by cases none⟩

theorem Glances.bind (first : w.Glances signals a h)
    (second : (f a).Glances others b (w.run h).1) : (w >>= f).Glances (signals ++ others) b h := by
  have begun := first.raises.aside
  simp only [Host.aside, Prod.mk.injEq] at begun
  have same := first.result
  refine ⟨⟨?_, ?_⟩, ?_, ?_, fun s member => ?_⟩
  · rw [run_bind, same]
    exact second.raises.caches.trans first.raises.caches
  · rw [run_bind, same, second.raises.aside, begun.1, begun.2.1, begun.2.2, List.foldl_append]
  · rw [run_bind, same, second.result]
  · rw [calls_bind, same, first.calls, second.calls, List.append_nil]
  · rw [steps_bind, same] at member
    rcases List.mem_append.mp member with earlier | later
    · exact first.still s earlier
    · exact (second.still s later).trans first.raises.caches

/-- A view changes nothing. -/
theorem Glances.after_view {f : Host K V → Work K V α} (rest : (f h).Glances signals a h) :
    (make (.view : Move K V) >>= f).Glances signals a h :=
  have viewed : (make (.view : Move K V)).Glances [] h h :=
    ⟨⟨rfl, rfl⟩, rfl, rfl, fun s member => by rw [List.mem_singleton.mp member]⟩
  viewed.bind rest

/-- A signal is raised through a cache that is there. -/
theorem glances_raise (limit : Nat) (c : CacheId) (signal : SignalId) (h : Host K V) :
    (Host.serve limit c (.raise signal)).Glances (if (h.cache? c).isSome then [signal] else [])
      (if (h.cache? c).isSome then Reply.done else .noCache) h := by
  apply Glances.after_view
  cases h.cache? c with
  | none => exact glances_pure Reply.noCache h
  | some cache =>
    refine ⟨⟨rfl, rfl⟩, rfl, rfl, fun s member => ?_⟩
    rcases List.mem_cons.mp member with rfl | member
    · rfl
    · rw [List.mem_singleton.mp member]
      rfl

/-- A cache is looked at, and what is seen depends on it alone. -/
theorem glances_look {request : Request K V} (looks : request.looks = true) (limit : Nat)
    (c : CacheId) (h : Host K V) :
    ∃ reply, ∀ g : Host K V, g.cache? c = h.cache? c →
      (Host.serve limit c request).Glances [] reply g := by
  cases found : h.cache? c with
  | none =>
    refine ⟨.noCache, fun g same => ?_⟩
    apply Glances.after_view
    rw [same]
    exact glances_pure _ g
  | some cache =>
    have seen : ∃ reply, performOn (Host.runCallbacks limit) c cache request = pure reply := by
      cases request <;> first | exact ⟨_, rfl⟩ | cases looks
    obtain ⟨reply, seen⟩ := seen
    refine ⟨reply, fun g same => ?_⟩
    apply Glances.after_view
    rw [same]
    dsimp only
    rw [seen]
    exact ⟨⟨rfl, rfl⟩, rfl, rfl, fun s member => by rw [List.mem_singleton.mp member]⟩

/-- What such code answers, and which signals it raises, do not depend on the cache that it does not
    look at. -/
theorem glances_routine (limit : Nat) (c : CacheId) {r : Routine K V α} (looks : r.LooksBeside c)
    (h : Host K V) :
    ∃ signals answered, ∀ g : Host K V, h.Beside c g →
      (r.work (Host.serve limit)).Glances signals answered g := by
  induction r with
  | done result => exact ⟨[], ([], result), fun g _ => glances_pure _ g⟩
  | ask d request next ih =>
    have goes : ∃ signals reply, (∀ reply, (next reply).LooksBeside c) ∧ ∀ g : Host K V,
        h.Beside c g → (Host.serve limit d request).Glances signals reply g := by
      by_cases raises : ∃ signal, request = .raise signal
      · obtain ⟨signal, rfl⟩ := raises
        refine ⟨if (h.cache? d).isSome then [signal] else [],
          if (h.cache? d).isSome then .done else .noCache, looks, fun g beside => ?_⟩
        rw [← beside.isSome d]
        exact glances_raise limit d signal g
      · have only : request.looks = true ∧ d ≠ c ∧ ∀ reply, (next reply).LooksBeside c := by
          cases request <;> first | exact looks | exact absurd ⟨_, rfl⟩ raises
        obtain ⟨reply, looked⟩ := glances_look only.1 limit d h
        exact ⟨[], reply, only.2.2, fun g beside => looked g (beside.others d only.2.1)⟩
    obtain ⟨signals, reply, later, first⟩ := goes
    obtain ⟨others, answered, rest⟩ := ih reply (later reply)
    refine ⟨signals ++ (others ++ []), (reply.noted ++ answered.1, answered.2), fun g beside => ?_⟩
    have asked := first g beside
    have answers := rest _ (beside.of_caches asked.raises.caches)
    exact asked.bind (answers.bind (glances_pure _ _))

end Work

/-! ### Predicates that are settled -/

/-- Whatever it was asked before, and whatever is left of the cache, the predicate answers the same
    about an entry, raises the same signals, and does nothing else. -/
def Predicate.Settled (limit : Nat) (c : CacheId) (keep : Predicate K V) (h : Host K V)
    (signals : K × V → List SignalId) (kept : K × V → Bool) : Prop :=
  ∀ heard key value (g : Host K V), h.Beside c g → ∃ replies,
    ((keep heard key value).work (Host.serve limit)).Glances (signals (key, value))
      (replies, kept (key, value)) g

/-- A predicate that looks at other caches, raises signals and remembers nothing is settled. -/
theorem Predicate.exists_settled (limit : Nat) {c : CacheId} {keep : K → V → Routine K V Bool}
    (looks : ∀ key value, (keep key value).LooksBeside c) (h : Host K V) :
    ∃ signals kept, Predicate.Settled limit c (fun _ => keep) h signals kept := by
  choose signals answered glances using fun e : K × V =>
    Work.glances_routine limit c (looks e.1 e.2) h
  exact ⟨signals, fun e => (answered e).2, fun _ key value g beside =>
    ⟨(answered (key, value)).1, glances (key, value) g beside⟩⟩

namespace Predicate.Settled

/-- Whether a live entry is not to be kept. -/
def rejects (kept : K × V → Bool) (cache : Cache K V) (e : K × SlotId) : Bool :=
  match cache.liveEntry? e with
  | none => false
  | some item => !kept item

/-- A cache without the entries that are not to be kept. -/
def without (kept : K × V → Bool) (cache : Cache K V) (passed : List (K × SlotId)) : Cache K V :=
  { cache with
    table := cache.table.eraseAll ((passed.filter (rejects kept cache)).map Prod.fst) }

/-- What the walk has done once some entries are passed: it has raised signals, and taken out what is
    not to be kept. -/
structure Sifted (h : Host K V) (c : CacheId) (cache : Cache K V)
    (signals : K × V → List SignalId) (kept : K × V → Bool) (passed : List (K × SlotId))
    (g : Host K V) (r : Work.Retention K V) : Prop where
  caches : g.caches = (h.setCache c (without kept cache passed)).caches
  aside : g.aside = (((passed.filterMap cache.liveEntry?).flatMap signals).foldl
    PressureBoard.raise h.board, h.cleanings, h.active)
  removed : r.removed = passed.countP (rejects kept cache)
  seen : r.seen = passed.filterMap cache.liveEntry?

variable {limit : Nat} {c : CacheId} {keep : Predicate K V} {h g : Host K V}
  {signals : K × V → List SignalId} {kept : K × V → Bool} {cache : Cache K V}
  (settled : keep.Settled limit c h signals kept) (found : h.cache? c = some cache)

omit [DecidableEq K] in
theorem rejects_eq {e : K × SlotId} {item : K × V} (live : cache.liveEntry? e = some item) :
    rejects kept cache e = !kept item := by
  rw [rejects, live]

section

variable {passed : List (K × SlotId)} {r : Work.Retention K V}
  (done : Sifted h c cache signals kept passed g r)

include found done

theorem beside : h.Beside c g := by
  have caches := Host.cache?_of_caches done.caches
  refine ⟨fun d other => ?_, ?_⟩
  · rw [caches, Host.cache?_setCache found, if_neg other]
  · rw [caches, Host.cache?_setCache_target found, found]
    rfl

variable {e : K × SlotId} (installed : cache.table.get? e.1 = some e.2)
  (ahead : e.1 ∉ passed.map Prod.fst)

include installed ahead

omit found done in
/-- An entry that is ahead is still installed. -/
theorem isCurrent_ahead : (without kept cache passed).table.isCurrent e.1 e.2 = true := by
  have stays : e.1 ∉ (passed.filter (rejects kept cache)).map Prod.fst := fun member =>
    ahead ((List.filter_sublist.map Prod.fst).subset member)
  rw [ShardedMap.isCurrent_iff, without, ShardedMap.get?_eraseAll _ stays, installed]

/-- An entry that is ahead is shown as it was at first. -/
theorem current?_ahead :
    ((g.cache? c).bind fun now => Cursor.current? now e) = cache.liveEntry? e := by
  rw [Host.cache?_of_caches done.caches, Host.cache?_setCache_target found, Option.bind_some,
    Cursor.current?, if_pos (isCurrent_ahead installed ahead)]
  rfl

omit done in
/-- An entry that is ahead, and not to be kept, is taken out of what is left of the cache. -/
theorem makes_takeOutSlot (goes : rejects kept cache e = true) {f : Host K V}
    (caches : f.caches = (h.setCache c (without kept cache passed)).caches) :
    (Move.takeOutSlot c e.1 e.2).make f =
      (f.setCache c (without kept cache (passed ++ [e])), true) := by
  have bound : (without kept cache passed).table.isCurrent e.1 e.2 = true :=
    isCurrent_ahead installed ahead
  have out : ((without kept cache passed).takeOutSlot e.1 e.2).1 =
      without kept cache (passed ++ [e]) := by
    rw [Cache.takeOutSlot, ShardedMap.eraseIfSame, if_pos bound]
    simp [without, goes, ShardedMap.eraseAll]
  have there := (congrFun (Host.cache?_of_caches caches) c).trans
    (Host.cache?_setCache_target found _)
  rw [Move.make, Host.onCache, there]
  exact Prod.ext (congrArg (f.setCache c) out) bound

omit found installed ahead in
/-- The predicate was asked about one more entry. -/
theorem Sifted.snoc {item : K × V} (live : cache.liveEntry? e = some item) {f next : Host K V}
    (raises : g.Raises f (signals item)) (aside : next.aside = f.aside)
    (caches : next.caches = (h.setCache c (without kept cache (passed ++ [e]))).caches)
    {removed : Nat} (count : removed = r.removed + (rejects kept cache e).toNat)
    (replies : List (Reply V)) :
    Sifted h c cache signals kept (passed ++ [e]) next
      ⟨removed, r.heard ++ [⟨item, replies⟩]⟩ := by
  have before := done.aside
  simp only [Host.aside, Prod.mk.injEq] at before
  have more : (passed ++ [e]).filterMap cache.liveEntry? =
      passed.filterMap cache.liveEntry? ++ [item] := by
    rw [List.filterMap_append, List.filterMap_cons, live, List.filterMap_nil]
  refine ⟨caches, ?_, ?_, ?_⟩
  · rw [aside, raises.aside, before.1, before.2.1, before.2.2, ← List.foldl_append, more,
      List.flatMap_append, List.flatMap_singleton]
  · rw [count, done.removed, List.countP_append, List.countP_singleton]
    cases rejects kept cache e <;> rfl
  · rw [more, ← done.seen, Work.Retention.seen, List.map_append]
    rfl

include settled

/-- One more entry is passed. -/
theorem sifted_snoc :
    Sifted h c cache signals kept (passed ++ [e]) ((Work.retainEntry limit c keep r e).run g).1
        ((Work.retainEntry limit c keep r e).run g).2 ∧
      (Work.retainEntry limit c keep r e).calls g = [] ∧
      ∀ s ∈ (Work.retainEntry limit c keep r e).steps g, s.before.caches = g.caches := by
  have shown := current?_ahead found done installed ahead
  have viewed : (Work.make (.view : Move K V)).calls g = [] := rfl
  rw [Work.retainEntry, Work.run_bind, Work.calls_bind, Work.steps_bind, viewed, List.nil_append,
    Work.steps_make, Work.run_make]
  simp only [Move.make, shown, List.singleton_append, List.forall_mem_cons, true_and]
  -- A dead entry is passed by, and the predicate is not asked about it.
  cases live : cache.liveEntry? e with
  | none =>
    have stays : rejects kept cache e = false := by rw [rejects, live]
    have same : without kept cache (passed ++ [e]) = without kept cache passed := by
      simp [without, stays]
    refine ⟨⟨same ▸ done.caches, ?_, ?_, ?_⟩, rfl, by simp⟩
    · simpa [live] using done.aside
    · simpa [stays] using done.removed
    · simpa [live] using done.seen
  | some item =>
    obtain ⟨replies, glances⟩ := settled r.heard item.1 item.2 g (beside found done)
    have rejected : rejects kept cache e = !kept item := rejects_eq live
    have caches := glances.raises.caches.trans done.caches
    dsimp only
    rw [Work.run_bind, Work.calls_bind, Work.steps_bind, glances.result, glances.calls,
      List.nil_append]
    have asked := glances.raises
    generalize ((keep r.heard item.1 item.2).work (Host.serve limit)).run g = ended
      at asked caches ⊢
    cases keeps : kept (item.1, item.2) with
    | true =>
      have stays : rejects kept cache e = false := rejected.trans (by rw [keeps]; rfl)
      have same : without kept cache (passed ++ [e]) = without kept cache passed := by
        simp [without, stays]
      dsimp only
      rw [if_pos rfl, Work.run_pure, Work.calls_pure, Work.steps_pure, List.append_nil]
      exact ⟨done.snoc live asked rfl (same ▸ caches) (by rw [stays]; rfl) replies, rfl,
        glances.still⟩
    | false =>
      have goes : rejects kept cache e = true := rejected.trans (by rw [keeps]; rfl)
      have made := makes_takeOutSlot found installed ahead goes caches
      have left : (ended.1.setCache c (without kept cache (passed ++ [e]))).caches =
          (h.setCache c (without kept cache (passed ++ [e]))).caches := by
        rw [← Host.setCache_setCache h c (without kept cache passed), Host.setCache, caches]
        rfl
      dsimp only
      rw [if_neg Bool.false_ne_true, Work.run_bind, Work.calls_bind, Work.steps_bind, Work.run_make,
        made, Work.run_pure, Work.calls_pure, Work.steps_pure, Work.calls_make rfl,
        Work.steps_make, List.append_nil]
      refine ⟨done.snoc live asked ?_ left (by rw [goes]; rfl) replies, rfl, fun s member => ?_⟩
      · rfl
      rcases List.mem_append.mp member with earlier | last
      · exact glances.still s earlier
      · rw [List.mem_singleton.mp last]
        exact asked.caches

end

include settled found

/-- Whatever the order, the walk does what it has to do about each entry. -/
theorem sifted_retainInOrder (ordered : cache.table.Ordered) {passed left : List (K × SlotId)}
    (split : (passed ++ left).Perm cache.table.toList) :
    Sifted h c cache signals kept passed
        ((Work.retainInOrder limit c keep passed).run h).1
        ((Work.retainInOrder limit c keep passed).run h).2 ∧
      (Work.retainInOrder limit c keep passed).calls h = [] ∧
      ∀ s ∈ (Work.retainInOrder limit c keep passed).steps h, ∃ before,
        s.before.caches = (h.setCache c (without kept cache before)).caches := by
  induction passed using List.reverseRecOn generalizing left with
  | nil =>
    have none : h.setCache c (without kept cache []) = h := Host.setCache_self found
    refine ⟨⟨?_, rfl, rfl, rfl⟩, rfl, fun s member => by cases member⟩
    rw [none]
    rfl
  | append_singleton passed e ih =>
    rw [List.append_assoc] at split
    obtain ⟨done, calls, before⟩ := ih split
    have keys := (split.map Prod.fst).nodup_iff.mpr (ShardedMap.nodup_toList_keys ordered)
    have listed : e ∈ cache.table.toList :=
      split.mem_iff.mp (List.mem_append_right _ List.mem_cons_self)
    have installed := (ShardedMap.get?_eq_some_iff ordered).mpr listed
    have ahead : e.1 ∉ passed.map Prod.fst := by
      rw [List.map_append] at keys
      intro member
      exact (List.nodup_append.mp keys).2.2 e.1 member e.1 List.mem_cons_self rfl
    obtain ⟨more, none, still⟩ := sifted_snoc settled found done installed ahead
    -- The predicate has seen only entries that were passed, and what it raised for them is on the board.
    have last : ∀ r, [e].foldlM (Work.retainEntry limit c keep) r =
        Work.retainEntry limit c keep r e := fun r => by
      rw [List.foldlM_cons]
      exact bind_pure _
    rw [Work.retainInOrder_append, Work.run_bind, Work.calls_bind, Work.steps_bind, last, calls, none]
    refine ⟨more, rfl, fun s member => ?_⟩
    rcases List.mem_append.mp member with earlier | later
    · exact before s earlier
    · exact ⟨passed, (still s later).trans done.caches⟩

omit settled in
theorem countable_without (few : h.Countable) {f : Host K V} {passed : List (K × SlotId)}
    (caches : f.caches = (h.setCache c (without kept cache passed)).caches) : f.Countable := by
  intro d other there
  rw [Host.cache?_of_caches caches, Host.cache?_setCache found] at there
  split at there
  · cases there
    exact (cache.table.size_eraseAll_le _).trans (few c cache found)
  · exact few d other there

/-- A settled predicate is steady. -/
theorem steady (consistent : h.Consistent) (few : h.Countable) :
    keep.Steady limit c h cache := by
  have ordered := (consistent c cache found).table.toOrdered
  have whole : ∀ {order : List (K × SlotId)}, order.Perm cache.table.toList →
      (order ++ []).Perm cache.table.toList := fun perm => (List.append_nil _).symm ▸ perm
  refine ⟨fun passed left split => ?_, fun order perm s member => ?_, fun order perm => ?_⟩
  · obtain ⟨done, _⟩ := sifted_retainInOrder settled found ordered split
    refine ⟨without kept cache passed, ?_, fun key ahead => ?_⟩
    · rw [Host.cache?_of_caches done.caches, Host.cache?_setCache_target found]
    · exact cache.table.get?_eraseAll fun member =>
        ahead ((List.filter_sublist.map Prod.fst).subset member)
  · obtain ⟨_, _, before⟩ := sifted_retainInOrder settled found ordered (whole perm)
    obtain ⟨passed, caches⟩ := before s member
    exact countable_without found few caches
  · obtain ⟨first, none, _⟩ :=
      sifted_retainInOrder settled found ordered (whole (.refl cache.table.toList))
    obtain ⟨second, noneToo, _⟩ := sifted_retainInOrder settled found ordered (whole perm)
    have asked := perm.filterMap cache.liveEntry?
    have same : without kept cache order = without kept cache cache.table.toList := by
      rw [without, without,
        cache.table.eraseAll_perm ((perm.filter (rejects kept cache)).map Prod.fst)]
    refine ⟨?_, ?_, ?_, ?_, ?_⟩
    · rw [first.caches, second.caches, same]
    · rw [first.aside, second.aside, PressureBoard.foldl_raise_perm (asked.flatMap_right signals)]
    · rw [first.removed, second.removed, perm.countP_eq]
    · rw [first.seen, second.seen]
      exact asked
    · rw [none, noneToo]

end Predicate.Settled

/-- A predicate that looks at other caches, raises signals and remembers nothing is steady. -/
theorem Predicate.steady_of_looks (limit : Nat) {c : CacheId} {h : Host K V}
    (consistent : h.Consistent) (few : h.Countable) {cache : Cache K V}
    (found : h.cache? c = some cache) {keep : K → V → Routine K V Bool}
    (looks : ∀ key value, (keep key value).LooksBeside c) :
    Predicate.Steady limit c (fun _ => keep) h cache := by
  obtain ⟨signals, kept, settled⟩ := exists_settled limit looks h
  exact settled.steady found consistent few

end

end ReclaimableCache
