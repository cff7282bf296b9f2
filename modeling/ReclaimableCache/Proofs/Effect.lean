import ReclaimableCache.Host.Move

/-!
# What a move does to a cache

A move changes the caches of a host in one way only: the cache that it is made on, if there is one,
becomes its `Move.effect`, and all others stay as they are. Building adds one new cache. Whatever
is to be shown of caches is shown once for each effect.
-/

namespace ReclaimableCache

variable {K V : Type}

namespace Host

theorem cache?_setCache {h : Host K V} {c : CacheId} {old : Cache K V}
    (found : h.cache? c = some old) (cache : Cache K V) (d : CacheId) :
    (h.setCache c cache).cache? d = if d = c then some cache else h.cache? d := by
  have inside : c < h.caches.size := by
    rw [cache?, Option.join_eq_some_iff] at found
    exact (Array.getElem?_eq_some_iff.mp found).1
  rw [cache?, setCache, Array.getElem?_setIfInBounds]
  by_cases same : c = d
  · simp [same, same ▸ inside]
  · simp [same, Ne.symm same, cache?]

theorem cache?_setCache_target {h : Host K V} {c : CacheId} {old : Cache K V}
    (found : h.cache? c = some old) (cache : Cache K V) :
    (h.setCache c cache).cache? c = some cache :=
  (cache?_setCache found cache c).trans (if_pos rfl)

theorem setCache_self {h : Host K V} {c : CacheId} {cache : Cache K V}
    (found : h.cache? c = some cache) : h.setCache c cache = h := by
  rw [cache?, Option.join_eq_some_iff] at found
  obtain ⟨inside, here⟩ := Array.getElem?_eq_some_iff.mp found
  have same : h.caches.setIfInBounds c (some cache) = h.caches := by
    rw [Array.setIfInBounds, dif_pos inside, ← here, Array.set_getElem_self]
  rw [setCache, same]

theorem setCache_setCache (h : Host K V) (c : CacheId) (first second : Cache K V) :
    (h.setCache c first).setCache c second = h.setCache c second := by
  rw [setCache, setCache, setCache, Array.setIfInBounds_setIfInBounds]

/-- A host in which one cache, if there is one, is replaced by what is made of it. -/
theorem cache?_of_setCache {h h' : Host K V} {c : CacheId} {f : Cache K V → Cache K V}
    {d : CacheId} (absent : h.cache? c = none → h'.cache? d = h.cache? d)
    (present : ∀ cache, h.cache? c = some cache →
      h'.cache? d = (h.setCache c (f cache)).cache? d) :
    h'.cache? d = if d = c then (h.cache? d).map f else h.cache? d := by
  cases found : h.cache? c with
  | none =>
    rw [absent found]
    by_cases same : d = c
    · simp [same, found]
    · simp [same]
  | some cache =>
    rw [present cache found, cache?_setCache found]
    by_cases same : d = c
    · simp [same, found]
    · simp [same]

theorem cache?_onCache {α : Type} (h : Host K V) (c : CacheId) (otherwise : α)
    (f : Cache K V → Cache K V × α) (d : CacheId) :
    (h.onCache c otherwise f).1.cache? d =
      if d = c then (h.cache? d).map fun cache => (f cache).1 else h.cache? d := by
  apply cache?_of_setCache
  · intro absent
    rw [onCache, absent]
  · intro cache found
    rw [onCache, found]

theorem cache?_modifyCache (h : Host K V) (c : CacheId) (f : Cache K V → Cache K V)
    (d : CacheId) :
    (h.modifyCache c f).cache? d = if d = c then (h.cache? d).map f else h.cache? d := by
  apply cache?_of_setCache
  · intro absent
    rw [modifyCache, absent]
  · intro cache found
    rw [modifyCache, found]

theorem cache?_addCache (h : Host K V) (cache : Option (Cache K V)) (d : CacheId) :
    (h.addCache cache).cache? d = if d = h.nextCache then cache else h.cache? d := by
  rw [cache?, addCache, Array.getElem?_push, nextCache]
  split <;> rfl

theorem cache?_nextCache (h : Host K V) : h.cache? h.nextCache = none := by
  simp [cache?, nextCache]

end Host

/-- The cache that is built, if it can be. -/
def Config.built? (c : Config K V) (board : PressureBoard) : Option (Cache K V) :=
  match c.check with
  | .ok () => (c.assemble board).toOption
  | .error _ => none

namespace Move

/-- The cache that a move is made on. -/
def target : Move K V → Option CacheId
  | sweep c | consult c | releaseValues c _ | releaseValue c _ | enqueue c _ | closePass c _ _
  | countReclaim c _ | look c _ | place c _ _ | takeOut c _ | takeOutSlot c _ _ | unpinAll c
  | dropEntries c => some c
  | _ => none

variable [DecidableEq K]

/-- What becomes of the cache that a move is made on, while signals are as on a board. -/
def effect (board : PressureBoard) (cache : Cache K V) : Move K V → Cache K V
  | sweep _ => cache.sweep.1
  | consult _ => cache.consult board
  | releaseValues _ budget => (cache.releaseValues budget).1
  | releaseValue _ key => (cache.releaseValueOf key).1
  | enqueue _ slot => cache.enqueue slot
  | closePass _ released failures =>
      cache.tally fun n => (n.evict released.toUInt64).cleanerFailure failures.toUInt64
  | countReclaim _ failed => cache.countReclaim failed
  | look _ key => (cache.touch key).1
  | place _ key value => (cache.store key value).1
  | takeOut _ key => (cache.takeOut key).1
  | takeOutSlot _ key slot => (cache.takeOutSlot key slot).1
  | unpinAll _ => cache.unpinAll
  | dropEntries _ => cache.dropEntries
  | _ => cache

/-- What becomes of one cache of a host. -/
def effectOn (m : Move K V) (board : PressureBoard) (d : CacheId) (cache : Cache K V) :
    Cache K V :=
  if m.target = some d then m.effect board cache else cache

/-- A move other than building a cache changes the caches by its effect. -/
theorem cache?_make (m : Move K V) (h : Host K V) (d : CacheId)
    (noBuild : ∀ config, m ≠ build config) :
    (m.make h).1.cache? d = (h.cache? d).map (m.effectOn h.board d) := by
  have idle : m.target = none → h.cache? d = (h.cache? d).map (m.effectOn h.board d) := by
    intro none
    cases h.cache? d <;> simp [effectOn, none]
  -- All moves on a cache come down to one form: that cache is another one then, and no other is.
  have here : ∀ {c : CacheId} {f : Cache K V → Cache K V},
      (if d = c then (h.cache? d).map f else h.cache? d) =
        (h.cache? d).map fun cache => if some c = some d then f cache else cache := by
    intro c f
    by_cases same : d = c
    · subst same
      simp
    · simp [same, Ne.symm same]
  cases m with
  | build config => exact absurd rfl (noBuild config)
  | view => exact idle rfl
  | raise signal => exact idle rfl
  | enterCleaner c victim => exact idle rfl
  | leaveCleaner call replies verdict => cases verdict <;> exact idle rfl
  | noteServed c request reply => exact idle rfl
  | sweep c =>
    refine Eq.trans ?_ ((Host.cache?_onCache h c 0 Cache.sweep d).trans here)
    rw [make, Host.sweep]
    split <;> rfl
  | consult c =>
    refine (Host.cache?_of_setCache (fun absent => ?_) fun cache found => ?_).trans here
    · rw [make, Host.consult, absent]
    · rw [make, Host.consult, found]
      dsimp only
      split <;> rfl
  | releaseValues c budget => exact (Host.cache?_onCache h c _ _ d).trans here
  | releaseValue c key => exact (Host.cache?_onCache h c _ _ d).trans here
  | enqueue c slot => exact (Host.cache?_modifyCache h c _ d).trans here
  | closePass c released failures =>
    rw [make, Host.closePass]
    dsimp only
    split
    · exact (Host.cache?_modifyCache h c _ d).trans here
    · exact (Host.cache?_modifyCache (h.log (.released released failures)) c _ d).trans here
  | countReclaim c failed => exact (Host.cache?_modifyCache h c _ d).trans here
  | look c key =>
    refine (Host.cache?_of_setCache (fun absent => ?_) fun cache found => ?_).trans here
    · rw [make, Host.look, absent]
    · rw [make, Host.look, found]
      dsimp only
      split
      · rfl
      · dsimp only
        split <;> rfl
  | place c key value =>
    refine (Host.cache?_of_setCache (fun absent => ?_) fun cache found => ?_).trans here
    · rw [make, Host.place, absent]
    · rw [make, Host.place, found]
      rfl
  | takeOut c key => exact (Host.cache?_onCache h c _ _ d).trans here
  | takeOutSlot c key slot => exact (Host.cache?_onCache h c _ _ d).trans here
  | unpinAll c => exact (Host.cache?_modifyCache h c _ d).trans here
  | dropEntries c =>
    refine (Host.cache?_of_setCache (fun absent => ?_) fun cache found => ?_).trans here
    · rw [make, Host.dropEntries, absent]
    · rw [make, Host.dropEntries, found]
      rfl

/-- A move that is made on no cache changes none. -/
theorem cache?_make_of_none {m : Move K V} (none : m.target = none)
    (noBuild : ∀ config, m ≠ build config) (h : Host K V) (d : CacheId) :
    (m.make h).1.cache? d = h.cache? d := by
  rw [cache?_make m h d noBuild]
  cases h.cache? d <;> simp [effectOn, none]

/-- Building a cache leaves the others alone and puts the new one, if any, under a new number. -/
theorem cache?_make_build (config : Config K V) (h : Host K V) (d : CacheId) :
    ((build config).make h).1.cache? d =
      if d = h.nextCache then config.built? h.board else h.cache? d := by
  rw [make, Host.build, Config.built?]
  cases config.check with
  | error e => exact Host.cache?_addCache h none d
  | ok checked =>
    dsimp only
    have sameBoard : (h.log (.building config.pinCapacity config.shards
        (Text.inspect config.policy).compact)).board = h.board := rfl
    rw [sameBoard]
    cases config.assemble h.board with
    | error p => exact Host.cache?_addCache _ none d
    | ok cache => exact Host.cache?_addCache _ (some cache) d

omit [DecidableEq K] in
/-- Where building succeeds, the cache was assembled. -/
theorem exists_of_build {config : Config K V} {h : Host K V}
    (built : (h.build config).2 = .ok ()) :
    ∃ cache, config.assemble h.board = .ok cache ∧
      (h.build config).1.cache? h.nextCache = some cache := by
  rw [Host.build] at built ⊢
  cases checked : config.check with
  | error e =>
    rw [checked] at built
    cases built
  | ok done =>
    rw [checked] at built
    dsimp only at built ⊢
    have sameBoard : (h.log (.building config.pinCapacity config.shards
        (Text.inspect config.policy).compact)).board = h.board := rfl
    rw [sameBoard] at built ⊢
    cases made : config.assemble h.board with
    | error p =>
      rw [made] at built
      cases built
    | ok cache =>
      refine ⟨cache, rfl, ?_⟩
      exact (Host.cache?_addCache _ (some cache) h.nextCache).trans (if_pos rfl)

/-- A cache stays under its number and becomes the effect of the move. -/
theorem cache?_make_of_some {h : Host K V} {d : CacheId} {cache : Cache K V}
    (found : h.cache? d = some cache) (m : Move K V) :
    (m.make h).1.cache? d = some (m.effectOn h.board d cache) := by
  by_cases builds : ∃ config, m = build config
  · obtain ⟨config, rfl⟩ := builds
    have other : d ≠ h.nextCache := by
      rintro rfl
      rw [Host.cache?_nextCache] at found
      cases found
    rw [cache?_make_build, if_neg other, found]
    rfl
  · rw [cache?_make m h d fun config same => builds ⟨config, same⟩, found, Option.map_some]

/-- The cache that a move is made on becomes the effect of the move. -/
theorem cache?_make_of_target {h : Host K V} {c : CacheId} {cache : Cache K V}
    (found : h.cache? c = some cache) {m : Move K V} (target : m.target = some c) :
    (m.make h).1.cache? c = some (m.effect h.board cache) := by
  rw [cache?_make_of_some found m, effectOn, if_pos target]

/-- Where a cache comes from: it was there before the move, or the move built it. -/
theorem exists_of_cache?_make {h : Host K V} {d : CacheId} {cache : Cache K V} (m : Move K V)
    (found : (m.make h).1.cache? d = some cache) :
    (∃ old, h.cache? d = some old ∧ cache = m.effectOn h.board d old) ∨
      (h.cache? d = none ∧ ∃ config, m = build config ∧ config.check = .ok () ∧
        config.assemble h.board = .ok cache) := by
  by_cases builds : ∃ config, m = build config
  · obtain ⟨config, rfl⟩ := builds
    rw [cache?_make_build] at found
    split at found
    · rename_i new
      subst new
      refine Or.inr ⟨Host.cache?_nextCache h, config, rfl, ?_⟩
      rw [Config.built?] at found
      cases checked : config.check with
      | error e =>
        rw [checked] at found
        cases found
      | ok done =>
        rw [checked] at found
        refine ⟨rfl, ?_⟩
        cases made : config.assemble h.board with
        | error p =>
          rw [made] at found
          cases found
        | ok built =>
          rw [made] at found
          exact congrArg Except.ok (Option.some.inj found)
    · exact Or.inl ⟨cache, found, rfl⟩
  · rw [cache?_make m h d fun config same => builds ⟨config, same⟩, Option.map_eq_some_iff] at found
    obtain ⟨old, found, rfl⟩ := found
    exact Or.inl ⟨old, found, rfl⟩

end Move

end ReclaimableCache
