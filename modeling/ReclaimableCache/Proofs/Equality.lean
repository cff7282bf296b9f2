import ReclaimableCache.Proofs.Contents
import ReclaimableCache.Proofs.Protection

/-!
# Equality of caches

Two caches are compared by counting the live entries of both and by looking those of the first one up
in the second. As each cache lists every live key once, equally many keys on both sides and all of the
first side's on the second leave no key that only the second one has: the comparison says whether the
two stand for the same map, whatever their tables, pins and dead entries are like.
-/

namespace ReclaimableCache

variable {K V : Type}

namespace PlainMap

theorem Lists.mem_keys {m : PlainMap K V} {entries : List (K × V)} (lists : m.Lists entries)
    (key : K) : key ∈ entries.map Prod.fst ↔ (m key).isSome = true := by
  rw [Option.isSome_iff_exists, List.mem_map]
  constructor
  · rintro ⟨⟨_, value⟩, member, rfl⟩
    exact ⟨value, (lists.mem _ value).mp member⟩
  · rintro ⟨value, bound⟩
    exact ⟨(key, value), (lists.mem key value).mpr bound, rfl⟩

theorem Lists.length_eq {m n : PlainMap K V} {entries others : List (K × V)}
    (lists : m.Lists entries) (also : n.Lists others)
    (same : ∀ key, (m key).isSome = (n key).isSome) : entries.length = others.length := by
  have keys : (entries.map Prod.fst).Perm (others.map Prod.fst) := by
    rw [List.perm_ext_iff_of_nodup lists.distinct also.distinct]
    intro key
    rw [lists.mem_keys, also.mem_keys, same]
  simpa using keys.length_eq

/-- A map with as many keys as another one, and with all of its keys, has no other keys. -/
theorem Lists.isSome_eq {m n : PlainMap K V} {entries others : List (K × V)}
    (lists : m.Lists entries) (also : n.Lists others) (length : entries.length = others.length)
    (inside : ∀ e ∈ entries, (n e.1).isSome = true) (key : K) :
    (m key).isSome = (n key).isSome := by
  have included : entries.map Prod.fst ⊆ others.map Prod.fst := by
    intro key member
    obtain ⟨e, listed, rfl⟩ := List.mem_map.mp member
    exact (also.mem_keys e.1).mpr (inside e listed)
  have keys : (entries.map Prod.fst).Perm (others.map Prod.fst) :=
    (List.subperm_of_subset lists.distinct included).perm_of_length_le (by simp [length])
  rw [Bool.eq_iff_iff, ← lists.mem_keys, ← also.mem_keys, keys.mem_iff]

variable [BEq V]

/-- Two maps bind the same keys, and bind each to equal values. -/
def Agrees (m n : PlainMap K V) : Prop :=
  ∀ key, Option.Rel (fun a b => (a == b) = true) (m key) (n key)

theorem isSome_eq_of_rel {a b : Option V} (same : Option.Rel (fun a b => (a == b) = true) a b) :
    a.isSome = b.isSome := by
  cases same <;> rfl

theorem Agrees.isSome_eq {m n : PlainMap K V} (agrees : m.Agrees n) (key : K) :
    (m key).isSome = (n key).isSome :=
  isSome_eq_of_rel (agrees key)

variable [EquivBEq V]

theorem Agrees.refl (m : PlainMap K V) : m.Agrees m := by
  intro key
  cases m key with
  | none => exact .none
  | some value => exact .some BEq.rfl

theorem Agrees.symm {m n : PlainMap K V} (agrees : m.Agrees n) : n.Agrees m := by
  intro key
  have here := agrees key
  generalize m key = first, n key = second at here ⊢
  cases here with
  | none => exact .none
  | some equal => exact .some (BEq.symm equal)

theorem Agrees.trans {m n o : PlainMap K V} (first : m.Agrees n) (second : n.Agrees o) :
    m.Agrees o := by
  intro key
  have left := first key
  have right := second key
  generalize m key = a, n key = b, o key = c at left right ⊢
  cases left with
  | none => exact right
  | some equal =>
    cases right with
    | some more => exact .some (BEq.trans equal more)

/-- Equally many entries, and each of the first map's also in the second: no key is left over. -/
theorem Lists.agrees_iff {m n : PlainMap K V} {entries others : List (K × V)}
    (lists : m.Lists entries) (also : n.Lists others) :
    m.Agrees n ↔ entries.length = others.length ∧
      ∀ e ∈ entries, ((n e.1).any fun current => current == e.2) = true := by
  constructor
  · intro agrees
    refine ⟨lists.length_eq also agrees.isSome_eq, fun e member => ?_⟩
    have here := agrees e.1
    rw [(lists.mem e.1 e.2).mp member] at here
    generalize n e.1 = found at here ⊢
    cases here with
    | some equal => exact BEq.symm equal
  · rintro ⟨length, included⟩ key
    have bound : ∀ e ∈ entries, (n e.1).isSome = true := by
      intro e member
      have found := included e member
      cases there : n e.1 with
      | none => simp [there] at found
      | some current => rfl
    have same := lists.isSome_eq also length bound key
    cases here : m key with
    | none =>
      rw [here, Option.isSome_none, eq_comm, Option.isSome_eq_false_iff,
        Option.isNone_iff_eq_none] at same
      rw [same]
      exact .none
    | some value =>
      have found := included (key, value) ((lists.mem key value).mpr here)
      cases there : n key with
      | none => simp [there] at found
      | some current =>
        rw [there] at found
        exact .some (BEq.symm found)

end PlainMap

variable [DecidableEq K] [BEq V]

/-- The comparison of two caches says whether they stand for the same map. -/
theorem Cache.Consistent.sameEntries_iff [EquivBEq V] {a b : Cache K V} (first : a.Consistent)
    (second : b.Consistent) : a.sameEntries b = true ↔ PlainMap.Agrees a.peek b.peek := by
  rw [first.lists.agrees_iff second.lists, sameEntries, Bool.and_eq_true, beq_iff_eq,
    List.all_eq_true]
  rfl

/-- A cache as it is at some point of time of a run. -/
def Cache.Occurs (cache : Cache K V) : Prop :=
  ∃ (limit : Nat) (board : PressureBoard) (acts : List (Act K V)) (h : Host K V) (c : CacheId),
    h ∈ (Session.empty board).states limit acts ∧ h.cache? c = some cache

theorem Cache.Occurs.consistent {cache : Cache K V} (occurs : cache.Occurs) : cache.Consistent := by
  obtain ⟨limit, board, acts, h, c, seen, found⟩ := occurs
  exact Session.consistent_states limit board acts h seen c cache found

namespace Session

theorem occurs_of_reachable {limit : Nat} {board : PressureBoard} {s : Session K V}
    (reachable : s.Reachable limit board) {c : CacheId} {cache : Cache K V}
    (found : s.host.cache? c = some cache) : cache.Occurs := by
  obtain ⟨acts, rfl⟩ := reachable
  exact ⟨limit, board, acts, _, c, List.mem_append_right _ (List.mem_singleton_self _), found⟩

/-- Comparing a cache with itself, which takes no look at its entries, gives what the comparison of
    entries would give. -/
theorem step_sameEntries (limit : Nat) (s : Session K V) {c d : CacheId}
    {a b : Cache K V} (found : s.host.cache? c = some a) (other : s.host.cache? d = some b)
    (same : a.sameEntries a = true) :
    s.step limit c (.sameEntries d) = (s, .flag (a.sameEntries b)) := by
  have shortcut : (c == d || a.sameEntries b) = a.sameEntries b := by
    by_cases itself : c = d
    · subst itself
      rw [found] at other
      cases other
      rw [same, Bool.or_true]
    · rw [beq_eq_false_iff_ne.mpr itself, Bool.false_or]
  rw [step, carryOut, Work.run_command found, Command.workOn, Work.run_bind, Work.run_make]
  simp only [Move.make, other, Work.run_pure, shortcut]

/-- Two caches, at whatever points of time of whatever runs, are equal if and only if look-ups of
    every key find equal values in both or nothing in either. So equality of caches is an equivalence,
    and it is what a caller is told who compares two caches of a session. -/
theorem equality_of_live_maps [EquivBEq V] :
    (∀ a b : Cache K V, a.Occurs → b.Occurs →
      (a.sameEntries b = true ↔ PlainMap.Agrees a.peek b.peek)) ∧
    (∀ a : Cache K V, a.Occurs → a.sameEntries a = true) ∧
    (∀ a b : Cache K V, a.Occurs → b.Occurs → a.sameEntries b = b.sameEntries a) ∧
    (∀ a b c : Cache K V, a.Occurs → b.Occurs → c.Occurs →
      a.sameEntries b = true → b.sameEntries c = true → a.sameEntries c = true) ∧
    ∀ (limit : Nat) (board : PressureBoard) (s : Session K V), s.Reachable limit board →
      ∀ (c d : CacheId) (a b : Cache K V), s.host.cache? c = some a → s.host.cache? d = some b →
        s.step limit c (.sameEntries d) = (s, .flag (a.sameEntries b)) := by
  have agrees : ∀ a b : Cache K V, a.Occurs → b.Occurs →
      (a.sameEntries b = true ↔ PlainMap.Agrees a.peek b.peek) := fun a b first second =>
    first.consistent.sameEntries_iff second.consistent
  have reflexive : ∀ a : Cache K V, a.Occurs → a.sameEntries a = true := fun a occurs =>
    (agrees a a occurs occurs).mpr (.refl a.peek)
  refine ⟨agrees, reflexive, ?_, ?_, ?_⟩
  · intro a b first second
    rw [Bool.eq_iff_iff, agrees a b first second, agrees b a second first]
    exact ⟨PlainMap.Agrees.symm, PlainMap.Agrees.symm⟩
  · intro a b c first second third same more
    rw [agrees a b first second] at same
    rw [agrees b c second third] at more
    exact (agrees a c first third).mpr (same.trans more)
  · intro limit board s reachable c d a b found other
    exact step_sameEntries limit s found other (reflexive a (occurs_of_reachable reachable found))

end Session

/-- A number that is compared by its last digit. -/
structure Rounded where
  number : Nat
  deriving DecidableEq

namespace Rounded

instance : BEq Rounded := ⟨fun a b => a.number % 10 == b.number % 10⟩

theorem beq_iff (a b : Rounded) : (a == b) = true ↔ a.number % 10 = b.number % 10 :=
  beq_iff_eq (a := a.number % 10)

instance : EquivBEq Rounded where
  rfl := (beq_iff _ _).mpr rfl
  symm same := (beq_iff _ _).mpr ((beq_iff _ _).mp same).symm
  trans first second := (beq_iff _ _).mpr (((beq_iff _ _).mp first).trans ((beq_iff _ _).mp second))

end Rounded

/-- A cache of a number of pins and shards. -/
def Config.sized (pinCapacity shards : Nat) (policy : Policy) : Config UInt64 Rounded where
  pinCapacity := pinCapacity
  shards := some shards
  hasher := .standard
  cleaner := none
  policy := policy
  signal := none

/-- Two caches of different sizes. The first one has an entry whose value is released. -/
def roundedActs : List (Act UInt64 Rounded) :=
  [.build (.sized 1 3 .manual), .build (.sized 4 1 .onPressure), .on 0 (.request (.insert 1 ⟨13⟩)),
    .on 0 (.request (.insert 2 ⟨20⟩)), .on 0 (.request (.reclaim 2)),
    .on 1 (.request (.insert 1 ⟨43⟩))]

/-- The two caches are equal although their sizes are not, and their values are not the same. -/
theorem equality_of_live_maps_rounded :
    ∃ a b : Cache UInt64 Rounded, a.size = 2 ∧ b.size = 1 ∧ a.peek 1 = some ⟨13⟩ ∧
      b.peek 1 = some ⟨43⟩ ∧ PlainMap.Agrees a.peek b.peek ∧ b.sameEntries a = true ∧
      a.sameEntries a = true ∧
      (((Session.empty .empty).run 1 roundedActs).1.step 1 0 (.sameEntries 1)) =
        (((Session.empty .empty).run 1 roundedActs).1, .flag true) := by
  have facts : (((Session.empty .empty).run 1 roundedActs).1.host.cache? 0).bind (fun a =>
      (((Session.empty .empty).run 1 roundedActs).1.host.cache? 1).map fun b =>
        ((a.size, b.size), (a.peek 1, b.peek 1), a.sameEntries b)) =
      some ((2, 1), (some ⟨13⟩, some ⟨43⟩), true) := by
    decide +kernel
  obtain ⟨a, found, facts⟩ := Option.bind_eq_some_iff.mp facts
  obtain ⟨b, other, facts⟩ := Option.map_eq_some_iff.mp facts
  obtain ⟨⟨sizeA, sizeB⟩, ⟨holdsA, holdsB⟩, same⟩ : (_ ∧ _) ∧ (_ ∧ _) ∧ _ := by
    simpa only [Prod.mk.injEq] using facts
  have reachable : ((Session.empty .empty).run 1 roundedActs).1.Reachable 1 .empty :=
    ⟨roundedActs, rfl⟩
  have first : a.Occurs := Session.occurs_of_reachable reachable found
  have second : b.Occurs := Session.occurs_of_reachable reachable other
  obtain ⟨agrees, reflexive, symmetric, _, told⟩ :=
    Session.equality_of_live_maps (K := UInt64) (V := Rounded)
  refine ⟨a, b, sizeA, sizeB, holdsA, holdsB, (agrees a b first second).mp same,
    (symmetric b a second first).trans same, reflexive a first, ?_⟩
  rw [told 1 .empty _ reachable 0 1 a b found other, same]

end ReclaimableCache
