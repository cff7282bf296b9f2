import Mathlib.Data.List.ReduceOption
import ReclaimableCache.Proofs.Comparison
import ReclaimableCache.Proofs.Glances

/-!
# Shards do not show

Two sessions that differ only in the shards of their caches give the same answers, lists apart, which
they may give in another order. What could tell them apart are the order in which a cursor is stepped
through a cache, and the entry that it yielded last; and a predicate to which the order matters in
which it is asked about entries.
-/

namespace ReclaimableCache

variable {K V α : Type}

/-- The reply that is the answer, if it is one. -/
def Answer.reply? : Answer K V → Option (Reply V)
  | reply r => some r
  | _ => none

theorem Answer.Alike.reply? {a b : Answer K V} (alike : a.Alike b) : b.reply? = a.reply? := by
  cases a with
  | entries listed => cases b <;> first | rfl | cases alike
  | rest items => cases b <;> first | rfl | cases alike
  | retained removed seen => cases b <;> first | rfl | cases alike
  | _ => exact congrArg Answer.reply? alike

section

variable [DecidableEq K]

/-- Acts that do the same and do not depend on the order of entries, but for the shards of caches that
    are built. -/
def Act.Even (limit : Nat) (s t : Session K V) : Act K V → Act K V → Prop
  | build config, build other => config.Alike other
  | on c command, on d other => d = c ∧ other = command ∧ command.Orderless limit c s t
  | _, _ => False

/-- No cache has a past. -/
def Past.nowhere : CacheId → Option Past := fun _ => some .blank

theorem Session.consistent_act [BEq V] {s : Session K V} (consistent : s.host.Consistent) (limit : Nat)
    (a : Act K V) : (s.act limit a).1.host.Consistent :=
  (consistent.work _).2

namespace Session.Alike

variable {s t : Session K V} (alike : s.Alike Past.nowhere t) [BEq V] {limit : Nat}

include alike

theorem together_act {a b : Act K V} (even : a.Even limit s t b)
    (few : ∀ step ∈ (a.work limit s.cursors).steps s.host, step.before.Countable) :
    (a.work limit s.cursors).Together Past.nowhere
      (Command.Outcomes Past.nowhere {} s.host t.host) (b.work limit t.cursors) s.host t.host := by
  cases a with
  | build config =>
    cases b with
    | on d other => cases even
    | build other =>
      have built : (Work.make (.build config)).Together Past.nowhere Eq (Work.make (.build other))
          s.host t.host :=
        ⟨alike.host.build even rfl, (alike.host.build_result even).symm, List.Perm.refl []⟩
      apply built.bind
      rw [← built.results]
      cases ((Work.make (.build config)).run s.host).2 <;>
        exact Work.together_pure built.hosts ⟨alike.cursors, rfl⟩
  | on c command =>
    cases b with
    | build other => cases even
    | on d other =>
      obtain ⟨rfl, rfl, orderless⟩ := even
      exact alike.together_work rfl orderless few

/-- Sessions stay alike, whatever even act is done, and give answers that are alike. -/
theorem act {a b : Act K V} (even : a.Even limit s t b)
    (few : ∀ step ∈ (a.work limit s.cursors).steps s.host, step.before.Countable) :
    (s.act limit a).1.Alike Past.nowhere (t.act limit b).1 ∧
      (s.act limit a).2.Alike (t.act limit b).2 := by
  have done := alike.together_act even few
  exact ⟨⟨done.hosts, done.results.1.run _ _⟩, done.results.2.alike⟩

omit [BEq V] in
theorem measures_eq : t.measures = s.measures := by
  funext c
  have owed : Past.owed (Past.nowhere c) = {} := rfl
  rw [alike.measures, owed]
  simp only [Snapshot.onTop_nothing]
  exact (Option.map_id_apply).symm

end Session.Alike

/-! ### Runs -/

namespace Session

variable [BEq V]

/-- Acts are done on both sessions in turn which do not depend on the order of entries. -/
def Comparable (limit : Nat) : Session K V → Session K V → List (Act K V × Act K V) → Prop
  | _, _, [] => True
  | s, t, (a, b) :: rest =>
      a.Even limit s t b ∧ Comparable limit (s.act limit a).1 (t.act limit b).1 rest

/-- While acts are done on both sessions in turn, each has the same answer, calls cleaners on the same
    values, and leaves caches of which the same can be measured. -/
def Agree (limit : Nat) : Session K V → Session K V → List (Act K V × Act K V) → Prop
  | _, _, [] => True
  | s, t, (a, b) :: rest =>
      (s.act limit a).2.Alike (t.act limit b).2 ∧
        (t.calls limit b).Perm (s.calls limit a) ∧
        (t.act limit b).1.measures = (s.act limit a).1.measures ∧
        Agree limit (s.act limit a).1 (t.act limit b).1 rest

variable {s t : Session K V} {limit : Nat}

/-- Sessions that are alike agree in all that is done to them. -/
theorem Alike.agree (alike : s.Alike Past.nowhere t) {acts : List (Act K V × Act K V)}
    (comparable : Comparable limit s t acts)
    (few : ∀ step ∈ s.history limit (acts.map Prod.fst), step.before.Countable) :
    Agree limit s t acts := by
  induction acts generalizing s t with
  | nil => trivial
  | cons pair rest ih =>
    obtain ⟨a, b⟩ := pair
    obtain ⟨even, comparable⟩ := comparable
    rw [List.map_cons, history, Act.workAll, Work.steps_bind, Work.steps_bind] at few
    have fewNow := fun step member => few step (List.mem_append_left _ member)
    have fewLater := fun step member => few step
      (List.mem_append_right _ (List.mem_append_left _ member))
    obtain ⟨later, answers⟩ := alike.act even fewNow
    exact ⟨answers, (alike.together_act even fewNow).calls, later.measures_eq,
      ih later comparable fewLater⟩

omit [BEq V] in
theorem alike_empty (board : PressureBoard) :
    (empty board : Session K V).Alike Past.nowhere (empty board) := by
  refine ⟨⟨rfl, rfl, Host.consistent_empty board, Host.consistent_empty board, ?_, fun c => ?_⟩,
    fun name => .none⟩
  · intro c cache _ found
    simp [empty, Host.empty, Host.cache?] at found
  · simp [empty, Host.empty, Host.cache?]

/-- Sessions that agree give the same replies. -/
theorem Agree.replies {acts : List (Act K V × Act K V)} (agree : Agree limit s t acts) :
    (t.run limit (acts.map Prod.snd)).2.map Answer.reply? =
      (s.run limit (acts.map Prod.fst)).2.map Answer.reply? := by
  induction acts generalizing s t with
  | nil => rfl
  | cons pair rest ih =>
    obtain ⟨answers, _, _, agree⟩ := agree
    have first := answers.reply?
    have others := ih agree
    simp only [run, carryOut, act] at first others ⊢
    simp only [List.map_cons, Act.workAll, Work.run_bind, Work.run_pure, first, others]

end Session

end

theorem Host.countable_iff {h : Host K V} :
    h.Countable ↔ ∀ cache ∈ h.caches.toList.reduceOption, cache.size ≤ Policy.unlimited := by
  constructor
  · intro countable cache member
    obtain ⟨c, found⟩ := List.mem_iff_getElem?.mp (List.reduceOption_mem_iff.mp member)
    refine countable c cache ?_
    rw [cache?, ← Array.getElem?_toList, found]
    rfl
  · intro countable c cache found
    rw [cache?, Option.join_eq_some_iff, ← Array.getElem?_toList] at found
    exact countable cache (List.reduceOption_mem_iff.mpr (List.mem_of_getElem? found))

instance (h : Host K V) : Decidable h.Countable := decidable_of_iff _ Host.countable_iff.symm

/-- A cache of one pin that releases values when memory is short. Its cleaner fails on one key. -/
def Config.picky (shards : Nat) : Config UInt64 Nat where
  pinCapacity := 1
  shards := some shards
  hasher := .standard
  cleaner := some {
    callbacks := fun _ => .done ()
    verdict := fun call => if call.key = 2 then .failed (.cleanup "refused") else .succeeded }
  policy := .onPressure
  signal := some 0

/-- The cleaner only looks at the key. -/
theorem Config.plain_of_mem_picky {shards : Nat} {cleaner : Cleaner UInt64 Nat}
    (given : cleaner ∈ (Config.picky shards).cleaner) : cleaner.Plain := by
  cases given
  refine ⟨fun _ => trivial, fun call other key _ => ?_⟩
  dsimp only
  rw [key]

/-- A cache that never releases values on its own. -/
def Config.still (shards : Nat) : Config UInt64 Nat where
  pinCapacity := 4
  shards := some shards
  hasher := .standard
  cleaner := none
  policy := .manual
  signal := none

/-- Wants to keep the entries of which the keys are in another cache as well, and raises a signal. -/
def inAnother (key : UInt64) (_ : Nat) : Routine UInt64 Nat Bool :=
  .ask 1 (.containsKey key) fun reply => .ask 1 (.raise 0) fun _ => .done (reply = .flag true)

/-- The same is done to caches that are built with other shards. -/
def inTwoWays (commands : List (CacheId × Command UInt64 Nat)) :
    List (Act UInt64 Nat × Act UInt64 Nat) :=
  (commands.map fun e => .on e.1 e.2).map fun a => (a, a)

/-- Two caches of one shard each are built, and two caches of two shards. The same is done to them. -/
def pickyActs : List (Act UInt64 Nat × Act UInt64 Nat) :=
  (.build (.picky 1), .build (.picky 2)) :: (.build (.still 1), .build (.still 2)) ::
    inTwoWays [(0, .request (.insert 2 20)), (0, .request (.insert 3 30)),
      (0, .request (.insert 4 40)), (0, .request (.raise 0)), (0, .request (.get 4)),
      (0, .request (.insert 5 50)), (1, .request (.insert 4 41)), (0, .openCursor 0 .entry),
      (0, .exhaustCursor 0), (0, .stepCursor 0), (0, .retain fun _ => inAnother), (0, .metrics)]

/-- Two values are stored in a cache of two shards and in a cache of three, more is done, and values
    are read. -/
def stillActs (commands : List (CacheId × Command UInt64 Nat)) :
    List (Act UInt64 Nat × Act UInt64 Nat) :=
  (.build (.still 2), .build (.still 3)) :: (.build (.still 2), .build (.still 3)) ::
    inTwoWays ([(0, .request (.insert 2 20)), (0, .request (.insert 3 30))] ++ commands ++
      [(0, .request (.peek 2)), (1, .request (.peek 7))])

end ReclaimableCache
