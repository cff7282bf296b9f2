import Mathlib.Algebra.Order.BigOperators.Group.List
import ReclaimableCache.Proofs.Balance

/-!
# Stale entries

An entry is stale when the value in its slot is released. Entries get stale when values are released,
and no stale entry comes into a table otherwise, so that those that are there and those that left are
all that were released. What waits in line is counted in the same way.
-/

namespace ReclaimableCache

variable {K V α β : Type}

section

variable [DecidableEq K]

/-! ### Getting stale and leaving -/

omit [DecidableEq K] in
/-- Whether a slot has an entry and its value is released. -/
def Host.isStale (h : Host K V) (c : CacheId) (id : SlotId) : Bool := h.holds c id && h.isDead c id

/-- Whether a stale entry leaves the table. -/
def Step.loses (s : Step K V) (c : CacheId) (id : SlotId) : Bool :=
  s.before.isStale c id && !s.after.holds c id

namespace Host

variable {h : Host K V} {c : CacheId} {id : SlotId}

/-- Releasing values takes no entry out. -/
theorem holds_make_of_releases {m : Move K V} (releases : m.releases = true) :
    (m.make h).1.holds c id = h.holds c id := by
  cases found : h.cache? c with
  | none => rw [(holds_make_of_none found).1, holds, found, Option.any_none]
  | some cache =>
    have table : (m.effectOn h.board c cache).table = cache.table := by
      rw [Move.effectOn]
      split
      · cases m with
        | releaseValues d budget => rfl
        | releaseValue d key =>
          rw [Move.effect, Cache.releaseValueOf]
          split <;> rfl
        | _ => cases releases
      · rfl
    rw [holds, Move.cache?_make_of_some found, Option.any_some, table, holds, found, Option.any_some]

/-- A slot that enters a table is live. -/
theorem isDead_of_installs (consistent : h.Consistent) {m : Move K V}
    (before : h.holds c id = false) (after : (m.make h).1.holds c id = true) :
    (m.make h).1.isDead c id = false := by
  cases found : h.cache? c with
  | none =>
    rw [(holds_make_of_none found).1] at after
    cases after
  | some cache =>
    rcases holds_make consistent found after with held | ⟨key, value, rfl, rfl⟩
    · rw [before] at held
      cases held
    · rw [isDead, Move.cache?_make_of_target found rfl, Option.any_some,
        Cache.isDead_effect cache h.board rfl]
      exact SlotPool.isDead_of_le (Nat.le_refl _)

/-- An entry gets stale when its value is released, and leaves at most once. -/
theorem isStale_make (consistent : h.Consistent) (m : Move K V) (c : CacheId) (id : SlotId) :
    ((m.make h).1.isStale c id).toNat + (Step.loses ⟨h, m⟩ c id).toNat =
      (h.isStale c id).toNat + (Step.releases ⟨h, m⟩ c id).toNat := by
  have loses : Step.loses ⟨h, m⟩ c id = (h.isStale c id && !(m.make h).1.holds c id) := rfl
  have releases : Step.releases ⟨h, m⟩ c id = (!h.isDead c id && (m.make h).1.isDead c id) := rfl
  rw [loses, releases, isStale, isStale]
  cases dead : h.isDead c id with
  | true =>
    have stays := (grows_make m h).isDead dead
    cases held : h.holds c id with
    | true => cases (m.make h).1.holds c id <;> simp [stays]
    | false =>
      cases after : (m.make h).1.holds c id with
      | false => simp
      | true =>
        rw [isDead_of_installs consistent held after] at stays
        cases stays
  | false =>
    cases later : (m.make h).1.isDead c id with
    | false => simp
    | true =>
      have released : Step.releases ⟨h, m⟩ c id = true := by
        rw [releases, dead, later]
        rfl
      obtain ⟨held, _, isRelease⟩ := of_releases consistent released
      simp [held, holds_make_of_releases isRelease]

end Host

/-! ### Counting -/

omit [DecidableEq K]

/-- Two counts make up two others if they do so for each element. -/
theorem countP_add_countP {σ : Type} {p q r t : σ → Bool} (l : List σ)
    (each : ∀ x, (p x).toNat + (q x).toNat = (r x).toNat + (t x).toNat) :
    l.countP p + l.countP q = l.countP r + l.countP t := by
  rw [countP_eq_sum p, countP_eq_sum q, countP_eq_sum r, countP_eq_sum t, ← List.sum_map_add,
    ← List.sum_map_add]
  exact congrArg List.sum (List.map_congr_left fun x _ => each x)

theorem countP_range {p : Nat → Bool} {m n : Nat} (le : m ≤ n) (none : ∀ i, m ≤ i → p i = false) :
    (List.range n).countP p = (List.range m).countP p := by
  induction n, le using Nat.le_induction with
  | base => rfl
  | succ n le ih => simp [List.range_succ, ih, none n le]

end

section

variable [DecidableEq K]

/-- All slots that a cache has made are below a number. -/
def Host.MadeBelow (h : Host K V) (c : CacheId) (n : Nat) : Prop :=
  ∀ cache, h.cache? c = some cache → cache.pool.nextId ≤ n

/-- The number of stale entries of slots below a number. -/
def Host.staleCount (h : Host K V) (c : CacheId) (n : Nat) : Nat :=
  (List.range n).countP fun id => h.isStale c id

/-- What got stale is there or has left. -/
theorem Work.staleCount_run (w : Work K V α) {h : Host K V} (consistent : h.Consistent) (c : CacheId)
    (n : Nat) :
    (w.run h).1.staleCount c n +
        ((w.steps h).map fun s => (List.range n).countP fun id => s.loses c id).sum =
      h.staleCount c n +
        ((w.steps h).map fun s => (List.range n).countP fun id => s.releases c id).sum :=
  Work.balance_run (fun h => h.staleCount c n) fun s member =>
    countP_add_countP _ fun id =>
      Host.isStale_make ((consistent.work w).1 s member) s.move c id

namespace Step

variable {s : Step K V} {c : CacheId} {n : Nat}

theorem countP_releases (consistent : s.before.Consistent) (below : s.before.MadeBelow c n) :
    ((List.range n).countP fun id => s.releases c id) = s.released c := by
  have held : ∀ {id}, s.releases c id = true → s.before.holds c id = true := fun releases =>
    (Host.of_releases consistent releases).1
  rw [released]
  cases found : s.before.cache? c with
  | none =>
    rw [Option.elim_none, List.countP_eq_zero]
    intro id _ releases
    have nothing := held releases
    simp [Host.holds, found] at nothing
  | some cache =>
    apply countP_range (below cache found)
    intro id unknown
    rw [← Bool.not_eq_true]
    intro releases
    have made := Host.hasMade_of_holds consistent (held releases)
    simp only [Host.hasMade, found, Option.any_some, decide_eq_true_eq] at made
    exact absurd made (Nat.not_lt.mpr unknown)

end Step

/-- Each entry is that of a slot, and no slot has two. -/
theorem Host.perm_holds {h : Host K V} {c : CacheId} {cache : Cache K V} {n : Nat}
    (consistent : h.Consistent) (found : h.cache? c = some cache) (below : h.MadeBelow c n) :
    ((List.range n).filter fun id => h.holds c id).Perm (cache.table.toList.map Prod.snd) := by
  rw [List.perm_ext_iff_of_nodup (List.nodup_range.filter _) (consistent c cache found).nodup_slots]
  intro id
  have made : h.holds c id = true → id < n := by
    intro held
    have known := hasMade_of_holds consistent held
    simp only [hasMade, found, Option.any_some, decide_eq_true_eq] at known
    exact Nat.lt_of_lt_of_le known (below cache found)
  rw [List.mem_filter, List.mem_range, and_iff_right_of_imp made, holds, found, Option.any_some]
  simp

theorem Host.countP_holds {h : Host K V} {c : CacheId} {n : Nat} (consistent : h.Consistent)
    (below : h.MadeBelow c n) : ((List.range n).countP fun id => h.holds c id) = h.size c := by
  cases found : h.cache? c with
  | none => simp [holds, size, found]
  | some cache =>
    rw [List.countP_eq_length_filter, (perm_holds consistent found below).length_eq, List.length_map,
      size, found, Option.elim_some, Cache.size, (consistent c cache found).table.counted]

/-! ### Sweeps -/

namespace Step

variable {s : Step K V} {c : CacheId} {n : Nat}

variable {h : Host K V} {flight : Flight}

/-- Whatever entry a sweep takes out is stale. -/
theorem holds_sweep (consistent : h.Consistent) (accounts : h.Accounts flight) (id : SlotId) :
    (((Move.sweep c).make h).1.holds c id).toNat + (loses ⟨h, .sweep c⟩ c id).toNat =
      (h.holds c id).toNat := by
  have lost : loses ⟨h, .sweep c⟩ c id =
      (h.isStale c id && !((Move.sweep c).make h).1.holds c id) := rfl
  rw [lost, Host.isStale]
  cases found : h.cache? c with
  | none =>
    have none : h.holds c id = false := by rw [Host.holds, found, Option.any_none]
    rw [(Host.holds_make_of_none found).1, none]
    rfl
  | some cache =>
    have swept := Move.cache?_make_of_target found (m := .sweep c) rfl
    have cached := consistent c cache found
    cases held : ((Move.sweep c).make h).1.holds c id with
    | true =>
      obtain ⟨key, bound⟩ := (Host.holds_iff (consistent.make _) swept).mp held
      rw [Move.effect, cached.get?_sweep, Option.filter_eq_some_iff] at bound
      have before : h.holds c id = true := (Host.holds_iff consistent found).mpr ⟨key, bound.1⟩
      simp [before]
    | false =>
      cases before : h.holds c id with
      | false => simp
      | true =>
        obtain ⟨key, bound⟩ := (Host.holds_iff consistent found).mp before
        have dead : h.isDead c id = true := by
          rw [Host.isDead, found, Option.any_some]
          apply (accounts.present c cache found).dead id
          by_contra free
          rw [← Bool.not_eq_true] at held
          refine held ((Host.holds_iff (consistent.make _) swept).mpr ⟨key, ?_⟩)
          rw [Move.effect, cached.get?_sweep, bound, Option.filter_eq_some_iff]
          simpa using fun waits => free (List.mem_append_left _ waits)
        simp [dead]

/-- What a sweep takes out is counted. -/
theorem countP_loses_sweep (consistent : h.Consistent) (accounts : h.Accounts flight)
    (below : h.MadeBelow c n) :
    ((List.range n).countP fun id => loses ⟨h, .sweep c⟩ c id) = gain c .swept ⟨h, .sweep c⟩ := by
  have taken : (List.range n).countP (fun id => ((Move.sweep c).make h).1.holds c id) +
      (List.range n).countP (fun id => loses ⟨h, .sweep c⟩ c id) =
        (List.range n).countP (fun id => h.holds c id) + (List.range n).countP fun _ => false :=
    countP_add_countP _ (holds_sweep consistent accounts)
  have none : (List.range n).countP (fun _ => false) = 0 := by simp
  have later : ((Move.sweep c).make h).1.MadeBelow c n := by
    intro cache there
    rcases Move.exists_of_cache?_make _ there with ⟨old, before, rfl⟩ | ⟨_, config, builds, _⟩
    · rw [Move.effectOn, Move.target, if_pos rfl]
      exact below old before
    · cases builds
  rw [Host.countP_holds consistent below, Host.countP_holds (consistent.make _) later, none] at taken
  have sizes := size_after (s := ⟨h, .sweep c⟩) consistent c
  rw [after] at sizes
  cases found : h.cache? c with
  | none =>
    have empty : h.size c = 0 := by rw [Host.size, found, Option.elim_none]
    rw [gain_of_absent found]
    omega
  | some cache =>
    simp [gain, exits, Move.gain, Move.exits, Move.target, found] at sizes ⊢
    omega

/-- Whether a stale entry is taken out by its slot. -/
def picksStale (c : CacheId) (s : Step K V) : Bool :=
  match s.move with
  | .takeOutSlot d key id => d == c && (s.before.cache? c).any fun cache =>
      cache.table.isCurrent key id && cache.pool.isDead id
  | _ => false

/-- Other moves change the table only where they use a cache, or pick. -/
theorem holds_of_idle {m : Move K V} (noSweep : m ≠ .sweep c) (unused : m.uses ≠ some c)
    (unpicked : ∀ key id, m ≠ .takeOutSlot c key id) {id : SlotId} (held : h.holds c id = true) :
    (m.make h).1.holds c id = true := by
  cases found : h.cache? c with
  | none => simp [Host.holds, found] at held
  | some cache =>
    have table : (m.effectOn h.board c cache).table = cache.table := by
      rw [Move.effectOn]
      split
      · rename_i target
        cases m with
        | sweep d => exact absurd (congrArg Move.sweep (Option.some.inj target)) noSweep
        | look d key => exact absurd target unused
        | place d key value => exact absurd target unused
        | takeOut d key => exact absurd target unused
        | dropEntries d => exact absurd target unused
        | takeOutSlot d key slot =>
          cases target
          exact absurd rfl (unpicked key slot)
        | releaseValue d key =>
          rw [Move.effect, Cache.releaseValueOf]
          split <;> rfl
        | _ => rfl
      · rfl
    rw [Host.holds, found, Option.any_some] at held
    rw [Host.holds, Move.cache?_make_of_some found, Option.any_some, table, held]

/-- Stale entries leave by sweeps where no stale entry is met by what uses the cache, or picked. -/
theorem loses_eq_false (consistent : h.Consistent) {m : Move K V} (noSweep : m ≠ .sweep c)
    (fresh : m.uses = some c → ∀ id, h.isStale c id = false)
    (unpicked : picksStale c ⟨h, m⟩ = false) (id : SlotId) : loses ⟨h, m⟩ c id = false := by
  have lost : loses ⟨h, m⟩ c id = (h.isStale c id && !(m.make h).1.holds c id) := rfl
  rw [lost]
  cases stale : h.isStale c id with
  | false => rfl
  | true =>
    obtain ⟨held, dead⟩ := Bool.and_eq_true_iff.mp stale
    have unused : m.uses ≠ some c := fun uses => by
      rw [fresh uses id] at stale
      cases stale
    by_cases picks : ∃ key slot, m = .takeOutSlot c key slot
    · obtain ⟨key, slot, rfl⟩ := picks
      cases found : h.cache? c with
      | none => simp [Host.holds, found] at held
      | some cache =>
        have taken := Move.cache?_make_of_target found (m := .takeOutSlot c key slot) rfl
        obtain ⟨k, bound⟩ := (Host.holds_iff consistent found).mp held
        have kept : ¬ (k = key ∧ cache.table.get? key = some slot) := by
          rintro ⟨rfl, current⟩
          rw [bound] at current
          cases current
          simp only [Host.isDead, found, Option.any_some] at dead
          simp [picksStale, found] at unpicked
          rw [unpicked bound] at dead
          cases dead
        have still := (Host.holds_iff (consistent.make _) taken).mpr ⟨k, by
          rw [Move.effect, Cache.takeOutSlot, ShardedMap.get?_eraseIfSame, if_neg kept, bound]⟩
        simp [still]
    · simp [holds_of_idle noSweep unused (fun key slot same => picks ⟨key, slot, same⟩) held]

end Step

/-! ### Slots in line -/

/-- The number of slots of a cache that wait to be swept out. -/
def Host.pendingCount (h : Host K V) (c : CacheId) : Nat :=
  (h.cache? c).elim 0 fun cache => cache.pending.length

namespace Step

omit [DecidableEq K]

/-- How often a move puts a slot of a cache in line, whether the cache is there or not. -/
def lines (c : CacheId) (s : Step K V) : Nat :=
  match s.move with
  | .enqueue d _ => if d = c then 1 else 0
  | _ => 0

/-- How many slots of a cache a move puts in line. -/
def queued (c : CacheId) (s : Step K V) : Nat :=
  match s.move with
  | .enqueue d _ => if d = c then (s.before.cache? c).isSome.toNat else 0
  | _ => 0

/-- How many slots of a cache a move takes from the line. -/
def unqueued (c : CacheId) (s : Step K V) : Nat :=
  match s.move with
  | .sweep d => if d = c then s.before.pendingCount c else 0
  | _ => 0

end Step

theorem Cache.pending_length_effect (cache : Cache K V) (m : Move K V) (board : PressureBoard) :
    (m.effect board cache).pending.length +
        (match m with | .sweep _ => cache.pending.length | _ => 0) =
      cache.pending.length + match m with | .enqueue .. => 1 | _ => 0 := by
  cases m with
  | sweep d => exact (Nat.zero_add _).trans (Nat.add_zero _).symm
  | enqueue d id => simp [Move.effect, enqueue]
  | _ => rw [pending_effect _ _ (by rintro _ _ ⟨⟩) (by rintro _ ⟨⟩)]

theorem Step.pendingCount_after (s : Step K V) (c : CacheId) :
    s.after.pendingCount c + s.unqueued c = s.before.pendingCount c + s.queued c := by
  obtain ⟨h, m⟩ := s
  cases found : h.cache? c with
  | none =>
    have before : h.pendingCount c = 0 := by rw [Host.pendingCount, found, Option.elim_none]
    have later : (m.make h).1.pendingCount c = 0 := by
      cases there : (m.make h).1.cache? c with
      | none => rw [Host.pendingCount, there, Option.elim_none]
      | some cache =>
        rcases Move.exists_of_cache?_make m there with ⟨old, also, _⟩ | ⟨_, config, _, _, made⟩
        · rw [found] at also
          cases also
        · rw [Host.pendingCount, there, Option.elim_some, (Cache.new_assemble made).pending,
            List.length_nil]
    -- Nothing is queued in a cache that is not there, and a new one begins with nothing.
    have none : queued c ⟨h, m⟩ = 0 ∧ unqueued c ⟨h, m⟩ = 0 := by
      cases m <;> simp [queued, unqueued, found, before]
    rw [after, later, before, none.1, none.2]
  | some cache =>
    have becomes := Move.cache?_make_of_some found m
    have changes := cache.pending_length_effect m h.board
    rw [Move.effectOn] at becomes
    rw [after, Host.pendingCount, becomes, Host.pendingCount, found, Option.elim_some,
      Option.elim_some]
    by_cases target : m.target = some c
    · rw [if_pos target]
      cases m with
      | sweep d =>
        cases target
        simpa [queued, unqueued, Host.pendingCount, found] using changes
      | enqueue d id =>
        cases target
        simpa [queued, unqueued, found] using changes
      | _ => exact changes
    · rw [if_neg target]
      have away : ∀ {d : CacheId}, m.target = some d → d ≠ c := by
        rintro d there rfl
        exact target there
      cases m with
      | sweep d => simp [queued, unqueued, away rfl]
      | enqueue d id => simp [queued, unqueued, away rfl]
      | _ => rfl

/-- With nothing in flight stale entries wait in line. -/
theorem Host.staleCount_le {h : Host K V} {c : CacheId} (consistent : h.Consistent)
    (accounts : h.Accounts fun _ => []) (n : Nat) : h.staleCount c n ≤ h.pendingCount c := by
  rw [staleCount, List.countP_eq_length_filter]
  cases found : h.cache? c with
  | none => simp [isStale, holds, found]
  | some cache =>
    rw [pendingCount, found, Option.elim_some]
    apply List.Subperm.length_le
    apply List.subperm_of_subset (List.nodup_range.filter _)
    intro id member
    obtain ⟨held, dead⟩ := Bool.and_eq_true_iff.mp (List.mem_filter.mp member).2
    obtain ⟨key, bound⟩ := (holds_iff consistent found).mp held
    rw [isDead, found, Option.any_some] at dead
    have accounted := (accounts.present c cache found).installed key id bound dead
    rwa [List.append_nil] at accounted

/-- A sweep takes out at most what waits in line. -/
theorem Cache.sweepOut_le (pool : SlotPool K V) (ids : List SlotId) (table : ShardedMap K) :
    (sweepOut pool ids table).2 ≤ ids.length := by
  induction ids generalizing table with
  | nil => exact Nat.le_refl 0
  | cons id ids ih =>
    rw [sweepOut, List.length_cons]
    cases pool.get? id with
    | none =>
      have rest := ih table
      dsimp only
      omega
    | some slot =>
      have rest := ih (table.eraseIfSame slot.key id)
      dsimp only
      split <;> omega

namespace Step

theorem gain_swept_le (s : Step K V) (c : CacheId) : s.gain c .swept ≤ s.unqueued c := by
  obtain ⟨h, m⟩ := s
  cases m with
  | sweep d =>
    by_cases same : d = c
    · subst same
      cases found : h.cache? d with
      | none => simp [gain, found]
      | some cache =>
        have most : cache.sweep.2 ≤ cache.pending.length :=
          Cache.sweepOut_le cache.pool cache.pending cache.table
        simpa [gain, unqueued, Host.pendingCount, Move.target, Move.gain, found] using most
    · simp [gain, Move.target, same]
  | _ =>
    rw [gain_eq_zero (fun _ _ => rfl)]
    exact Nat.zero_le _

/-! ### What is released is put in line and counted -/

omit [DecidableEq K] in
theorem queued_le (s : Step K V) (c : CacheId) : s.queued c ≤ s.lines c := by
  obtain ⟨h, m⟩ := s
  cases m with
  | enqueue d id =>
    simp only [queued, lines]
    split
    · exact Bool.toNat_le _
    · exact Nat.le_refl 0
  | _ => exact Nat.le_refl 0

end Step

/-- One for each value of a cache that is released. -/
def Rates.ofReleasesIn (c : CacheId) : Rates :=
  ⟨fun d => if d = c then 1 else 0, fun _ => 0, fun _ _ => 0, fun _ => 0, fun _ => 0⟩

/-- One for each value of a cache that is released, less one for each of its slots in line. -/
def Rates.ofLine (c : CacheId) : Rates :=
  ⟨fun d => if d = c then 1 else 0, fun d => if d = c then -1 else 0, fun _ _ => 0, fun _ => 0,
    fun _ => 0⟩

namespace Step

variable {s : Step K V}

theorem released_eq_gain (consistent : s.before.Consistent) (reports : s.Reports) (c : CacheId) :
    (s.released c : ℤ) = s.gain c .reclaimed + (Rates.ofReleasesIn c).weight s := by
  rw [released_eq consistent]
  obtain ⟨h, m⟩ := s
  cases m with
  | releaseValues d budget =>
    rw [gain_eq_zero (fun _ _ => rfl)]
    by_cases same : d = c <;> simp [Move.target, Rates.weight, Rates.ofReleasesIn, same]
  | releaseValue d key =>
    rw [gain_eq_zero (fun _ _ => rfl)]
    by_cases same : d = c <;> simp [Move.target, Rates.weight, Rates.ofReleasesIn, same]
  | closePass d released failures =>
    by_cases same : d = c
    · subst same
      cases found : h.cache? d with
      | none =>
        have nothing : released = 0 := by
          by_contra some
          obtain ⟨cache, there⟩ := reports.2 some
          rw [found] at there
          cases there
        simp [gain, victims, Rates.weight, Rates.ofReleasesIn, found, nothing]
      | some cache =>
        simp [gain, victims, Move.target, Move.gain, Rates.weight, Rates.ofReleasesIn, found]
    · simp [gain, Move.target, Rates.weight, Rates.ofReleasesIn, same]
  | countReclaim d failed =>
    obtain ⟨cache, found⟩ : ∃ cache, h.cache? d = some cache := reports
    by_cases same : d = c
    · subst same
      simp [gain, victims, Move.target, Move.gain, Rates.weight, Rates.ofReleasesIn, found]
    · simp [gain, Move.target, Rates.weight, Rates.ofReleasesIn, same]
  | _ =>
    rw [gain_eq_zero (fun _ _ => rfl)]
    simp [victims, Rates.weight, Rates.ofReleasesIn]

theorem released_eq_lines (consistent : s.before.Consistent) (c : CacheId) :
    (s.released c : ℤ) = s.lines c + (Rates.ofLine c).weight s := by
  rw [released_eq consistent]
  obtain ⟨h, m⟩ := s
  cases m with
  | releaseValues d budget =>
    by_cases same : d = c <;> simp [lines, Move.target, Rates.weight, Rates.ofLine, same]
  | releaseValue d key =>
    by_cases same : d = c <;> simp [lines, Move.target, Rates.weight, Rates.ofLine, same]
  | enqueue d id =>
    by_cases same : d = c <;> simp [lines, victims, Rates.weight, Rates.ofLine, same]
  | closePass d released failures =>
    by_cases same : d = c <;> simp [lines, victims, Rates.weight, Rates.ofLine, same]
  | countReclaim d failed =>
    by_cases same : d = c <;> simp [lines, victims, Rates.weight, Rates.ofLine, same]
  | _ => simp [lines, victims, Rates.weight, Rates.ofLine]

end Step

namespace Session

variable [BEq V] (limit : Nat) (board : PressureBoard) (acts : List (Act K V)) (c : CacheId)

/-- What was put in line waits there, or was taken from it by sweeps. -/
theorem pendingCount_run :
    ((empty board : Session K V).run limit acts).1.host.pendingCount c +
        (((empty board : Session K V).history limit acts).map (Step.unqueued c)).sum =
      (((empty board : Session K V).history limit acts).map (Step.queued c)).sum := by
  have none : (Host.empty board : Host K V).pendingCount c = 0 := by
    simp [Host.pendingCount, Host.empty, Host.cache?]
  have all := Work.balance_run (w := Act.workAll limit ([] : Cursors K) acts)
    (h := Host.empty board) (fun h => h.pendingCount c) fun s _ => s.pendingCount_after c
  rw [none, Nat.zero_add] at all
  exact all

/-- Each value of a cache that is released is counted by the cache. -/
theorem sum_released :
    (((empty board : Session K V).history limit acts).map (Step.released c)).sum =
      gained c .reclaimed ((empty board : Session K V).history limit acts) := by
  have even := sum_weight (K := K) (V := V) limit board acts (.ofReleasesIn c) fun s _ d id _ => by
    cases s.move <;> rfl
  have each := sum_eq_add_sum fun s member =>
    Step.released_eq_gain (consistent_before (K := K) (V := V) limit board acts s member)
      (reports_run limit board acts s member) c
  simp only [gained]
  omega

/-- No more slots of a cache are put in line than values are released. -/
theorem sum_queued_le :
    (((empty board : Session K V).history limit acts).map (Step.queued c)).sum ≤
      (((empty board : Session K V).history limit acts).map (Step.released c)).sum := by
  have even := sum_weight (K := K) (V := V) limit board acts (.ofLine c) fun s _ d id _ => by
    cases s.move <;> rfl
  have each := sum_eq_add_sum fun s member =>
    Step.released_eq_lines (consistent_before (K := K) (V := V) limit board acts s member) c
  have most := List.sum_le_sum fun s (_ : s ∈ (empty board : Session K V).history limit acts) =>
    s.queued_le c
  omega

end Session

end

end ReclaimableCache
