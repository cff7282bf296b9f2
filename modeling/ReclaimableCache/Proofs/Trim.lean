import ReclaimableCache.Proofs.Ledger
import ReclaimableCache.Proofs.Rest

/-!
# Trimming to a limit

With a quiet cleaner a drain lets go exactly as many values as its budget says, or all that have no
pins if they are fewer. Under a soft limit the budget is what the live entries are above the limit and
above the number of pins, and so many entries without pins there always are.
-/

namespace ReclaimableCache

variable {K V α β : Type}

section

variable [DecidableEq K]

/-! ### What a drain lets go -/

theorem Step.released_eq_zero {s : Step K V} (consistent : s.before.Consistent)
    (keeps : s.move.releases = false) (c : CacheId) : s.released c = 0 := by
  have none : s.victims = [] := by
    obtain ⟨h, m⟩ := s
    cases m <;> first | rfl | cases keeps
  rw [released_eq consistent, none, List.length_nil, ite_self]

theorem sum_released_eq_zero {history : List (Step K V)} {c : CacheId}
    (consistent : ∀ s ∈ history, s.before.Consistent)
    (keep : ∀ s ∈ history, s.move.releases = false) : (history.map (Step.released c)).sum = 0 := by
  apply List.sum_eq_zero
  intro n member
  obtain ⟨s, inside, rfl⟩ := List.mem_map.mp member
  exact Step.released_eq_zero (consistent s inside) (keep s inside) c

/-- A policy is told what the cache is like. -/
theorem Move.consult_snd {h : Host K V} {c : CacheId} {cache : Cache K V}
    (found : h.cache? c = some cache) :
    ((Move.consult c).make h).2 = cache.budget (cache.usage h.board) := by
  simp only [Move.make, Host.consult, found]

/-- The parts of a cache that its entries, their values and their pins are in. -/
structure Cache.SameParts (c d : Cache K V) : Prop where
  table : d.table = c.table
  pool : d.pool = c.pool
  queue : d.queue = c.queue

theorem Cache.SameParts.accounts {c d : Cache K V} (parts : c.SameParts d)
    (pending : d.pending = c.pending) {flight : List SlotId} (accounts : c.Accounts flight) :
    d.Accounts flight := by
  obtain ⟨nodup, dead, installed⟩ := accounts
  rw [← pending] at nodup dead installed
  rw [← parts.pool] at dead installed
  rw [← parts.table] at installed
  exact ⟨nodup, dead, installed⟩

/-- What a drain leaves of a cache once it let some slots go. -/
structure Cache.Drains (c later : Cache K V) (gone : List SlotId) : Prop where
  queue : later.queue = c.queue
  left : ∀ key, later.table.get? key = (c.liveSlot? key).filter fun id => id ∉ gone
  size : later.size + gone.length = c.toList.length
  settled : later.Accounts []
  swept : later.pending = []

theorem Cache.Accounts.length_toList_sweep {c : Cache K V} {flight : List SlotId}
    (accounts : c.Accounts flight) (consistent : c.Consistent) :
    c.sweep.1.toList.length = c.toList.length := by
  rw [← length_liveSlots, ← length_liveSlots]
  apply List.Perm.length_eq
  apply (List.perm_ext_iff_of_nodup consistent.sweep.nodup_liveSlots consistent.nodup_liveSlots).mpr
  intro id
  simp only [consistent.sweep.mem_liveSlots, consistent.mem_liveSlots,
    accounts.liveSlot?_sweep consistent]

namespace Work

variable {h : Host K V} {c : CacheId} {cache : Cache K V} (found : h.cache? c = some cache)
  (quiet : cache.Quiet) (consistent : h.Consistent) (limit : Nat)

include found quiet consistent

/-- A pass releases what it chose, and nothing more while the cleaner is called. -/
theorem released_evict (budget : Nat) :
    (((evict (Host.runCallbacks limit) c budget).steps h).map (Step.released c)).sum =
      min budget cache.unpinned.length := by
  have released := Move.cache?_make_of_target found (m := .releaseValues c budget) rfl
  have still : (cache.releaseValues budget).1.Quiet := quiet
  have first : Step.released c ⟨h, .releaseValues c budget⟩ = min budget cache.unpinned.length := by
    have target : (Move.releaseValues c budget : Move K V).target = some c := rfl
    rw [Step.released_eq consistent, if_pos target, ← (consistent c cache found).length_victims]
    simp only [Step.victims, Move.make, Host.onCache, found]
  have sound := (consistent.work (evict (Host.runCallbacks limit) c budget)).1
  rw [evict, steps_bind, steps_bind, steps_bind, run_make, steps_make, steps_make, steps_pure,
    List.append_nil] at sound ⊢
  rw [List.map_append, List.sum_append, List.map_singleton, List.sum_singleton, first]
  rw [sum_released_eq_zero fun s member => sound s (List.mem_append_right _ member), Nat.add_zero]
  intro s member
  rcases List.mem_append.mp member with member | member
  · have dull := mem_steps_cleanAll released (still.callsBack limit) (fun _ => rfl) still _ member
    obtain ⟨g, m⟩ := s
    cases m <;> first | rfl | simp [Move.aloof, Move.disposing] at dull
  · exact List.mem_singleton.mp member ▸ rfl

/-- What is made of a budget where nothing waits to be swept out. -/
theorem spend_quiet (swept : cache.pending = []) (budget : Nat) :
    (∃ failures later, ((spend (Host.runCallbacks limit) c budget).run h).1.cache? c = some later ∧
      (cache.passed budget failures).sweep.1.SameParts later ∧ later.pending = []) ∧
    (((spend (Host.runCallbacks limit) c budget).steps h).map (Step.released c)).sum =
      min budget cache.unpinned.length := by
  by_cases nothing : budget = 0
  · subst nothing
    have none : cache.candidates 0 cache.startShard = [] := by rw [Cache.candidates, if_pos rfl]
    have same := Cache.passed_of_nothing none
    have waits : (cache.passed 0 0).pending = [] := by rw [same, swept]
    rw [spend, if_pos rfl, steps_pure, Nat.zero_min]
    refine ⟨⟨0, cache, found, ?_, swept⟩, rfl⟩
    rw [Cache.sweep_of_swept waits, same]
    exact ⟨rfl, rfl, rfl⟩
  · have here := consistent c cache found
    have amount := released_evict found quiet consistent limit budget
    obtain ⟨_, released, after, _⟩ := evict_quiet found quiet limit budget
    generalize (cache.callsOn h c _).countP cache.failsIn = failures at after
    have ends := (consistent.work (evict (Host.runCallbacks limit) c budget)).2
    rw [spend, if_neg nothing, run_bind, steps_bind, List.map_append, List.sum_append, amount]
    generalize (evict (Host.runCallbacks limit) c budget).run h = evicted at *
    by_cases idle : evicted.2 = 0
    · have victims : (cache.releaseValues budget).2 = [] := by
        rw [← List.length_eq_zero_iff, ← released, idle]
      have waits : (cache.passed budget failures).pending = [] := by
        rw [Cache.passed, victims, swept, List.map_nil, List.append_nil]
      rw [if_pos idle]
      refine ⟨⟨failures, _, after, ?_, waits⟩, rfl⟩
      rw [Cache.sweep_of_swept waits]
      exact ⟨rfl, rfl, rfl⟩
    · have swept := Move.cache?_make_of_target after (m := .sweep c) rfl
      have none := Step.released_eq_zero (s := ⟨evicted.1, .sweep c⟩) ends rfl c
      rw [if_neg idle, steps_make, List.map_singleton, List.sum_singleton, none]
      exact ⟨⟨failures, _, swept, ⟨rfl, rfl, rfl⟩, rfl⟩, rfl⟩

/-- A drain lets go the first slots without pins that are left by its sweep, as many as the policy
    says. -/
theorem drain_quiet {flight : List SlotId} (accounts : cache.Accounts flight)
    (settled : cache.sweep.1.Accounts []) :
    let gone := cache.sweep.1.unpinned.take
      (cache.sweep.1.budget (cache.sweep.1.usage h.board))
    (∃ later, ((drain (Host.runCallbacks limit) c).run h).1.cache? c = some later ∧
      cache.Drains later gone) ∧
    (((drain (Host.runCallbacks limit) c).steps h).map (Step.released c)).sum = gone.length := by
  intro gone
  have here := consistent c cache found
  have swept := Move.cache?_make_of_target found (m := .sweep c) rfl
  have board := h.board_make (m := .sweep c) nofun
  have asked := Move.cache?_make_of_target swept (m := .consult c) rfl
  have told : ((Move.consult c).make ((Move.sweep c).make h).1).2 =
      cache.sweep.1.budget (cache.sweep.1.usage h.board) := by
    rw [Move.consult_snd swept, board]
    rfl
  have sound := (consistent.make (.sweep c)).make (.consult c)
  obtain ⟨⟨failures, later, ends, parts, waits⟩, amount⟩ := spend_quiet asked quiet sound limit rfl
    (cache.sweep.1.budget (cache.sweep.1.usage h.board))
  rw [drain_eq_spend, run_bind, run_make, run_bind, run_make, steps_bind, run_make, steps_make,
    steps_bind, run_make, steps_make, told, List.map_append, List.map_append, List.sum_append,
    List.sum_append, amount]
  -- Neither the sweep nor the question to the policy releases anything.
  have none := Step.released_eq_zero (s := ⟨h, .sweep c⟩) consistent rfl c
  have none' := Step.released_eq_zero (s := ⟨_, .consult c⟩) (consistent.make (.sweep c)) rfl c
  refine ⟨⟨later, ends, ?_⟩, ?_⟩
  · have rests : (Move.effect ((Move.sweep c).make h).1.board cache.sweep.1 (.consult c)).Accounts
        [] := ⟨settled.nodup, settled.dead, settled.installed⟩
    have asks := sound c _ asked
    refine ⟨parts.queue, fun key => ?_, ?_, ?_, waits⟩
    · rw [parts.table, rests.get?_passed asks, ← accounts.liveSlot?_sweep here]
      rfl
    · rw [Cache.size, parts.table, List.length_take, ← accounts.length_toList_sweep here]
      exact rests.size_passed asks _ failures
    · exact parts.accounts waits ((rests.passed _ failures).sweep (asks.passed _ failures))
  · rw [List.map_singleton, List.map_singleton, List.sum_singleton, List.sum_singleton, none, none',
      List.length_take]
    simp only [Nat.zero_add]
    rfl

end Work

/-! ### Soft limits -/

namespace Cache

variable {c : Cache K V} {maxEntries : Nat} {positive : 0 < maxEntries}
  (policy : c.policy = .softLimit maxEntries positive) (consistent : c.Consistent)
  {flight : List SlotId} (accounts : c.Accounts flight) (settled : c.sweep.1.Accounts [])
  {board : PressureBoard}

include policy consistent accounts settled

section

variable (calm : (c.usage board).underPressure = false)

include calm

/-- Without pressure the entries above the limit may all be let go. -/
theorem Accounts.length_gone :
    (c.sweep.1.unpinned.take (c.sweep.1.budget (c.sweep.1.usage board))).length =
      c.toList.length - max maxEntries c.queue.capacity := by
  have live := accounts.length_toList_sweep consistent
  have size := settled.size_eq consistent.sweep rfl
  have budget : c.sweep.1.budget (c.sweep.1.usage board) =
      c.sweep.1.size - max maxEntries c.queue.capacity := by
    have same : (c.sweep.1.usage board).underPressure = false := calm
    have still : c.sweep.1.policy = .softLimit maxEntries positive := policy
    rw [Cache.budget, still, Policy.budget, same]
    rfl
  have parts := consistent.sweep.length_unpinned_add
  have pinned := consistent.sweep.length_pinned_le
  have queue : c.sweep.1.queue = c.queue := rfl
  rw [queue] at parts pinned
  rw [List.length_take, budget]
  omega

end

section

variable (raised : (c.usage board).underPressure = true) (few : c.size ≤ Policy.unlimited)

include raised few

/-- Under pressure all that has no pins is let go. -/
theorem Accounts.gone_eq_unpinned :
    c.sweep.1.unpinned.take (c.sweep.1.budget (c.sweep.1.usage board)) = c.sweep.1.unpinned := by
  have budget : c.sweep.1.budget (c.sweep.1.usage board) = Policy.unlimited := by
    have same : (c.sweep.1.usage board).underPressure = true := raised
    have still : c.sweep.1.policy = .softLimit maxEntries positive := policy
    rw [Cache.budget, still, Policy.budget, same]
    rfl
  have size := settled.size_eq consistent.sweep rfl
  have live := accounts.length_toList_sweep consistent
  have below := consistent.length_toList_le
  rw [budget, List.take_of_length_le]
  apply consistent.sweep.length_unpinned_le
  omega

end

end Cache

/-- What a drain makes of a cache with a soft limit: without pressure the entries above the limit go,
    as long as there are more than there may be pins; under pressure those with pins stay. -/
structure Cache.Trims (c later : Cache K V) (maxEntries released : Nat) (underPressure : Bool) :
    Prop where
  queue : later.queue = c.queue
  live : later.toList.length = later.size
  rest : later.size + released = c.toList.length
  calm : underPressure = false → released = c.toList.length - max maxEntries c.queue.capacity ∧
    later.size = min c.toList.length (max maxEntries c.queue.capacity)
  raised : underPressure = true → c.size ≤ Policy.unlimited →
    (∀ key, later.table.get? key = (c.liveSlot? key).filter fun id => id ∈ c.queue.ids) ∧
      later.size ≤ c.queue.capacity

theorem Cache.Trims.size_le {c later : Cache K V} {maxEntries released : Nat} {underPressure : Bool}
    (trims : c.Trims later maxEntries released underPressure) (few : c.size ≤ Policy.unlimited) :
    later.size ≤ max maxEntries c.queue.capacity := by
  have rest := trims.rest
  cases under : underPressure with
  | false =>
    have trimmed := (trims.calm under).2
    omega
  | true =>
    have pinned := (trims.raised under few).2
    omega

theorem Work.drain_softLimit {h : Host K V} {c : CacheId} {cache : Cache K V}
    (found : h.cache? c = some cache) (quiet : cache.Quiet) (consistent : h.Consistent) (limit : Nat)
    {flight : List SlotId} (accounts : cache.Accounts flight) (settled : cache.sweep.1.Accounts [])
    {maxEntries : Nat} {positive : 0 < maxEntries}
    (policy : cache.policy = .softLimit maxEntries positive) :
    ∃ later, ((drain (Host.runCallbacks limit) c).run h).1.cache? c = some later ∧
      cache.Trims later maxEntries
        (((drain (Host.runCallbacks limit) c).steps h).map (Step.released c)).sum
        (cache.usage h.board).underPressure := by
  have here := consistent c cache found
  obtain ⟨⟨later, ends, drains⟩, amount⟩ :=
    drain_quiet found quiet consistent limit accounts settled
  have sound := (consistent.work (drain (Host.runCallbacks limit) c)).2 c later ends
  refine ⟨later, ends, drains.queue, ?_, ?_, fun calm => ?_, fun raised few => ⟨fun key => ?_, ?_⟩⟩
  · exact (drains.settled.size_eq sound drains.swept).symm
  · rw [amount]
    exact drains.size
  · have size := drains.size
    have gone := accounts.length_gone policy here settled calm
    rw [amount]
    omega
  · rw [drains.left, accounts.gone_eq_unpinned policy here settled raised few,
      ← accounts.liveSlot?_sweep here, here.sweep.filter_unpinned]
    rfl
  · have size := drains.size
    have parts := here.sweep.length_unpinned_add
    have pinned := here.sweep.length_pinned_le
    have live := accounts.length_toList_sweep here
    have queue : cache.sweep.1.queue = cache.queue := rfl
    rw [accounts.gone_eq_unpinned policy here settled raised few] at size
    rw [queue] at parts pinned
    omega

end

end ReclaimableCache
