import ReclaimableCache.Proofs.Calls
import ReclaimableCache.Proofs.Mild
import ReclaimableCache.Proofs.Protection
import ReclaimableCache.Proofs.Trim
import ReclaimableCache.Proofs.Undisturbed

/-!
# Bounds on the size of a table

A table grows by one entry at most with each value that is stored. Where each operation that stores
values drains a cache with a soft limit first, the limit bounds the table after the operation too, up
to the number of values that were stored since.
-/

namespace ReclaimableCache

variable {K V α : Type}

section

variable [DecidableEq K]

/-! ### What makes a table grow -/

omit [DecidableEq K] in
theorem Step.stores_of_adds {s : Step K V} (adds : s.move.adds = false) (c : CacheId) :
    s.stores c = false := by
  obtain ⟨h, m⟩ := s
  cases m <;> first | rfl | cases adds

namespace Work

/-- A table grows by no more entries than values are stored. -/
theorem size_run_le (w : Work K V α) {h : Host K V} (consistent : h.Consistent) (c : CacheId) :
    (w.run h).1.size c ≤ h.size c + (w.steps h).countP (Step.stores c) := by
  have all := w.size_run consistent c
  have stored := Session.gained_stores (c := c) (w.steps h)
  omega

omit [DecidableEq K] in
theorem countP_stores_eq_zero {history : List (Step K V)}
    (adds : ∀ s ∈ history, s.move.adds = false) (c : CacheId) :
    history.countP (Step.stores c) = 0 := by
  rw [List.countP_eq_zero]
  intro s member
  rw [Step.stores_of_adds (adds s member), Bool.not_eq_true]

theorem size_run_of_adds (w : Work K V α) {h : Host K V} (consistent : h.Consistent)
    (adds : ∀ s ∈ w.steps h, s.move.adds = false) (c : CacheId) : (w.run h).1.size c ≤ h.size c := by
  have grows := w.size_run_le consistent c
  have none := countP_stores_eq_zero adds c
  omega

end Work

omit [DecidableEq K] in
theorem Move.adds_of_mild {m : Move K V} (mild : m.mild = true) : m.adds = false := by
  cases m <;> first | rfl | cases mild

/-- Whether a command stores nothing, and code of the caller in it makes no requests. -/
def Command.Storeless : Command K V → Prop
  | .request asked => asked.storeless = true
  | .insertOptional _ value => value = none
  | .retain keep => ∀ heard key value, ∃ kept, (keep heard key value).Gives kept
  | command => command.stores = false

omit [DecidableEq K] in
theorem Command.Storeless.cases {command : Command K V} (storeless : command.Storeless) :
    command.Mild ∨ (∃ key, command = .request (.get key)) ∨ command = .request .clear := by
  cases command with
  | request asked =>
    cases asked with
    | insert key value => cases storeless
    | insertOptional key value => cases storeless
    | storeNext key value => cases storeless
    | get key => exact Or.inr (Or.inl ⟨key, rfl⟩)
    | clear => exact Or.inr (Or.inr rfl)
    | _ => exact Or.inl rfl
  | _ => exact Or.inl storeless

namespace Work

variable [BEq V] {h : Host K V} {c : CacheId} {cache : Cache K V} (found : h.cache? c = some cache)
  (quiet : cache.Quiet) (limit : Nat)

include found quiet

theorem adds_workOn {command : Command K V} (storeless : command.Storeless) (cursors : Cursors K)
    {s : Step K V} (member : s ∈ (command.workOn limit cursors c cache).steps h) :
    s.move.adds = false := by
  rcases storeless.cases with mild | ⟨key, rfl⟩ | rfl
  · exact Move.adds_of_mild (mild_workOn found quiet limit mild cursors member)
  · rw [Command.workOn, steps_bind, steps_pure, List.append_nil, steps_serve found, performOn,
      steps_map, get, steps_bind] at member
    simp only [List.mem_cons, List.mem_append, List.not_mem_nil, or_false] at member
    rcases member with rfl | (member | member) | rfl
    · rfl
    · exact Move.adds_of_mild (mild_drain found quiet limit member)
    · exact List.mem_singleton.mp member ▸ rfl
    · rfl
  · rw [Command.workOn, steps_bind, steps_pure, List.append_nil, steps_serve found, performOn,
      clear, steps_bind, steps_pure, List.append_nil, steps_bind, steps_bind] at member
    simp only [List.mem_cons, List.mem_append, List.not_mem_nil, or_false] at member
    rcases member with rfl | (member | member | member) | rfl
    · rfl
    · exact List.mem_singleton.mp member ▸ rfl
    · exact List.mem_singleton.mp member ▸ rfl
    · exact List.mem_singleton.mp member ▸ rfl
    · rfl

end Work

/-! ### Sizes after commands -/

namespace Work

/-- A source that makes no requests stores what it gives. -/
theorem countP_storeAll (limit : Nat) (c : CacheId)
    {source : List (Routine K V (Except Panic (K × V)))}
    (plain : ∀ next ∈ source, ∃ given, next.Gives given) (h : Host K V) :
    ((storeAll limit c source).steps h).countP (Step.stores c) ≤ source.length := by
  induction source generalizing h with
  | nil => exact Nat.le_refl 0
  | cons next rest ih =>
    obtain ⟨given, gives⟩ := plain next List.mem_cons_self
    have asked := countP_stores_eq_zero
      (fun s member => Move.adds_of_mild (always_follow gives limit h s member)) c
    rw [storeAll, steps_bind, List.countP_append, asked, Nat.zero_add, List.length_cons]
    cases ((follow limit next).run h).2 with
    | error p => exact Nat.zero_le _
    | ok e =>
      have one : ([⟨((follow limit next).run h).1, .place c e.1 e.2⟩] : List (Step K V)).countP
          (Step.stores c) ≤ 1 := List.countP_le_length
      have others := ih (fun other member => plain other (List.mem_cons_of_mem next member))
        ((make (.place c e.1 e.2)).run ((follow limit next).run h).1).1
      dsimp only
      rw [steps_bind, steps_make, List.countP_append]
      omega

end Work

namespace Host.Ready

variable {h : Host K V} {c : CacheId} {cache : Cache K V} (ready : h.Ready c cache)
  {maxEntries : Nat} {positive : 0 < maxEntries}
  (policy : cache.policy = .softLimit maxEntries positive) (few : h.size c ≤ Policy.unlimited)
  (limit : Nat)

include ready policy few

omit policy few in
/-- The policy of a cache and the number of its pins are never changed. -/
theorem still {w : Work K V α} (settles : w.Settles) :
    ∃ later, (w.run h).1.Ready c later ∧ later.policy = cache.policy ∧
      later.queue.capacity = cache.queue.capacity := by
  obtain ⟨later, there, grows⟩ := h.grows_run w c cache ready.found
  obtain ⟨same, also, capacity⟩ := HasRoom.run ⟨cache, ready.found, rfl⟩ w
  rw [there, Option.some.injEq] at also
  exact ⟨later, ready.work settles there, grows.policy, also ▸ capacity⟩

theorem size_drain_le :
    ((Work.drain (runCallbacks limit) c).run h).1.size c ≤ max maxEntries cache.queue.capacity := by
  obtain ⟨later, ends, trims⟩ := Work.drain_softLimit ready.found ready.quiet ready.consistent limit
    ready.accounted (ready.accounted.sweep ready.here) policy
  rw [size, ready.found] at few
  rw [size, ends]
  exact trims.size_le few

/-- What follows a drain makes the table grow by no more entries than values are stored. -/
theorem size_after_drain_le (f : Unit → Work K V α) :
    ((Work.drain (runCallbacks limit) c >>= f).run h).1.size c ≤
      max maxEntries cache.queue.capacity +
        ((f ()).steps ((Work.drain (runCallbacks limit) c).run h).1).countP (Step.stores c) := by
  have drained := ready.size_drain_le policy few limit
  have grows := (f ()).size_run_le
    (ready.consistent.work (Work.drain (runCallbacks limit) c)).2 c
  rw [Work.run_bind]
  exact grows.trans (Nat.add_le_add_right drained _)

theorem size_get_le (key : K) : ((Work.get (runCallbacks limit) c key).run h).1.size c ≤
    max maxEntries cache.queue.capacity :=
  ready.size_after_drain_le policy few limit fun _ => Work.make (.look c key)

theorem size_remove_le (key : K) : ((Work.remove (runCallbacks limit) c key).run h).1.size c ≤
    max maxEntries cache.queue.capacity :=
  ready.size_after_drain_le policy few limit fun _ => Work.make (.takeOut c key)

theorem size_insert_le (key : K) (value : V) :
    ((Work.insert (runCallbacks limit) c key value).run h).1.size c ≤
      max maxEntries cache.queue.capacity + 1 :=
  (ready.size_after_drain_le policy few limit fun _ => Work.make (.place c key value)).trans
    (Nat.add_le_add_left List.countP_le_length _)

/-- What is computed may do as it likes: the value is stored right after another drain. -/
theorem size_getOrCompute_le {key : K} {compute : Routine K V (Except Panic V)}
    (fewer : ∀ t ∈ (Work.getOrCompute limit c key compute).steps h, t.before.size c ≤ Policy.unlimited)
    {value : V} {computed : Bool}
    (obtained : ((Work.getOrCompute limit c key compute).run h).2 = .ok (value, computed)) :
    ((Work.getOrCompute limit c key compute).run h).1.size c ≤
      max maxEntries cache.queue.capacity + computed.toNat := by
  have callbacks := Work.inherited_settles.runCallbacks (K := K) (V := V) limit
  have looked := ready.size_get_le policy few limit key
  rw [Work.getOrCompute, Work.run_bind] at obtained ⊢
  rw [Work.getOrCompute, Work.steps_bind] at fewer
  cases got : ((Work.get (runCallbacks limit) c key).run h).2 with
  | some there =>
    exact looked.trans (Nat.le_add_right _ _)
  | none =>
    rw [got] at obtained fewer
    dsimp only at obtained fewer ⊢
    rw [Work.run_bind] at obtained ⊢
    rw [Work.steps_bind] at fewer
    cases given : ((Work.follow limit compute).run
      ((Work.get (runCallbacks limit) c key).run h).1).2 with
    | error p =>
      rw [given] at obtained
      cases obtained
    | ok made =>
      rw [given] at obtained fewer
      have settles : (Work.get (runCallbacks limit) c key >>= fun _ =>
          Work.follow limit compute).Settles :=
        Work.inherited_settles.bind (Work.inherited_settles.get callbacks c key) fun _ =>
          Work.inherited_settles.follow limit compute
      obtain ⟨later, asked, same, capacity⟩ := ready.still settles
      rw [Work.run_bind] at asked
      have countable := fewer ⟨_, .sweep c⟩
        (List.mem_append_right _ (List.mem_append_right _ List.mem_cons_self))
      have inserted := asked.size_insert_le (same.trans policy) countable limit key made
      dsimp only at obtained ⊢
      rw [Work.run_bind, Work.run_pure] at obtained ⊢
      cases obtained
      rw [← capacity]
      exact inserted

end Host.Ready

namespace Session

variable [BEq V] {s : Session K V} {c : CacheId} {cache : Cache K V} {limit : Nat}

theorem size_step_request (found : s.host.cache? c = some cache) (limit : Nat)
    (asked : Request K V) : (s.step limit c (.request asked)).1.host.size c =
      ((Work.performOn (Host.runCallbacks limit) c cache asked).run s.host).1.size c := by
  rw [Host.size, Host.size, cache?_step_request found]

/-- Whatever is done makes a table grow by no more entries than values are stored. -/
theorem size_act_le (consistent : s.host.Consistent) (limit : Nat) (c : CacheId) (a : Act K V) :
    (s.act limit a).1.host.size c ≤
      s.host.size c + (s.history limit [a]).countP (Step.stores c) := by
  rw [history_single]
  exact Work.size_run_le _ consistent c

theorem size_step_of_storeless (found : s.host.cache? c = some cache) (quiet : cache.Quiet)
    (consistent : s.host.Consistent) (limit : Nat) {command : Command K V}
    (storeless : command.Storeless) :
    (s.step limit c command).1.host.size c ≤ s.host.size c := by
  rw [host_step found]
  apply Work.size_run_of_adds _ consistent
  intro t member
  exact Work.adds_workOn found quiet limit storeless s.cursors member

section

variable (ready : s.host.Ready c cache) {maxEntries : Nat} {positive : 0 < maxEntries}
  (policy : cache.policy = .softLimit maxEntries positive)

include ready policy

section

variable (few : s.host.size c ≤ Policy.unlimited) (limit : Nat)

include few

theorem size_step_get_le (key : K) : (s.step limit c (.request (.get key))).1.host.size c ≤
    max maxEntries cache.queue.capacity := by
  rw [size_step_request ready.found, Work.performOn, Work.run_map]
  exact ready.size_get_le policy few limit key

theorem size_step_remove_le (key : K) : (s.step limit c (.request (.remove key))).1.host.size c ≤
    max maxEntries cache.queue.capacity := by
  rw [size_step_request ready.found, Work.performOn, Work.run_map]
  exact ready.size_remove_le policy few limit key

theorem size_step_insert_le (key : K) (value : V) :
    (s.step limit c (.request (.insert key value))).1.host.size c ≤
        max maxEntries cache.queue.capacity + 1 ∧
      (s.step limit c (.insertShared key value)).1.host.size c ≤
        max maxEntries cache.queue.capacity + 1 ∧
      (s.step limit c (.insertOptional key (some value))).1.host.size c ≤
        max maxEntries cache.queue.capacity + 1 := by
  have inserted := ready.size_insert_le policy few limit key value
  refine ⟨?_, ?_, ?_⟩
  · rw [size_step_request ready.found, Work.performOn, Work.run_map]
    exact inserted
  · rw [host_step ready.found, Command.workOn, Work.run_bind, Work.run_pure, Work.run_insertShared]
    rw [Work.run_insert] at inserted
    exact inserted
  · rw [host_step ready.found, Command.workOn, Work.run_bind, Work.insertOptional, Work.run_map,
      Work.run_pure]
    exact inserted

theorem size_step_insertAll_le (source : List (Routine K V (Except Panic (K × V)))) :
    (s.step limit c (.insertAll source)).1.host.size c ≤ max maxEntries cache.queue.capacity +
        (s.history limit [.on c (.insertAll source)]).countP (Step.stores c) ∧
      ((∀ next ∈ source, ∃ given, next.Gives given) →
        (s.step limit c (.insertAll source)).1.host.size c ≤
          max maxEntries cache.queue.capacity + source.length) := by
  have grows := ready.size_after_drain_le policy few limit fun _ => Work.storeAll limit c source
  have same : (s.step limit c (.insertAll source)).1.host =
      ((Work.insertAll limit c source).run s.host).1 := by
    rw [host_step ready.found, Command.workOn, Work.run_bind, Work.run_pure]
  rw [same]
  refine ⟨grows.trans (Nat.add_le_add_left ?_ _), fun plain => grows.trans ?_⟩
  · rw [history_command ready.found, Command.workOn, Work.steps_bind, Work.insertAll,
      Work.steps_bind, List.countP_cons, List.countP_append, List.countP_append]
    omega
  · exact Nat.add_le_add_left (Work.countP_storeAll limit c plain _) _

end

theorem size_step_getOrCompute_le {key : K} {compute : Routine K V (Except Panic V)}
    (few : ∀ t ∈ s.history limit [.on c (.getOrCompute key compute)],
      t.before.size c ≤ Policy.unlimited) :
    (s.step limit c (.getOrCompute key compute)).1.host.size c ≤
        max maxEntries cache.queue.capacity +
          (s.history limit [.on c (.getOrCompute key compute)]).countP (Step.stores c) ∧
      ∀ value computed,
        (s.step limit c (.getOrCompute key compute)).2 = .obtained value computed →
        (s.step limit c (.getOrCompute key compute)).1.host.size c ≤
          max maxEntries cache.queue.capacity + computed.toNat := by
  have made : s.history limit [.on c (.getOrCompute key compute)] =
      ⟨s.host, .view⟩ :: (Work.getOrCompute limit c key compute).steps s.host := by
    rw [history_command ready.found, Command.workOn, Work.steps_bind, Work.steps_pure,
      List.append_nil]
  have answer : (s.step limit c (.getOrCompute key compute)).2 =
      .ofExcept (fun r => .obtained r.1 r.2)
        ((Work.getOrCompute limit c key compute).run s.host).2 := by
    rw [answer_step ready.found, Command.workOn, Work.run_bind, Work.run_pure]
  have same : (s.step limit c (.getOrCompute key compute)).1.host =
      ((Work.getOrCompute limit c key compute).run s.host).1 := by
    rw [host_step ready.found, Command.workOn, Work.run_bind, Work.run_pure]
  rw [made] at few ⊢
  have now : s.host.size c ≤ Policy.unlimited := few _ List.mem_cons_self
  rw [same, answer]
  refine ⟨?_, fun value computed obtained => ?_⟩
  · have looked := ready.size_get_le policy now limit key
    have sound := (ready.consistent.work (Work.get (Host.runCallbacks limit) c key)).2
    rw [Work.getOrCompute, Work.run_bind, Work.steps_bind, List.countP_cons, List.countP_append]
    refine (Work.size_run_le _ sound c).trans ?_
    omega
  · cases got : ((Work.getOrCompute limit c key compute).run s.host).2 with
    | error p =>
      rw [got] at obtained
      cases obtained
    | ok r =>
      rw [got] at obtained
      obtain ⟨rfl, rfl⟩ := Answer.obtained.inj obtained
      exact ready.size_getOrCompute_le policy now limit
        (fun t member => few t (List.mem_cons_of_mem _ member)) got

end

/-! ### Runs -/

section

variable {board : PressureBoard} {acts : List (Act K V)}
  (found : ((empty board).run limit acts).1.host.cache? c = some cache)

include found

/-- The policy and the cleaner of a cache were the same before. -/
theorem same_before {t : Step K V} (member : t ∈ (empty board).history limit acts)
    {before : Cache K V} (there : t.before.cache? c = some before) :
    cache.cleaner = before.cleaner ∧ cache.policy = before.policy := by
  have grows := (Host.grows_make t.move t.before).trans ((Host.grows_steps _ _).2 t member)
  obtain ⟨last, ends, grown⟩ := grows c before there
  cases found.symm.trans ends
  exact ⟨grown.cleaner, grown.policy⟩

/-- Each drain in the course of a run trims a cache with a quiet cleaner and a soft limit. -/
theorem trims_of_drain (quiet : cache.Quiet) {maxEntries : Nat} {positive : 0 < maxEntries}
    (policy : cache.policy = .softLimit maxEntries positive) {earlier later : List (Step K V)}
    {level : Nat} {h : Host K V} {before : Cache K V} (there : h.cache? c = some before)
    (split : (empty board).history limit acts =
      earlier ++ (Work.drain (Host.runCallbacks level) c).steps h ++ later) :
    ∃ after, ((Work.drain (Host.runCallbacks level) c).run h).1.cache? c = some after ∧
      before.Trims after maxEntries
        (((Work.drain (Host.runCallbacks level) c).steps h).map (Step.released c)).sum
        (before.usage h.board).underPressure := by
  have inside : ∀ t ∈ (Work.drain (Host.runCallbacks level) c).steps h,
      t ∈ (empty board).history limit acts := by
    intro t member
    rw [split]
    exact List.mem_append_left _ (List.mem_append_right _ member)
  have first : (⟨h, .sweep c⟩ : Step K V) ∈ (empty board).history limit acts :=
    inside _ List.mem_cons_self
  have second : (⟨((Move.sweep c).make h).1, .consult c⟩ : Step K V) ∈
      (empty board).history limit acts := inside _ (List.mem_cons_of_mem _ List.mem_cons_self)
  obtain ⟨flight, accounts⟩ := (accounts_run limit board acts).2 _ first
  obtain ⟨cleaner, same⟩ := same_before found first there
  have still : before.Quiet := by
    rwa [Cache.Quiet, cleaner] at quiet
  have quietAt : ((empty board).run limit acts).1.host.QuietAt c := by
    intro last ends
    cases found.symm.trans ends
    exact quiet
  have rests := rests_of_asks quietAt second rfl
  have swept := Move.cache?_make_of_target there (m := .sweep c) rfl
  exact Work.drain_softLimit there still (consistent_before limit board acts _ first) level
    (accounts.present c before there) (rests.calm _ swept) (same.symm.trans policy)

/-- A soft limit trims exactly, with a quiet cleaner, whatever signals are raised. A drain that sees no
    new raise releases what the live entries are above the limit, or above the number of pins if that
    is larger, and leaves as many live entries as this allows; one that sees a raise leaves those with
    pins, as long as a machine word can count the entries. So no more are in the table after a value was
    looked up or taken out, and as many more at most as values were stored where some were. Whatever else
    is done, the table does not grow. -/
theorem trims_to_limit (quiet : cache.Quiet) {maxEntries : Nat} {positive : 0 < maxEntries}
    (policy : cache.policy = .softLimit maxEntries positive) :
    (∀ (earlier later : List (Step K V)) (level : Nat) (h : Host K V) (before : Cache K V),
      h.cache? c = some before → (empty board).history limit acts =
        earlier ++ (Work.drain (Host.runCallbacks level) c).steps h ++ later →
      ∃ after, ((Work.drain (Host.runCallbacks level) c).run h).1.cache? c = some after ∧
        before.Trims after maxEntries
          (((Work.drain (Host.runCallbacks level) c).steps h).map (Step.released c)).sum
          (before.usage h.board).underPressure) ∧
    (cache.size ≤ Policy.unlimited →
      let s := ((empty board).run limit acts).1
      let most := max maxEntries cache.queue.capacity
      let after := fun command => (s.step limit c command).1.host.size c
      (∀ key, after (.request (.get key)) ≤ most ∧ after (.request (.remove key)) ≤ most) ∧
      (∀ key value, after (.request (.insert key value)) ≤ most + 1 ∧
        after (.insertShared key value) ≤ most + 1 ∧
        after (.insertOptional key (some value)) ≤ most + 1) ∧
      (∀ key compute, (∀ t ∈ s.history limit [.on c (.getOrCompute key compute)],
          t.before.size c ≤ Policy.unlimited) →
        after (.getOrCompute key compute) ≤ most +
          (s.history limit [.on c (.getOrCompute key compute)]).countP (Step.stores c) ∧
        ∀ value computed,
          (s.step limit c (.getOrCompute key compute)).2 = .obtained value computed →
          after (.getOrCompute key compute) ≤ most + computed.toNat) ∧
      (∀ source, after (.insertAll source) ≤ most +
          (s.history limit [.on c (.insertAll source)]).countP (Step.stores c) ∧
        ((∀ next ∈ source, ∃ given, next.Gives given) →
          after (.insertAll source) ≤ most + source.length)) ∧
      (∀ command : Command K V, command.Storeless → after command ≤ cache.size) ∧
      (∀ a, (s.act limit a).1.host.size c ≤
        cache.size + (s.history limit [a]).countP (Step.stores c))) := by
  refine ⟨fun earlier later level h before there split =>
    trims_of_drain found quiet policy there split, ?_⟩
  intro countable s most after
  have ready : s.host.Ready c cache :=
    ⟨found, consistent_run limit board acts, (accounts_run limit board acts).1, quiet⟩
  have size : s.host.size c = cache.size := by rw [Host.size, found, Option.elim_some]
  have few : s.host.size c ≤ Policy.unlimited := size ▸ countable
  refine ⟨fun key => ⟨?_, ?_⟩, fun key value => ?_, fun key compute fewer => ?_, fun source => ?_,
    fun command storeless => ?_, fun a => ?_⟩
  · exact size_step_get_le ready policy few limit key
  · exact size_step_remove_le ready policy few limit key
  · exact size_step_insert_le ready policy few limit key value
  · exact size_step_getOrCompute_le ready policy fewer
  · exact size_step_insertAll_le ready policy few limit source
  · rw [← size]
    exact size_step_of_storeless found quiet ready.consistent limit storeless
  · rw [← size]
    exact size_act_le ready.consistent limit c a

end

end Session

end

/-- The same cache with a limit of two entries, which watches the signal that its cleaner raises. -/
def Config.limited : Config UInt64 Nat :=
  { Config.grumbling with policy := .softLimit 2 Nat.two_pos, signal := some 0 }

/-- Three values are stored in such a cache. -/
def limitedActs : List (Act UInt64 Nat) :=
  [.build .limited, .on 0 (.request (.insert 1 10)), .on 0 (.request (.insert 2 20)),
    .on 0 (.request (.insert 3 30))]

theorem limited_run (rest : List (Act UInt64 Nat)) :
    ∃ cache, ((Session.empty ⟨#[0]⟩).run 1 (.build .limited :: rest)).1.host.cache? 0 = some cache ∧
      cache.Quiet ∧ cache.policy = .softLimit 2 Nat.two_pos := by
  have built : (((Session.empty ⟨#[0]⟩).act 1 (.build Config.limited)).1.host.cache? 0).map
      (fun cache => (cache.cleaner, cache.policy)) =
        some (Config.grumbling.cleaner, .softLimit 2 Nat.two_pos) := rfl
  obtain ⟨made, there, shown⟩ := Option.map_eq_some_iff.mp built
  obtain ⟨configured, policy⟩ := Prod.mk.inj shown
  obtain ⟨cache, found, grows⟩ := Host.grows_run (Act.workAll 1 _ rest) _ 0 made there
  rw [Session.run_cons]
  exact ⟨cache, found, quiet_grumbling (grows.cleaner.trans configured), grows.policy.trans policy⟩

/-- A look-up releases one of them. The next one sees the raise that this led to, and leaves the value
    that was looked up. -/
theorem trims_to_limit_limited :
    ∃ acts : List (Act UInt64 Nat), acts = limitedActs ++ [.on 0 (.request (.get 3))] ∧
      (∃ before after, ((Session.empty ⟨#[0]⟩).run 1 limitedActs).1.host.cache? 0 = some before ∧
        before.toList.length = 3 ∧
        ((Work.drain (Host.runCallbacks 1) 0).run
          ((Session.empty ⟨#[0]⟩).run 1 limitedActs).1.host).1.cache? 0 = some after ∧
        after.size = 2 ∧ after.toList.length = 2) ∧
      (∃ before after, ((Session.empty ⟨#[0]⟩).run 1 acts).1.host.cache? 0 = some before ∧
        before.toList.length = 2 ∧
        ((Work.drain (Host.runCallbacks 1) 0).run
          ((Session.empty ⟨#[0]⟩).run 1 acts).1.host).1.cache? 0 = some after ∧
        after.table.get? 3 = some 2 ∧ after.size ≤ 1) ∧
      ((((Session.empty ⟨#[0]⟩).run 1 acts).1.step 1 0
        (.request (.insert 4 40))).1.host.size 0 ≤ 3) := by
  have first : (((Session.empty ⟨#[0]⟩).run 1 limitedActs).1.host.cache? 0).map (fun cache =>
      (cache.toList.length, cache.queue.capacity,
        (cache.usage ((Session.empty ⟨#[0]⟩).run 1 limitedActs).1.host.board).underPressure)) =
      some (3, 1, false) := by decide +kernel
  obtain ⟨acts, same⟩ : ∃ acts, acts = limitedActs ++ [.on 0 (.request (.get 3))] := ⟨_, rfl⟩
  have second : (((Session.empty ⟨#[0]⟩).run 1 acts).1.host.cache? 0).map (fun cache =>
        (cache.toList.length, cache.size, cache.queue, cache.liveSlot? 3,
          (cache.usage ((Session.empty ⟨#[0]⟩).run 1 acts).1.host.board).underPressure)) =
      some (2, 2, ⟨1, [2]⟩, some 2, true) := by
    subst same
    decide +kernel
  obtain ⟨last, ends, quiet, policy⟩ := limited_run
    [.on 0 (.request (.insert 1 10)), .on 0 (.request (.insert 2 20)),
      .on 0 (.request (.insert 3 30)), .on 0 (.request (.get 3)), .on 0 (.request (.get 3))]
  have drains := (Session.trims_to_limit ends quiet policy).1
  obtain ⟨cache, found, still, limit⟩ := limited_run
    [.on 0 (.request (.insert 1 10)), .on 0 (.request (.insert 2 20)),
      .on 0 (.request (.insert 3 30)), .on 0 (.request (.get 3))]
  refine ⟨acts, same, ?_, ?_, ?_⟩
  · obtain ⟨before, there, shown⟩ := Option.map_eq_some_iff.mp first
    simp only [Prod.mk.injEq] at shown
    obtain ⟨three, one, calm⟩ := shown
    obtain ⟨earlier, later, split⟩ := Session.history_get there 3 [.on 0 (.request (.get 3))]
    obtain ⟨after, made, trims⟩ := drains earlier later 1 _ before there split
    have two := (trims.calm calm).2
    rw [three, one] at two
    exact ⟨before, after, there, three, made, two, trims.live.trans two⟩
  · obtain ⟨before, there, shown⟩ := Option.map_eq_some_iff.mp second
    simp only [Prod.mk.injEq] at shown
    obtain ⟨two, size, queue, live, raised⟩ := shown
    obtain ⟨earlier, later, split⟩ := Session.history_get there 3 []
    subst same
    obtain ⟨after, made, trims⟩ := drains earlier later 1 _ before there split
    obtain ⟨left, few⟩ := trims.raised raised (by rw [size]; decide)
    rw [queue] at left few
    refine ⟨before, after, there, two, made, ?_, few⟩
    rw [left, live]
    rfl
  · subst same
    obtain ⟨other, there, shown⟩ := Option.map_eq_some_iff.mp second
    obtain rfl : cache = other := Option.some.inj (found.symm.trans there)
    simp only [Prod.mk.injEq] at shown
    obtain ⟨_, size, queue, _, _⟩ := shown
    have stores := ((Session.trims_to_limit found still limit).2 (by rw [size]; decide)).2.1 4 40
    rw [queue] at stores
    exact stores.1

end ReclaimableCache
