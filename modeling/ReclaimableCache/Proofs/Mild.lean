import ReclaimableCache.Proofs.Rest

/-!
# Mild operations

With a quiet cleaner a drain neither stores a value nor looks one up, and leaves all pins where they
are. Apart from operations that store values, look one up or clear a cache, whatever is done on
request is as mild, as long as code of the caller makes no requests.
-/

namespace ReclaimableCache

variable {K V α : Type}

/-! ### Mild moves -/

/-- Whether a move neither builds a cache nor stores a value nor looks one up nor takes pins off. -/
def Move.mild : Move K V → Bool
  | build _ | place .. | look .. | unpinAll _ => false
  | _ => true

/-- A move that releases values or disposes of them is mild. -/
theorem Move.mild_of_ofRelease {m : Move K V} (releases : m.ofRelease = true) : m.mild = true := by
  cases m <;> first | rfl | cases releases

/-- Whether a request neither stores a value nor looks one up nor clears a cache. -/
def Request.mild : Request K V → Bool
  | insert .. | insertOptional .. | storeNext .. | get _ | clear => false
  | _ => true

/-- Whether a command is mild, and code of the caller in it makes no requests. -/
def Command.Mild : Command K V → Prop
  | .request asked => asked.mild = true
  | .insertOptional _ value => value = none
  | .retain keep => ∀ heard key value, ∃ kept, (keep heard key value).Gives kept
  | command => command.stores = false

/-- A mild command stores nothing by itself, unless there is nothing to be stored. -/
theorem Command.Mild.stores {command : Command K V} (mild : command.Mild) :
    command.stores = false ∨ ∃ key, command = .insertOptional key none := by
  cases command with
  | insertOptional key value =>
    obtain rfl : value = none := mild
    exact Or.inr ⟨key, rfl⟩
  | request asked => exact Or.inl rfl
  | retain keep => exact Or.inl rfl
  | _ => exact Or.inl mild

section

variable [DecidableEq K]

namespace Work

/-- Code that makes no requests does nothing that is not mild. -/
theorem always_routine {r : Routine K V α} {a : α} (gives : r.Gives a) (limit : Nat) :
    (r.work (Host.serve limit)).Always fun s => s.move.mild = true := by
  intro g s member
  have aloof := gives.always_aloof (Host.runCallbacks limit) g s member
  exact Move.mild_of_ofRelease (Move.ofRelease_of_dull (Or.inl aloof))

theorem always_follow {r : Routine K V α} {a : α} (gives : r.Gives a) (limit : Nat) :
    (follow limit r).Always fun s => s.move.mild = true := by
  intro g s member
  rw [follow, steps_map] at member
  exact always_routine gives limit g s member

variable {h : Host K V} {c : CacheId} {cache : Cache K V} (found : h.cache? c = some cache)
  (quiet : cache.Quiet) (limit : Nat)

include found quiet

/-- A pass releases values and calls a cleaner that does not call back. -/
theorem mild_evict (budget : Nat) {s : Step K V}
    (member : s ∈ (evict (Host.runCallbacks limit) c budget).steps h) : s.move.mild = true :=
  Move.mild_of_ofRelease (mem_steps_evict found quiet limit budget member)

theorem mild_spend (budget : Nat) {s : Step K V}
    (member : s ∈ (spend (Host.runCallbacks limit) c budget).steps h) : s.move.mild = true := by
  rw [spend] at member
  split at member
  · cases member
  · rw [steps_bind, List.mem_append] at member
    rcases member with member | member
    · exact mild_evict found quiet limit budget member
    · split at member
      · cases member
      · exact List.mem_singleton.mp member ▸ rfl

/-- A drain sweeps, asks the policy and makes a pass. -/
theorem mild_drain {s : Step K V} (member : s ∈ (drain (Host.runCallbacks limit) c).steps h) :
    s.move.mild = true := by
  have swept := Move.cache?_make_of_target found (m := .sweep c) rfl
  have asked := Move.cache?_make_of_target swept (m := .consult c) rfl
  rw [drain_eq_spend, steps_bind, steps_bind, run_make, run_make] at member
  simp only [List.mem_append] at member
  rcases member with member | member | member
  · exact List.mem_singleton.mp member ▸ rfl
  · exact List.mem_singleton.mp member ▸ rfl
  · exact mild_spend asked quiet limit _ member

/-- Hence a mild request leads to mild moves only. -/
theorem mild_performOn {request : Request K V} (mild : request.mild = true) {s : Step K V}
    (member : s ∈ (performOn (Host.runCallbacks limit) c cache request).steps h) :
    s.move.mild = true := by
  cases request with
  | insert key value => cases mild
  | insertOptional key value => cases mild
  | storeNext key value => cases mild
  | get key => cases mild
  | clear => cases mild
  | remove key =>
    rw [performOn, steps_map, remove, steps_bind, List.mem_append] at member
    rcases member with member | member
    · exact mild_drain found quiet limit member
    · exact List.mem_singleton.mp member ▸ rfl
  | reclaim key =>
    rw [performOn, steps_map] at member
    exact Move.mild_of_ofRelease (mem_steps_reclaim found quiet limit key member)
  | releaseUnpinned =>
    rw [performOn, steps_map, releaseUnpinned, steps_bind, List.mem_append] at member
    rcases member with member | member
    · exact mild_evict found quiet limit _ member
    · exact List.mem_singleton.mp member ▸ rfl
  | beginBulk =>
    rw [performOn, steps_bind, steps_pure, List.append_nil] at member
    exact mild_drain found quiet limit member
  | removeRecent key age =>
    rw [performOn, steps_map] at member
    cases recent : cache.pool.recent? age with
    | none =>
      rw [recent] at member
      cases member
    | some id =>
      rw [recent] at member
      exact List.mem_singleton.mp member ▸ rfl
  | raise signal => exact List.mem_singleton.mp member ▸ rfl
  | _ => cases member

omit quiet in
/-- A request is served in three parts: the host is looked at, something is done, and it is noted.
    -/
theorem steps_serve (request : Request K V) :
    (Host.serve limit c request).steps h =
      ⟨h, .view⟩ :: ((performOn (Host.runCallbacks limit) c cache request).steps h ++
        [⟨((performOn (Host.runCallbacks limit) c cache request).run h).1, .noteServed c request
          ((performOn (Host.runCallbacks limit) c cache request).run h).2⟩]) := by
  rw [Host.serve, Host.perform, steps_bind, run_make]
  simp only [Move.make, found]
  rw [steps_bind]
  rfl

variable [BEq V]

/-- And so does a mild command. -/
theorem mild_workOn {command : Command K V} (mild : command.Mild) (cursors : Cursors K)
    {s : Step K V} (member : s ∈ (command.workOn limit cursors c cache).steps h) :
    s.move.mild = true := by
  have sequenced := sequenced_always (K := K) (V := V) (P := fun s => s.move.mild = true) fun _ => rfl
  by_cases request : ∃ asked, command = .request asked
  · obtain ⟨asked, rfl⟩ := request
    rw [Command.workOn, steps_bind, steps_pure, List.append_nil, steps_serve found] at member
    simp only [List.mem_cons, List.mem_append, List.not_mem_nil, or_false] at member
    rcases member with rfl | member | rfl
    · rfl
    · exact mild_performOn found quiet limit mild member
    · rfl
  · rcases mild.stores with stores | ⟨key, rfl⟩
    · refine sequenced.coupled.workOn limit limit cursors c cache stores ?_ ?_ ?_ h s member
      · exact fun asked same => absurd ⟨asked, same⟩ request
      · rintro keep rfl heard key value
        obtain ⟨kept, gives⟩ := mild heard key value
        exact always_routine gives limit
      · exact fun _ d key id => always_make fun _ => rfl
    · cases member

end Work

/-! ### Histories -/

namespace Session

variable [BEq V] {s : Session K V} {c : CacheId} {cache : Cache K V} {limit : Nat}

/-- A look-up drains the cache first. -/
theorem history_get {first : List (Act K V)}
    (found : (s.run limit first).1.host.cache? c = some cache) (key : K)
    (second : List (Act K V)) :
    ∃ earlier later, s.history limit (first ++ .on c (.request (.get key)) :: second) =
      earlier ++ (Work.drain (Host.runCallbacks limit) c).steps (s.run limit first).1.host ++
        later := by
  generalize ran : (s.run limit first).1 = t at found ⊢
  have looked : ∃ later, (Command.work limit t.cursors c (.request (.get key))).steps t.host =
      [⟨t.host, .view⟩, ⟨t.host, .view⟩] ++
        ((Work.drain (Host.runCallbacks limit) c).steps t.host ++ later) := by
    rw [Command.work, Work.steps_bind, Work.run_make]
    simp only [Move.make, found]
    rw [Command.workOn, Work.steps_bind, Work.steps_pure, List.append_nil, Work.steps_serve found,
      Work.performOn, Work.steps_map, Work.get, Work.steps_bind, List.append_assoc]
    exact ⟨_, rfl⟩
  obtain ⟨later, looked⟩ := looked
  rw [history_append, history_cons, ran, Act.work, looked]
  refine ⟨s.history limit first ++ [⟨t.host, .view⟩, ⟨t.host, .view⟩],
    later ++ history limit (act limit t (.on c (.request (.get key)))).1 second, ?_⟩
  simp only [List.append_assoc]

end Session

end

end ReclaimableCache
