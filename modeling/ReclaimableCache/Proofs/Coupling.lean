import ReclaimableCache.Proofs.Forgiveness

/-!
# Coupled work

Relations between two pieces of work that are put together in the same way. If the parts are
related, so is the whole; a part that looks at the host must depend neither on how calls of cleaners
ended nor on the journal. A property of one piece of work is a relation that does not look at the
other.
-/

namespace ReclaimableCache

variable {K V α β : Type}

/-- Whether a move is part of disposing of a released value. -/
def Move.disposing : Move K V → Bool
  | enterCleaner .. | leaveCleaner .. | enqueue .. => true
  | _ => false

/-- Whether a move is neither part of a pass nor of a reclaim nor the end of a request. -/
def Move.steady : Move K V → Bool
  | releaseValues .. | releaseValue .. | closePass .. | countReclaim .. | noteServed .. => false
  | m => !m.disposing

/-- Whether a steady move does not take out an entry by its slot. Only commands do that, and not the
    requests that code of a caller makes. -/
def Move.regular : Move K V → Bool
  | takeOutSlot .. => false
  | m => m.steady

/-- Whether a regular move neither looks at everything nor stores a value nor builds a cache. -/
def Move.plain : Move K V → Bool
  | view | place .. | build _ => false
  | m => m.regular

/-- The kinds of moves form a chain: plain moves are regular, and these are steady. -/
theorem Move.regular_of_plain {m : Move K V} (plain : m.plain = true) : m.regular = true := by
  cases m <;> first | exact plain | rfl

/-- Whether a command stores values itself, apart from what code of the caller does. -/
def Command.stores : Command K V → Bool
  | insertShared .. | insertOthers .. | insertAll _ | getOrCompute .. | insertOptional .. => true
  | _ => false

/-- Whether a command takes out entries that still lead to the slots that it saw. -/
def Command.picks : Command K V → Bool
  | removeEntry .. | retain _ | removeLast _ => true
  | _ => false

/-- Whether a request stores a value as an operation of its own. -/
def Request.inserts : Request K V → Bool
  | insert .. | insertOptional .. => true
  | _ => false

/-- A routine makes only requests of a kind. -/
def Routine.Only (kind : Request K V → Bool) : Routine K V α → Prop
  | done _ => True
  | ask _ request next => kind request = true ∧ ∀ reply, (next reply).Only kind

/-- Whatever a routine asks for is a request. -/
theorem Routine.only_of_all (r : Routine K V α) : r.Only fun _ => true := by
  induction r with
  | done result => exact trivial
  | ask c request next ih => exact ⟨rfl, ih⟩

/-- A kind may be widened. -/
theorem Routine.Only.mono {kind wider : Request K V → Bool}
    (wide : ∀ request, kind request = true → wider request = true) {r : Routine K V α}
    (only : r.Only kind) : r.Only wider := by
  induction r with
  | done result => exact trivial
  | ask c request next ih => exact ⟨wide request only.1, fun reply => ih reply (only.2 reply)⟩

/-- The calls of a cleaner make only requests of a kind. -/
def Cleaner.Only (kind : Request K V → Bool) (cleaner : Cleaner K V) : Prop :=
  ∀ call, (cleaner.callbacks call).Only kind

/-! ### What cursors and requests see -/

/-- A host with another journal. -/
def Host.withJournal (h : Host K V) (j : Journal K V) : Host K V := { h with journal := j }

/-- Caches are found in the same way, whatever failed and whatever is in the journal. -/
theorem Host.cache?_unheard (h : Host K V) (j : Journal K V) (c : CacheId) :
    (h.forgiven.withJournal j).cache? c = (h.cache? c).map Cache.forgiven := h.cache?_forgiven c

namespace Cursor

variable [DecidableEq K] (c : Cache K V)

theorem firstCurrent_forgiven (entries : List (K × SlotId)) :
    firstCurrent c.forgiven entries = firstCurrent c entries := by
  induction entries with
  | nil => rfl
  | cons e rest ih =>
    have same : current? c.forgiven e = current? c e := rfl
    rw [firstCurrent, firstCurrent, same, ih]

/-- Where a cursor goes does not depend on which calls of cleaners failed. -/
theorem next_forgiven (cursor : Cursor K) : cursor.next c.forgiven = cursor.next c := by
  have advances : ∀ shardsLeft, ∀ cursor : Cursor K,
      advance c.forgiven shardsLeft cursor = advance c shardsLeft cursor := by
    intro shardsLeft
    have table : c.forgiven.table = c.table := rfl
    induction shardsLeft with
    | zero =>
      intro cursor
      rw [advance.eq_def, advance.eq_def c]
      dsimp only
      rw [firstCurrent_forgiven]
    | succ shardsLeft ih =>
      intro cursor
      rw [advance.eq_def, advance.eq_def c]
      dsimp only
      rw [firstCurrent_forgiven, table]
      cases firstCurrent c cursor.upcoming with
      | some found => rfl
      | none =>
        cases c.table.shardEntries? cursor.nextShard with
        | none => rfl
        | some entries => exact ih _
  exact advances _ cursor

end Cursor

namespace Work

/-- What a request leads to does not depend on which calls of cleaners failed. -/
theorem performOn_forgiven [DecidableEq K] (run : CallbackRunner K V) (c : CacheId)
    (cache : Cache K V) (request : Request K V) :
    performOn run c cache.forgiven request = performOn run c cache request := by
  cases request with
  | insertOptional key value => cases value <;> rfl
  | _ => rfl

/-! ### Relations -/

/-- A relation that composed work has if its parts have it. -/
structure Coupled (Φ : (α : Type) → Work K V α → Work K V α → Prop) : Prop where
  pure : ∀ {α : Type} (a : α), Φ α (pure a) (pure a)
  bind : ∀ {α β : Type} {w w' : Work K V α} {f f' : α → Work K V β}, Φ α w w' →
    (∀ a, Φ β (f a) (f' a)) → Φ β (w >>= f) (w' >>= f')
  view : ∀ {α : Type} {f f' : Host K V → Work K V α},
    (∀ h j, f' (h.forgiven.withJournal j) = f' h) → (∀ h, Φ α (f h) (f' h)) →
    Φ α (make .view >>= f) (make .view >>= f')

/-- What requests lead to under one way to run callbacks, and under another. Those are left out that
    store values, reclaim them or take out entries by their slots. -/
structure Requests (Φ : (α : Type) → Work K V α → Work K V α → Prop)
    (run run' : CallbackRunner K V) : Prop where
  drain : ∀ c, Φ Unit (drain run c) (drain run' c)
  get : ∀ c key, Φ _ (get run c key) (get run' c key)
  remove : ∀ c key, Φ _ (remove run c key) (remove run' c key)
  releaseUnpinned : ∀ c, Φ Nat (releaseUnpinned run c) (releaseUnpinned run' c)
  clear : ∀ c, Φ Unit (clear c) (clear c)
  raise : ∀ signal, Φ Unit (make (.raise signal)) (make (.raise signal))

/-- What a request leads to that stores a value, reclaims one or takes out an entry by its slot. -/
structure Changes (Φ : (α : Type) → Work K V α → Work K V α → Prop) (run run' : CallbackRunner K V)
    (c : CacheId) (request : Request K V) : Prop where
  insert : request.inserts = true → ∀ key value,
    Φ _ (Work.insert run c key value) (Work.insert run' c key value)
  place : ∀ key value, request = .storeNext key value →
    Φ _ (make (.place c key value)) (make (.place c key value))
  pick : ∀ key age, request = .removeRecent key age → ∀ id,
    Φ Bool (make (.takeOutSlot c key id)) (make (.takeOutSlot c key id))
  reclaim : ∀ key, request = .reclaim key →
    Φ Bool (Work.reclaim run c key) (Work.reclaim run' c key)

namespace Coupled

variable {Φ : (α : Type) → Work K V α → Work K V α → Prop} (coupled : Coupled Φ)

include coupled

/-- A result may be changed. -/
theorem map {w w' : Work K V α} (f : α → β) (holds : Φ α w w') : Φ β (f <$> w) (f <$> w') :=
  coupled.bind holds fun a => coupled.pure (f a)

/-- Something is done about each of a list of things. -/
theorem foldlM {f f' : β → α → Work K V β} (holds : ∀ b a, Φ β (f b a) (f' b a)) (as : List α)
    (b : β) : Φ β (as.foldlM f b) (as.foldlM f' b) := by
  induction as generalizing b with
  | nil => exact coupled.pure b
  | cons a as ih => exact coupled.bind (holds b a) ih

/-- Where the requests of a kind are related, so are the routines that make only these. -/
theorem routine_of_only {kind : Request K V → Bool}
    (serve serve' : CacheId → Request K V → Work K V (Reply V))
    (served : ∀ c request, kind request = true → Φ _ (serve c request) (serve' c request))
    {r : Routine K V α} (only : r.Only kind) : Φ _ (r.work serve) (r.work serve') := by
  induction r with
  | done result => exact coupled.pure _
  | ask c request next ih =>
    apply coupled.bind (served c request only.1)
    intro reply
    exact coupled.bind (ih reply (only.2 reply)) fun rest => coupled.pure _

/-- Where all requests are related, so are all routines. -/
theorem routine (serve serve' : CacheId → Request K V → Work K V (Reply V))
    (served : ∀ c request, Φ _ (serve c request) (serve' c request)) (r : Routine K V α) :
    Φ _ (r.work serve) (r.work serve') :=
  coupled.routine_of_only serve serve' (fun c request _ => served c request) r.only_of_all

/-- A cursor looks at the cache that it goes through. -/
theorem onCursor (cursors : Cursors K) (name : Nat)
    {f f' : Cache K V → OpenCursor K → Work K V (OpenCursor K × Answer K V)}
    (blind : ∀ cache o, f' cache.forgiven o = f' cache o)
    (holds : ∀ cache o, Φ _ (f cache o) (f' cache o)) :
    Φ _ (Command.onCursor cursors name f) (Command.onCursor cursors name f') := by
  rw [Command.onCursor, Command.onCursor]
  cases cursors.get? name with
  | none => exact coupled.pure _
  | some o =>
    apply coupled.view
    · intro h _
      rw [Host.cache?_unheard]
      cases h.cache? o.cache with
      | none => rfl
      | some cache =>
        rw [Option.map_some]
        dsimp only
        rw [blind]
    · intro h
      cases h.cache? o.cache with
      | none => exact coupled.pure _
      | some cache => exact coupled.bind (holds cache o) fun worked => coupled.pure _

section

variable (run run' : CallbackRunner K V)

/-- Whether there is a cleaner to be called is looked up on the host. -/
theorem clean (look : Φ _ (make .view) (make .view))
    (call : ∀ cleaner c victim, Φ _ (callCleaner run cleaner c victim)
      (callCleaner run' cleaner c victim)) (c : CacheId) (victim : Victim K V) :
    Φ _ (clean run c victim) (clean run' c victim) := by
  apply coupled.bind look
  intro h
  rw [dispose.eq_def, dispose.eq_def]
  cases (h.cache? c).bind Cache.cleaner with
  | none => exact coupled.pure _
  | some cleaner => exact call cleaner c victim

variable (clean : ∀ c victim, Φ _ (Work.clean run c victim) (Work.clean run' c victim))
  (enqueue : ∀ c id, Φ Unit (make (.enqueue c id)) (make (.enqueue c id)))

include clean enqueue

/-- The values of a pass are cleaned one after the other, and each is queued then. -/
theorem cleanAll (c : CacheId) (victims : List (Victim K V)) :
    Φ _ (cleanAll run c victims) (cleanAll run' c victims) := by
  induction victims with
  | nil => exact coupled.pure 0
  | cons victim victims ih =>
    apply coupled.bind (clean c victim)
    intro disposal
    apply coupled.bind (enqueue c victim.id)
    intro _
    exact coupled.bind ih fun failures => coupled.pure _

/-- A pass is made of moves, and of calls of a cleaner in between. -/
theorem evict
    (release : ∀ c budget, Φ _ (make (.releaseValues c budget)) (make (.releaseValues c budget)))
    (close : ∀ c released failures, Φ Unit (make (.closePass c released failures))
      (make (.closePass c released failures))) (c : CacheId) (budget : Nat) :
    Φ Nat (evict run c budget) (evict run' c budget) := by
  apply coupled.bind (release c budget)
  intro victims
  apply coupled.bind (coupled.cleanAll run run' clean enqueue c victims)
  intro failures
  exact coupled.bind (close c victims.length failures) fun _ => coupled.pure _

/-- A reclaim is counted, whether the call of the cleaner fails or not. -/
theorem reclaim (release : ∀ c key, Φ _ (make (.releaseValue c key)) (make (.releaseValue c key)))
    (count : ∀ c failed, Φ Unit (make (.countReclaim c failed)) (make (.countReclaim c failed)))
    (c : CacheId) (key : K) : Φ Bool (reclaim run c key) (reclaim run' c key) := by
  apply coupled.bind (release c key)
  intro released
  cases released with
  | none => exact coupled.pure _
  | some victim =>
    apply coupled.bind (clean c victim)
    intro disposal
    apply coupled.bind (count c (disposal = .failed))
    intro _
    exact coupled.bind (enqueue c victim.id) fun _ => coupled.pure _

end

section

variable (move : ∀ m : Move K V, m.plain = true → Φ m.Result (make m) (make m))

include move

theorem clear (c : CacheId) : Φ Unit (clear c) (clear c) := by
  apply coupled.bind (move (.unpinAll c) rfl)
  intro _
  exact coupled.bind (move (.sweep c) rfl) fun _ => move (.dropEntries c) rfl

variable (run run' : CallbackRunner K V)
  (evict : ∀ c budget, Φ Nat (Work.evict run c budget) (Work.evict run' c budget))

include evict

/-- A drain does not sweep again if its pass released nothing. -/
theorem drain (c : CacheId) : Φ Unit (drain run c) (drain run' c) := by
  apply coupled.bind (move (.sweep c) rfl)
  intro _
  apply coupled.bind (move (.consult c) rfl)
  intro budget
  split
  · exact coupled.pure ()
  · apply coupled.bind (evict c budget)
    intro released
    split
    · exact coupled.pure ()
    · exact move (.sweep c) rfl

theorem get (c : CacheId) (key : K) : Φ _ (get run c key) (get run' c key) :=
  coupled.bind (coupled.drain move run run' evict c) fun _ => move (.look c key) rfl

theorem insert (place : ∀ c key value, Φ _ (make (.place c key value)) (make (.place c key value)))
    (c : CacheId) (key : K) (value : V) :
    Φ _ (insert run c key value) (insert run' c key value) :=
  coupled.bind (coupled.drain move run run' evict c) fun _ => place c key value

theorem remove (c : CacheId) (key : K) : Φ _ (remove run c key) (remove run' c key) :=
  coupled.bind (coupled.drain move run run' evict c) fun _ => move (.takeOut c key) rfl

theorem releaseUnpinned (c : CacheId) :
    Φ Nat (releaseUnpinned run c) (releaseUnpinned run' c) := by
  apply coupled.bind (evict c _)
  intro released
  exact coupled.bind (move (.sweep c) rfl) fun _ => coupled.pure released

/-- Plain moves and passes make up all requests but those that change something of their own. -/
theorem requests : Requests Φ run run' :=
  ⟨coupled.drain move run run' evict, coupled.get move run run' evict,
    coupled.remove move run run' evict, coupled.releaseUnpinned move run run' evict,
    coupled.clear move, fun signal => move (.raise signal) rfl⟩

end

variable [DecidableEq K]

section

variable {run run' : CallbackRunner K V} {c : CacheId} {request : Request K V}
  (requests : Requests Φ run run') (changes : Changes Φ run run' c request)

include requests changes

/-- A request is served by one of the operations. -/
theorem performOn (cache : Cache K V) :
    Φ _ (performOn run c cache request) (performOn run' c cache request) := by
  cases request with
  | get key => exact coupled.map _ (requests.get c key)
  | peek key => exact coupled.pure _
  | containsKey key => exact coupled.pure _
  | insert key value => exact coupled.map _ (changes.insert rfl key value)
  | insertOptional key value =>
    cases value with
    | none => exact coupled.pure _
    | some value => exact coupled.map _ (changes.insert rfl key value)
  | beginBulk => exact coupled.bind (requests.drain c) fun _ => coupled.pure _
  | storeNext key value => exact coupled.map _ (changes.place key value rfl)
  | remove key => exact coupled.map _ (requests.remove c key)
  | removeRecent key age =>
    apply coupled.map
    cases cache.pool.recent? age with
    | none => exact coupled.pure _
    | some id => exact changes.pick key age rfl id
  | reclaim key => exact coupled.map _ (changes.reclaim key rfl)
  | releaseUnpinned => exact coupled.map _ (requests.releaseUnpinned c)
  | clear => exact coupled.bind (requests.clear c) fun _ => coupled.pure _
  | pending => exact coupled.pure _
  | length => exact coupled.pure _
  | raise signal => exact coupled.bind (requests.raise signal) fun _ => coupled.pure _

/-- A request to a cache that is not there does nothing. -/
theorem perform
    (note : ∀ reply, Φ Unit (make (.noteServed c request reply))
      (make (.noteServed c request reply))) :
    Φ _ (Host.perform run c request) (Host.perform run' c request) := by
  apply coupled.view
  · intro h _
    rw [Host.cache?_unheard]
    cases h.cache? c with
    | none => rfl
    | some cache =>
      rw [Option.map_some]
      dsimp only
      rw [performOn_forgiven]
  · intro h
    cases h.cache? c with
    | none => exact coupled.pure _
    | some cache =>
      apply coupled.bind (coupled.performOn requests changes cache)
      intro reply
      exact coupled.bind (note reply) fun _ => coupled.pure reply

end

theorem insertShared (move : ∀ m : Move K V, m.plain = true → Φ m.Result (make m) (make m))
    (place : ∀ c key value, Φ _ (make (.place c key value)) (make (.place c key value)))
    (limit limit' : Nat)
    (evict : ∀ c budget, Φ Nat (Work.evict (Host.runCallbacks limit) c budget)
      (Work.evict (Host.runCallbacks limit') c budget)) (c : CacheId) (key : K) (value : V) :
    Φ _ (insertShared limit c key value) (insertShared limit' c key value) := by
  apply coupled.bind (coupled.drain move _ _ evict c)
  intro _
  apply coupled.view
  · intro before _
    refine congrArg (make (.place c key value) >>= ·) (funext fun previous => ?_)
    refine congrArg (make .view >>= ·) (funext fun after => ?_)
    rw [Host.cache?_unheard]
    cases before.cache? c <;> cases after.cache? c <;> rfl
  · intro before
    apply coupled.bind (place c key value)
    intro previous
    apply coupled.view
    · intro after _
      rw [Host.cache?_unheard]
      cases before.cache? c <;> cases after.cache? c <;> rfl
    · exact fun after => coupled.pure _

section

variable (limit limit' : Nat)
  (served : ∀ c request, Φ _ (Host.serve limit c request) (Host.serve limit' c request))

include served

/-- A caller follows a routine, and its requests are served. -/
theorem follow (r : Routine K V α) : Φ α (follow limit r) (follow limit' r) :=
  coupled.map _ (coupled.routine _ _ served r)

omit served in
/-- The predicate is asked about an entry that is still live, and then it is kept or taken out. -/
theorem retainEntry {c : CacheId}
    (pick : ∀ key id, Φ Bool (make (.takeOutSlot c key id)) (make (.takeOutSlot c key id)))
    {keep : Predicate K V}
    (asked : ∀ heard key value, Φ _ ((keep heard key value).work (Host.serve limit))
      ((keep heard key value).work (Host.serve limit'))) (r : Retention K V) (e : K × SlotId) :
    Φ _ (retainEntry limit c keep r e) (retainEntry limit' c keep r e) := by
  apply coupled.view
  · intro h _
    rw [Host.cache?_unheard]
    cases h.cache? c <;> rfl
  · intro h
    cases (h.cache? c).bind fun cache => Cursor.current? cache e with
    | none => exact coupled.pure _
    | some item =>
      apply coupled.bind (asked r.heard item.1 item.2)
      intro answered
      dsimp only
      split
      · exact coupled.pure _
      · exact coupled.bind (pick e.1 e.2) fun taken => coupled.pure _

omit served in
theorem retain {c : CacheId}
    (pick : ∀ key id, Φ Bool (make (.takeOutSlot c key id)) (make (.takeOutSlot c key id)))
    {keep : Predicate K V}
    (asked : ∀ heard key value, Φ _ ((keep heard key value).work (Host.serve limit))
      ((keep heard key value).work (Host.serve limit'))) :
    Φ _ (retain limit c keep) (retain limit' c keep) := by
  have entries : ∀ (cache : Cache K V) index r,
      Φ _ ((cache.table.shardEntries index).foldlM (Work.retainEntry limit c keep) r)
        ((cache.table.shardEntries index).foldlM (Work.retainEntry limit' c keep) r) :=
    fun cache index r => coupled.foldlM (coupled.retainEntry limit limit' pick asked) _ r
  have shard : ∀ r index,
      Φ _ (retainShard limit c keep r index) (retainShard limit' c keep r index) := by
    intro r index
    apply coupled.view
    · intro h _
      rw [Host.cache?_unheard]
      cases h.cache? c <;> rfl
    · intro h
      cases h.cache? c with
      | none => exact coupled.pure _
      | some cache => exact entries cache index r
  apply coupled.view
  · intro h _
    rw [Host.cache?_unheard]
    cases h.cache? c <;> rfl
  · intro h
    cases h.cache? c with
    | none => exact coupled.pure _
    | some cache => exact coupled.foldlM shard _ _

omit served in
/-- A source is followed for each of its values until it panics. -/
theorem storeAll {c : CacheId}
    (place : ∀ key value, Φ _ (make (.place c key value)) (make (.place c key value)))
    {source : List (Routine K V (Except Panic (K × V)))}
    (asked : ∀ next ∈ source, Φ _ (Work.follow limit next) (Work.follow limit' next)) :
    Φ _ (storeAll limit c source) (storeAll limit' c source) := by
  induction source with
  | nil => exact coupled.pure _
  | cons next rest ih =>
    apply coupled.bind (asked next List.mem_cons_self)
    intro given
    cases given with
    | error p => exact coupled.pure _
    | ok e =>
      apply coupled.bind (place e.1 e.2)
      intro _
      exact ih fun other member => asked other (List.mem_cons_of_mem next member)

omit served in
/-- Values are stored after one drain. -/
theorem insertAll {c : CacheId}
    (move : ∀ m : Move K V, m.plain = true → Φ m.Result (make m) (make m))
    (place : ∀ key value, Φ _ (make (.place c key value)) (make (.place c key value)))
    (evict : ∀ c budget, Φ Nat (Work.evict (Host.runCallbacks limit) c budget)
      (Work.evict (Host.runCallbacks limit') c budget))
    {source : List (Routine K V (Except Panic (K × V)))}
    (asked : ∀ next ∈ source, Φ _ (Work.follow limit next) (Work.follow limit' next)) :
    Φ _ (insertAll limit c source) (insertAll limit' c source) :=
  coupled.bind (coupled.drain move _ _ evict c) fun _ => coupled.storeAll limit limit' place asked

omit served in
/-- The commands that do not store values themselves are looked at for themselves only if they are
    requests or ask code of the caller, or if they pick entries. -/
theorem workOn [BEq V] (cursors : Cursors K) (c : CacheId) (cache : Cache K V)
    {command : Command K V} (still : command.stores = false)
    (asked : ∀ request, command = .request request →
      Φ _ (Host.serve limit c request) (Host.serve limit' c request))
    (kept : ∀ keep, command = .retain keep → ∀ heard key value,
      Φ _ ((keep heard key value).work (Host.serve limit))
        ((keep heard key value).work (Host.serve limit')))
    (pick : command.picks = true → ∀ d key id,
      Φ Bool (make (.takeOutSlot d key id)) (make (.takeOutSlot d key id))) :
    Φ _ (command.workOn limit cursors c cache) (command.workOn limit' cursors c cache) := by
  cases command with
  | request request => exact coupled.bind (asked request rfl) fun _ => coupled.pure _
  | containsValue value => exact coupled.pure _
  | containsOptional value => cases value <;> exact coupled.pure _
  | containsEntry key value => exact coupled.pure _
  | containsEntries listed => exact coupled.pure _
  | removeEntry key value =>
    rw [Command.workOn, Command.workOn]
    cases cache.slotHolding? key value with
    | none => exact coupled.pure _
    | some id => exact coupled.bind (pick rfl c key id) fun taken => coupled.pure _
  | retain keep =>
    apply coupled.bind (coupled.retain limit limit' (pick rfl c) (kept keep rfl))
    exact fun _ => coupled.pure _
  | entries => exact coupled.pure _
  | sameEntries other =>
    apply coupled.view
    · intro h _
      rw [Host.cache?_unheard]
      cases h.cache? other <;> rfl
    · intro h
      cases h.cache? other <;> exact coupled.pure _
  | metrics => exact coupled.pure _
  | check =>
    rw [Command.workOn, Command.workOn]
    cases cache.check <;> exact coupled.pure _
  | openCursor name facet => exact coupled.pure _
  | stepCursor name =>
    refine coupled.onCursor cursors name (fun cache o => ?_) fun cache o => coupled.pure _
    rw [Cursor.next_forgiven]
  | exhaustCursor name =>
    exact coupled.onCursor cursors name (fun _ _ => rfl) fun cache o => coupled.pure _
  | removeLast name =>
    apply coupled.onCursor cursors name (fun _ _ => rfl)
    intro cache o
    cases o.cursor.last with
    | none => exact coupled.pure _
    | some e => exact coupled.bind (pick rfl o.cache _ _) fun taken => coupled.pure _
  | _ => cases still

end

end Coupled

variable [DecidableEq K]

/-- The operations on a cache under one limit on the nesting of callbacks, and under another. -/
structure Paired (Φ : (α : Type) → Work K V α → Work K V α → Prop) (limit limit' : Nat) : Prop where
  serve : ∀ c request, Φ _ (Host.serve limit c request) (Host.serve limit' c request)
  get : ∀ c key, Φ _ (get (Host.runCallbacks limit) c key) (get (Host.runCallbacks limit') c key)
  insert : ∀ c key value, Φ _ (insert (Host.runCallbacks limit) c key value)
    (insert (Host.runCallbacks limit') c key value)
  insertShared : ∀ c key value,
    Φ _ (insertShared limit c key value) (insertShared limit' c key value)

namespace Paired

variable {Φ : (α : Type) → Work K V α → Work K V α → Prop} {limit limit' : Nat}
  (paired : Paired Φ limit limit') (coupled : Coupled Φ)

include paired coupled

theorem insertEach (c : CacheId) (entries : List (K × V)) :
    Φ Unit (insertEach limit c entries) (insertEach limit' c entries) := by
  induction entries with
  | nil => exact coupled.pure ()
  | cons e rest ih => exact coupled.bind (paired.insert c e.1 e.2) fun _ => ih

theorem insertOptional (c : CacheId) (key : K) (value : Option V) :
    Φ _ (insertOptional limit c key value) (insertOptional limit' c key value) := by
  cases value with
  | none => exact coupled.pure _
  | some value => exact coupled.map _ (paired.insert c key value)

/-- A value is computed if there is none, and then stored. -/
theorem getOrCompute (c : CacheId) (key : K) (compute : Routine K V (Except Panic V)) :
    Φ _ (getOrCompute limit c key compute) (getOrCompute limit' c key compute) := by
  apply coupled.bind (paired.get c key)
  intro found
  cases found with
  | some value => exact coupled.pure _
  | none =>
    apply coupled.bind (coupled.follow limit limit' paired.serve compute)
    intro computed
    cases computed with
    | error p => exact coupled.pure _
    | ok value => exact coupled.bind (paired.insert c key value) fun _ => coupled.pure _

/-- Commands that store all that a source gives, or pick entries, are looked at for themselves. -/
theorem workOn [BEq V] (cursors : Cursors K) (c : CacheId) (cache : Cache K V)
    {command : Command K V}
    (bulk : ∀ source, command = .insertAll source →
      Φ _ (insertAll limit c source) (insertAll limit' c source))
    (pick : command.picks = true → ∀ d key id,
      Φ Bool (make (.takeOutSlot d key id)) (make (.takeOutSlot d key id))) :
    Φ _ (command.workOn limit cursors c cache) (command.workOn limit' cursors c cache) := by
  cases command with
  | insertShared key value =>
    exact coupled.bind (paired.insertShared c key value) fun _ => coupled.pure _
  | insertOthers name listed =>
    exact coupled.bind (paired.insertEach coupled c _) fun _ => coupled.pure _
  | insertAll source => exact coupled.bind (bulk source rfl) fun _ => coupled.pure _
  | getOrCompute key compute =>
    exact coupled.bind (paired.getOrCompute coupled c key compute) fun _ => coupled.pure _
  | insertOptional key value =>
    apply coupled.bind (paired.insertOptional coupled c key value)
    intro inserted
    cases inserted <;> exact coupled.pure _
  | _ =>
    refine coupled.workOn limit limit' cursors c cache rfl (fun request _ => paired.serve c request)
      (fun keep _ heard key value => ?_) pick
    exact coupled.routine _ _ paired.serve (keep heard key value)

end Paired

end Work

end ReclaimableCache
