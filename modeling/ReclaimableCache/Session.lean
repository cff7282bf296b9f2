import ReclaimableCache.Host.Bulk

/-!
# Sessions

A session is a host together with the cursors that are open on its caches. `Session.step` carries
out one command on one cache and gives the answer; `Session.run` builds caches and carries out
commands in turn, and `Session.history` lists the moves that are made meanwhile.
-/

namespace ReclaimableCache

/-- A cursor that is open on a cache. -/
structure OpenCursor (K : Type) where
  cache : CacheId
  cursor : Cursor K
  facet : Facet
  /-- The key that a single step showed last. -/
  lastKey : Option K

/-- The cursors that are open by number. -/
abbrev Cursors (K : Type) := List (Nat × OpenCursor K)

namespace Cursors

variable {K : Type}

/-- An open cursor by its number. -/
def get? (cursors : Cursors K) (name : Nat) : Option (OpenCursor K) := cursors.lookup name

/-- Puts an open cursor under a number. -/
def set (cursors : Cursors K) (name : Nat) (o : OpenCursor K) : Cursors K :=
  (name, o) :: cursors.filter fun e => e.1 ≠ name

/-- The key that a single step of a cursor showed last. -/
def lastKey? (cursors : Cursors K) (name : Nat) : Option K :=
  (cursors.get? name).bind OpenCursor.lastKey

end Cursors

/-- Caches, and the cursors that are open on them. -/
structure Session (K V : Type) where
  host : Host K V
  cursors : Cursors K

/-- What a caller can do with a cache. -/
inductive Command (K V : Type) where
  /-- What can also be asked for from inside a cleaner. -/
  | request (request : Request K V)
  | insertShared (key : K) (value : V)
  /-- Stores the entries whose key is not the one that a cursor showed last. -/
  | insertOthers (name : Nat) (entries : List (K × V))
  | insertAll (source : List (Routine K V (Except Panic (K × V))))
  | getOrCompute (key : K) (make : Routine K V (Except Panic V))
  | insertOptional (key : K) (value : Option V)
  | containsValue (value : V)
  | containsOptional (value : Option V)
  | containsEntry (key : K) (value : V)
  | containsEntries (entries : List (K × V))
  | removeEntry (key : K) (value : V)
  | retain (keep : Predicate K V)
  | entries
  | sameEntries (other : CacheId)
  | metrics
  | check
  /-- Opens a cursor under a number, in place of one that was there. -/
  | openCursor (name : Nat) (facet : Facet)
  | stepCursor (name : Nat)
  | exhaustCursor (name : Nat)
  | removeLast (name : Nat)

/-- What a caller can do: build a cache, or do something with one. -/
inductive Act (K V : Type) where
  | build (config : Config K V)
  | on (cache : CacheId) (command : Command K V)

/-- What a command gives back. -/
inductive Answer (K V : Type) where
  | reply (reply : Reply V)
  | fault (fault : Fault)
  /-- The value that was there before, and whether the new one is found now. -/
  | stored (previous : Option V) (found : Bool)
  /-- A value, and whether it had to be computed. -/
  | obtained (value : V) (computed : Bool)
  | entries (entries : List (K × V))
  /-- What a cursor shows next. -/
  | item (item : Option (Shown K V))
  /-- All that a cursor has left to show. -/
  | rest (items : List (Shown K V))
  | retained (removed : Nat) (seen : List (K × V))
  | metrics (snapshot : Snapshot)
  /-- There is no such cursor. -/
  | noCursor

namespace Answer

variable {K V : Type}

/-- The answer that says yes or no. -/
def flag (b : Bool) : Answer K V := reply (.flag b)

/-- The answer that says that all is done. -/
def done : Answer K V := reply .done

/-- The answer of an operation in which code of the caller may panic. -/
def ofExcept {α : Type} (answer : α → Answer K V) : Except Panic α → Answer K V
  | .error p => fault (.panic p)
  | .ok a => answer a

end Answer

namespace Command

variable {K V : Type} [DecidableEq K]

/-- What a command leads to: the cursors that are open then, and the answer. -/
abbrev Outcome (K V : Type) := Cursors K × Answer K V

/-- Works on an open cursor and the cache that it is open on. -/
def onCursor (cursors : Cursors K) (name : Nat)
    (f : Cache K V → OpenCursor K → Work K V (OpenCursor K × Answer K V)) :
    Work K V (Outcome K V) :=
  match cursors.get? name with
  | none => pure (cursors, .noCursor)
  | some o => do
      let h ← .make .view
      match h.cache? o.cache with
      | none => return (cursors, .reply .noCache)
      | some cache =>
          let worked ← f cache o
          return (cursors.set name worked.1, worked.2)

/-- The work for one command on a cache that is there. -/
def workOn [BEq V] (limit : Nat) (cursors : Cursors K) (c : CacheId) (cache : Cache K V) :
    Command K V → Work K V (Outcome K V)
  | .request asked => do
      let reply ← Host.serve limit c asked
      return (cursors, .reply reply)
  | .insertShared key value => do
      let stored ← .insertShared limit c key value
      return (cursors, .stored stored.1 stored.2)
  | .insertOthers name listed => do
      let others := listed.filter fun e => cursors.lastKey? name ≠ some e.1
      .insertEach limit c others
      return (cursors, .reply (.count others.length))
  | .insertAll source => do
      let inserted ← .insertAll limit c source
      return (cursors, .ofExcept (fun _ => .done) inserted)
  | .getOrCompute key compute => do
      let got ← .getOrCompute limit c key compute
      return (cursors, .ofExcept (fun r => .obtained r.1 r.2) got)
  | .insertOptional key value => do
      match ← .insertOptional limit c key value with
      | .error e => return (cursors, .fault (.error e))
      | .ok previous => return (cursors, .reply (.value previous))
  | .containsValue value => pure (cursors, .flag (cache.containsValue value))
  | .containsOptional none => pure (cursors, .fault (.error .absentValue))
  | .containsOptional (some value) => pure (cursors, .flag (cache.containsValue value))
  | .containsEntry key value => pure (cursors, .flag (cache.containsEntry key value))
  | .containsEntries listed =>
      pure (cursors, .flag (listed.all fun e => cache.containsEntry e.1 e.2))
  | .removeEntry key value =>
      match cache.slotHolding? key value with
      | none => pure (cursors, .flag false)
      | some id => do
          let taken ← .make (.takeOutSlot c key id)
          return (cursors, .flag taken)
  | .retain keep => do
      let r ← .retain limit c keep
      return (cursors, .retained r.removed r.seen)
  | .entries => pure (cursors, .entries cache.toList)
  | .sameEntries other => do
      let h ← .make .view
      match h.cache? other with
      | none => return (cursors, .reply .noCache)
      | some theirs => return (cursors, .flag (c == other || cache.sameEntries theirs))
  | .metrics => pure (cursors, .metrics cache.snapshot)
  | .check =>
      match cache.check with
      | .error e => pure (cursors, .fault (.error e))
      | .ok () => pure (cursors, .done)
  | .openCursor name facet => pure (cursors.set name ⟨c, .start, facet, none⟩, .done)
  | .stepCursor name =>
      onCursor cursors name fun cache o =>
        let stepped := o.cursor.next cache
        let item := stepped.2.map fun e => Shown.ofEntry e o.facet
        pure ({ o with cursor := stepped.1, lastKey := (item.bind Shown.key?).or o.lastKey },
          .item item)
  | .exhaustCursor name =>
      onCursor cursors name fun cache o =>
        let rest := o.cursor.rest cache
        pure ({ o with cursor := rest.1 },
          .rest (rest.2.map fun e => Shown.ofEntry e o.facet))
  | .removeLast name =>
      onCursor cursors name fun _ o =>
        match o.cursor.last with
        | none => pure (o, .flag false)
        | some e => do
            let taken ← .make (.takeOutSlot o.cache e.1 e.2)
            return ({ o with cursor := o.cursor.forgetLast }, .flag taken)

/-- The work for one command; callbacks of cleaners may be nested `limit` deep. -/
def work [BEq V] (limit : Nat) (cursors : Cursors K) (c : CacheId) (command : Command K V) :
    Work K V (Outcome K V) := do
  let h ← .make .view
  match h.cache? c with
  | none => return (cursors, .reply .noCache)
  | some cache => command.workOn limit cursors c cache

end Command

namespace Act

variable {K V : Type} [DecidableEq K] [BEq V]

/-- The work for one act. -/
def work (limit : Nat) (cursors : Cursors K) : Act K V → Work K V (Command.Outcome K V)
  | .build config => do
      match ← .make (.build config) with
      | .error f => return (cursors, .fault f)
      | .ok () => return (cursors, .done)
  | .on c command => command.work limit cursors c

/-- The work for one act after the other. -/
def workAll (limit : Nat) (cursors : Cursors K) :
    List (Act K V) → Work K V (Cursors K × List (Answer K V))
  | [] => pure (cursors, [])
  | a :: rest => do
      let first ← a.work limit cursors
      let others ← workAll limit first.1 rest
      return (others.1, first.2 :: others.2)

end Act

namespace Session

variable {K V : Type}

/-- A session without caches. -/
def empty (board : PressureBoard) : Session K V := ⟨.empty board, []⟩

/-- The key that a single step of a cursor showed last. -/
def lastKey? (s : Session K V) (name : Nat) : Option K := s.cursors.lastKey? name

/-- Builds a cache. -/
def build (s : Session K V) (config : Config K V) : Session K V × Except Fault Unit :=
  let built := s.host.build config
  ({ s with host := built.1 }, built.2)

/-- Leaves the number of the next cache unused. -/
def skipCache (s : Session K V) : Session K V := { s with host := s.host.addCache none }

section

variable [DecidableEq K]

/-- Does some work on the host; it ends with the cursors that are open then, and a result. -/
def carryOut {α : Type} (s : Session K V) (w : Work K V (Cursors K × α)) : Session K V × α :=
  let ended := w.run s.host
  (⟨ended.1, ended.2.1⟩, ended.2.2)

/-- Carries out one command. -/
def step [BEq V] (limit : Nat) (s : Session K V) (c : CacheId) (command : Command K V) :
    Session K V × Answer K V :=
  s.carryOut (command.work limit s.cursors c)

/-- Does one thing. -/
def act [BEq V] (limit : Nat) (s : Session K V) (a : Act K V) : Session K V × Answer K V :=
  s.carryOut (a.work limit s.cursors)

/-- Does one thing after the other. -/
def run [BEq V] (limit : Nat) (s : Session K V) (acts : List (Act K V)) :
    Session K V × List (Answer K V) :=
  s.carryOut (Act.workAll limit s.cursors acts)

/-- The moves that are made while one thing is done after the other. -/
def history [BEq V] (limit : Nat) (s : Session K V) (acts : List (Act K V)) : List (Step K V) :=
  (Act.workAll limit s.cursors acts).steps s.host

/-- The hosts at all points of time of a run, the last one at its end. -/
def states [BEq V] (limit : Nat) (s : Session K V) (acts : List (Act K V)) : List (Host K V) :=
  (s.history limit acts).map Step.before ++ [(s.run limit acts).1.host]

end

end Session

end ReclaimableCache
