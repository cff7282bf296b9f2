import Mathlib.Data.Finset.Card
import ReclaimableCache.Session

/-!
# Plain maps

What a caller takes a cache for: a map from keys to values that may lose bindings. Each command has
a meaning on such a map, `PlainMap.Performs`. A command that drains loses some bindings first, all
of them under keys that are free to be lost, and then does and answers what it would on any map.
-/

namespace ReclaimableCache

variable {K V α : Type}

/-- Code that raises signals at most, and what it gives. -/
def Routine.Gives : Routine K V α → α → Prop
  | done result, a => result = a
  | ask _ (.raise _) next, a => ∀ reply, (next reply).Gives a
  | ask .., _ => False

/-- A map from keys to values. -/
abbrev PlainMap (K V : Type) := K → Option V

namespace PlainMap

/-- The map without bindings. -/
def empty : PlainMap K V := fun _ => none

/-- The bindings that a predicate holds of. -/
def filter (m : PlainMap K V) (keep : K → V → Bool) : PlainMap K V :=
  fun key => (m key).filter (keep key)

/-- A list shows every binding of a map once, and nothing else. -/
structure Lists (m : PlainMap K V) (entries : List (K × V)) : Prop where
  distinct : (entries.map Prod.fst).Nodup
  mem : ∀ key value, (key, value) ∈ entries ↔ m key = some value

/-- Some keys are bound and free to be lost. -/
def MayLose (m : PlainMap K V) (free : K → Prop) (lost : Finset K) : Prop :=
  ∀ key ∈ lost, (m key).isSome = true ∧ free key

section

variable [DecidableEq K]

/-- Binds a key to a value. -/
def bind (m : PlainMap K V) (key : K) (value : V) : PlainMap K V :=
  fun k => if k = key then some value else m k

/-- Takes the binding of a key out. -/
def unbind (m : PlainMap K V) (key : K) : PlainMap K V :=
  fun k => if k = key then none else m k

/-- Takes the bindings of several keys out. -/
def without (m : PlainMap K V) (keys : Finset K) : PlainMap K V :=
  fun k => if k ∈ keys then none else m k

/-- Binds what is given, one after the other, until there is a panic. -/
def bindAll (m : PlainMap K V) : List (Except Panic (K × V)) → PlainMap K V × Except Panic Unit
  | [] => (m, .ok ())
  | .error p :: _ => (m, .error p)
  | .ok e :: rest => (m.bind e.1 e.2).bindAll rest

variable [BEq V]

/-- What a command makes of a map some keys of which are free to be lost, and what it answers. -/
inductive Performs (free : K → Prop) (m : PlainMap K V) :
    Command K V → PlainMap K V → Answer K V → Prop where
  | get {lost : Finset K} (drained : m.MayLose free lost) (key : K) :
      m.Performs free (.request (.get key)) (m.without lost)
        (.reply (.value (m.without lost key)))
  | peek (key : K) : m.Performs free (.request (.peek key)) m (.reply (.value (m key)))
  | containsKey (key : K) :
      m.Performs free (.request (.containsKey key)) m (.flag (m key).isSome)
  | insert {lost : Finset K} (drained : m.MayLose free lost) (key : K) (value : V) :
      m.Performs free (.request (.insert key value)) ((m.without lost).bind key value)
        (.reply (.value (m.without lost key)))
  | remove {lost : Finset K} (drained : m.MayLose free lost) (key : K) :
      m.Performs free (.request (.remove key)) ((m.without lost).unbind key)
        (.reply (.value (m.without lost key)))
  | reclaim (key : K) :
      m.Performs free (.request (.reclaim key)) (m.unbind key) (.flag (m key).isSome)
  /-- All bindings are lost that can be, unless they are more than a machine word counts. -/
  | releaseUnpinned {lost : Finset K} (released : m.MayLose free lost)
      (all : lost.card < Policy.unlimited → ∀ key, (m key).isSome = true → free key → key ∈ lost) :
      m.Performs free (.request .releaseUnpinned) (m.without lost) (.reply (.count lost.card))
  | clear : m.Performs free (.request .clear) empty .done
  | raise (signal : SignalId) : m.Performs free (.request (.raise signal)) m .done
  | insertShared {lost : Finset K} (drained : m.MayLose free lost) (key : K) (value : V) :
      m.Performs free (.insertShared key value) ((m.without lost).bind key value)
        (.stored (m.without lost key) true)
  | insertAbsent (key : K) :
      m.Performs free (.insertOptional key none) m (.fault (.error .absentValue))
  | insertPresent {lost : Finset K} (drained : m.MayLose free lost) (key : K) (value : V) :
      m.Performs free (.insertOptional key (some value)) ((m.without lost).bind key value)
        (.reply (.value (m.without lost key)))
  | insertAll {lost : Finset K} (drained : m.MayLose free lost)
      {source : List (Routine K V (Except Panic (K × V)))} {given : List (Except Panic (K × V))}
      (gives : List.Forall₂ Routine.Gives source given) :
      m.Performs free (.insertAll source) ((m.without lost).bindAll given).1
        (.ofExcept (fun _ => .done) ((m.without lost).bindAll given).2)
  | obtainFound {lost : Finset K} (drained : m.MayLose free lost) {key : K} {value : V}
      (bound : m.without lost key = some value) (compute : Routine K V (Except Panic V)) :
      m.Performs free (.getOrCompute key compute) (m.without lost) (.obtained value false)
  | obtainPanicked {lost : Finset K} (drained : m.MayLose free lost) {key : K}
      (absent : m.without lost key = none) {compute : Routine K V (Except Panic V)} {p : Panic}
      (gives : compute.Gives (.error p)) :
      m.Performs free (.getOrCompute key compute) (m.without lost) (.fault (.panic p))
  /-- Looking the key up drains, and so does storing the value that was computed. -/
  | obtainComputed {lost more : Finset K} (drained : m.MayLose free lost) {key : K}
      (absent : m.without lost key = none) (again : (m.without lost).MayLose free more)
      {compute : Routine K V (Except Panic V)} {value : V} (gives : compute.Gives (.ok value)) :
      m.Performs free (.getOrCompute key compute) (((m.without lost).without more).bind key value)
        (.obtained value true)
  | containsValue {entries : List (K × V)} (lists : m.Lists entries) (value : V) :
      m.Performs free (.containsValue value) m (.flag (entries.any fun e => e.2 == value))
  | removeEntry (key : K) (value : V) :
      m.Performs free (.removeEntry key value)
        (if (m key).any (fun current => current == value) then m.unbind key else m)
        (.flag ((m key).any fun current => current == value))
  /-- The predicate is asked about each binding once. -/
  | retain {keep : Predicate K V} {kept : K → V → Bool}
      (gives : ∀ heard key value, (keep heard key value).Gives (kept key value))
      {seen : List (K × V)}
      (lists : m.Lists seen) :
      m.Performs free (.retain keep) (m.filter kept)
        (.retained (seen.countP fun e => !kept e.1 e.2) seen)
  | entries {entries : List (K × V)} (lists : m.Lists entries) :
      m.Performs free .entries m (.entries entries)

end

end PlainMap

/-- The commands that have a meaning on a plain map. Code of the caller that runs in the course of
    them raises signals at most, and a predicate does not remember what it was asked before. -/
def Command.Plain : Command K V → Prop
  | .request .pending | .request .length => False
  | .request (.insertOptional ..) | .request .beginBulk | .request (.storeNext ..)
  | .request (.removeRecent ..) => False
  | .request _ | .insertShared .. | .insertOptional .. | .containsValue _ | .removeEntry ..
  | .entries => True
  | .insertAll source => ∀ next ∈ source, ∃ given, next.Gives given
  | .getOrCompute _ compute => ∃ given, compute.Gives given
  | .retain keep =>
      ∃ kept : K → V → Bool, ∀ heard key value, (keep heard key value).Gives (kept key value)
  | _ => False

end ReclaimableCache
