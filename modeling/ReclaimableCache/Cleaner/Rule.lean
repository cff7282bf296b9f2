import ReclaimableCache.Cleaner

/-!
# Cleaners by rule

A cleaner that is given by two sets of keys: it panics for those in the first, fails for the others
in the second, and succeeds for the rest. The texts may mention the key. Its callbacks are requests
to one cache, made only while few enough cleaners are active.
-/

namespace ReclaimableCache

open Text

/-- A set of keys: all of them, or those in a list. -/
inductive KeySet (K : Type) where
  | all
  | only (keys : List K)

namespace KeySet

variable {K : Type}

/-- Whether a key is in the set. -/
def contains [BEq K] (s : KeySet K) (key : K) : Bool :=
  match s with
  | all => true
  | only keys => keys.contains key

end KeySet

/-- A text with places for a key, each marked by a pair of braces. -/
def fillIn (template filling : String) : String :=
  String.ofList (go template.toList)
where
  go : List Char → List Char
    | '\x7b' :: '\x7d' :: rest => filling.toList ++ go rest
    | c :: rest => c :: go rest
    | [] => []

/-- A cleaner given by sets of keys. -/
structure CleaningRule (K V : Type) where
  panicKeys : KeySet K
  /-- The text of a panic, or none for a panic that carries no text. -/
  panicText : Option String
  errorKeys : KeySet K
  errorText : String
  /-- The cache that the callbacks go to. -/
  target : CacheId
  /-- Callbacks are made only while fewer cleaner calls than this are active. -/
  depth : Nat
  /-- The requests that are made for a key. -/
  callbacks : List (K → Request K V)

namespace CleaningRule

variable {K V : Type} [BEq K] [Inspect K]

/-- How a call ends; panics come before failures. -/
def verdict (r : CleaningRule K V) (call : Cleaning K V) : Verdict :=
  let keyText := (inspect call.key).compact
  if r.panicKeys.contains call.key then
    match r.panicText with
    | some text => .panicked (.text (fillIn text keyText))
    | none => .panicked .silent
  else if r.errorKeys.contains call.key then
    .failed (.cleanup (fillIn r.errorText keyText))
  else .succeeded

/-- The cleaner that follows the rule. -/
def cleaner (r : CleaningRule K V) : Cleaner K V where
  callbacks call :=
    if call.active < r.depth then
      .inTurn r.target (r.callbacks.map fun request => request call.key) ()
    else .done ()
  verdict := r.verdict

end CleaningRule

end ReclaimableCache
