import ReclaimableCache.Metrics

/-!
# The text form of metrics

Each number of a snapshot takes two lines: one that gives the name and the kind of the metric, and
one that gives the name and the value in decimal. Names can be put under a common heading, which
comes before them with an underscore.
-/

namespace ReclaimableCache.Exposition

/-- The two kinds of metric: one only grows, the other goes up and down. -/
inductive Kind where
  | counter
  | gauge
  deriving DecidableEq

/-- The word for a kind. -/
def Kind.word : Kind → String
  | counter => "counter"
  | gauge => "gauge"

/-- One number to be written. -/
structure Metric where
  kind : Kind
  name : String
  value : UInt64
  deriving DecidableEq

/-- The metrics of a snapshot in the order in which they are written. -/
def metrics (s : Snapshot) : List Metric :=
  s.toCounters.fields.map (fun f => ⟨.counter, f.1 ++ "_total", f.2⟩)
    ++ s.gauges.map fun f => ⟨.gauge, f.1, f.2⟩

/-- A name under a heading; an empty heading adds nothing. -/
def qualified (heading name : String) : String :=
  if heading = "" then name else heading ++ "_" ++ name

/-- The two lines of one metric. -/
def lines (heading : String) (m : Metric) : String :=
  let name := qualified heading m.name
  "# TYPE " ++ name ++ " " ++ m.kind.word ++ "\n"
    ++ name ++ " " ++ toString m.value.toNat ++ "\n"

/-- The text of a snapshot. -/
def text (heading : String) (s : Snapshot) : String :=
  String.join ((metrics s).map (lines heading))

/-- What stands for a character that was not written to its end. -/
def brokenChar : Char := '\ufffd'

/-- What is left of a text in a store that takes `room` bytes and drops the rest. -/
def clip (room : Nat) (s : String) : String :=
  String.ofList (go room s.toList)
where
  go : Nat → List Char → List Char
    | _, [] => []
    | room, c :: rest =>
        if c.utf8Size ≤ room then c :: go (room - c.utf8Size) rest
        else if room = 0 then [] else [brokenChar]

end ReclaimableCache.Exposition
