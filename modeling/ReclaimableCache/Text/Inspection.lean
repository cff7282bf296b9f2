import ReclaimableCache.Text.Quoted

/-!
# Showing values

An `Inspection` is the shape in which a value is shown: an atom, a part with a label, or a bracketed
group. One tree has two texts: `compact` on one line, and `pretty` with one element a line.
-/

namespace ReclaimableCache.Text

/-- The brackets round a group. -/
structure Brackets where
  opening : String
  closing : String
  /-- Whether the one-line form leaves a blank inside the brackets. -/
  spaced : Bool
  deriving DecidableEq

/-- The shape in which a value is shown. -/
inductive Inspection where
  /-- Text that is written as it stands. -/
  | atom (text : String)
  /-- A part behind its label: a field of a record or an entry of a map. -/
  | labelled (label content : Inspection)
  /-- Elements between brackets; `more` says that some are left out at the end. -/
  | group (brackets : Brackets) (items : List Inspection) (more : Bool)

namespace Inspection

/-- The width of one level of the form with one element a line. -/
def levelWidth : Nat := 4

/-- The margin of a line at a depth of nesting. -/
def margin (depth : Nat) : String :=
  "".pushn ' ' (levelWidth * depth)

/-- What stands for the elements that are left out. -/
def ellipsis : String := ".."

/-- Elements on one line between brackets; empty brackets hold no blank. -/
def enclose (brackets : Brackets) (parts : List String) : String :=
  if parts.isEmpty then brackets.opening ++ brackets.closing
  else
    let blank := if brackets.spaced then " " else ""
    brackets.opening ++ blank ++ ", ".intercalate parts ++ blank ++ brackets.closing

mutual

/-- The text on one line. -/
def compact : Inspection → String
  | atom text => text
  | labelled label content => label.compact ++ ": " ++ content.compact
  | group brackets items more =>
      enclose brackets (compactAll items ++ if more then [ellipsis] else [])

/-- The one-line texts of several values. -/
def compactAll : List Inspection → List String
  | [] => []
  | item :: items => item.compact :: compactAll items

end

mutual

/-- The text with one element a line, for a value that starts at depth `depth`. -/
def prettyAt (depth : Nat) : Inspection → String
  | atom text => text
  | labelled label content => label.prettyAt depth ++ ": " ++ content.prettyAt depth
  | group brackets items more =>
      if items.isEmpty && !more then brackets.opening ++ brackets.closing
      else
        brackets.opening ++ "\n" ++ prettyLines (depth + 1) items
          ++ (if more then margin (depth + 1) ++ ellipsis ++ "\n" else "")
          ++ margin depth ++ brackets.closing

/-- One line per value, or several for a nested one, each value followed by a comma. -/
def prettyLines (depth : Nat) : List Inspection → String
  | [] => ""
  | item :: items => margin depth ++ item.prettyAt depth ++ ",\n" ++ prettyLines depth items

end

/-- The text with one element a line. -/
def pretty (i : Inspection) : String := i.prettyAt 0

/-- The text in the form that is asked for. -/
def render (i : Inspection) (oneElementALine : Bool) : String :=
  if oneElementALine then i.pretty else i.compact

/-- A list: `[1, 2]`. -/
def list (items : List Inspection) : Inspection :=
  group ⟨"[", "]", false⟩ items false

/-- A tuple, with the name of its constructor before it: `(1, 2)`, `Some(3)`. -/
def tuple (name : String) (items : List Inspection) : Inspection :=
  group ⟨name ++ "(", ")", false⟩ items false

/-- A record: `Point { x: 1, y: 2 }`; `more` says that it has fields that are not shown. -/
def record (name : String) (fields : List (String × Inspection)) (more : Bool) : Inspection :=
  group ⟨name ++ " \x7b", "\x7d", true⟩ (fields.map fun f => labelled (atom f.1) f.2) more

/-- A map: `{1: 10, 2: 20}`. -/
def map (entries : List (Inspection × Inspection)) : Inspection :=
  group ⟨"\x7b", "\x7d", false⟩ (entries.map fun e => labelled e.1 e.2) false

end Inspection

/-- Values that can be shown. -/
class Inspect (α : Type) where
  inspect : α → Inspection

export Inspect (inspect)

instance : Inspect Inspection := ⟨id⟩
instance : Inspect Nat := ⟨fun n => .atom (toString n)⟩
instance : Inspect Int := ⟨fun n => .atom (toString n)⟩
instance : Inspect UInt8 := ⟨fun n => .atom (toString n.toNat)⟩
instance : Inspect UInt32 := ⟨fun n => .atom (toString n.toNat)⟩
instance : Inspect UInt64 := ⟨fun n => .atom (toString n.toNat)⟩
instance : Inspect Bool := ⟨fun b => .atom (if b then "true" else "false")⟩
instance : Inspect String := ⟨fun s => .atom (quoted s)⟩

instance {α : Type} [Inspect α] : Inspect (Option α) :=
  ⟨fun
    | none => .atom "None"
    | some a => .tuple "Some" [inspect a]⟩

instance {α β : Type} [Inspect α] [Inspect β] : Inspect (α × β) :=
  ⟨fun p => .tuple "" [inspect p.1, inspect p.2]⟩

instance {α : Type} [Inspect α] : Inspect (List α) :=
  ⟨fun items => .list (items.map inspect)⟩

end ReclaimableCache.Text
