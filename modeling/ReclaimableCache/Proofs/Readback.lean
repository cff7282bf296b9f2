import Mathlib.Data.List.Nodup
import ReclaimableCache.Metrics.Exposition

/-!
# Reading metrics back

The text of a snapshot can be read back by whoever knows the heading that it was written under.
The kinds and the names of the metrics are known beforehand, so all that stands before a value can
be taken off the text as it is, whatever characters the heading has; a value ends where its digits
end, and the end of the line is no digit.
-/

namespace ReclaimableCache.Exposition

/-- The kinds and names of the metrics in the order in which they are written. -/
def schema : List (Kind × String) :=
  [(.counter, "get_hits_total"), (.counter, "get_misses_total"), (.counter, "insert_new_total"),
    (.counter, "insert_updates_total"), (.counter, "removes_total"),
    (.counter, "reclaimed_total"), (.counter, "evicted_total"), (.counter, "swept_total"),
    (.counter, "cleaner_failures_total"), (.counter, "pressure_events_total"),
    (.gauge, "cache_len"), (.gauge, "pinned_len"), (.gauge, "pin_capacity")]

/-- What the lines of a metric say before its value. -/
def announcement (heading : String) (kind : Kind) (name : String) : String :=
  "# TYPE " ++ qualified heading name ++ " " ++ kind.word ++ "\n" ++ qualified heading name ++ " "

/-- The number that a text begins with, and what comes after its digits. -/
def readNumber (text : List Char) : Nat × List Char :=
  (Nat.ofDigitChars 10 (text.takeWhile Char.isDigit) 0, text.dropWhile Char.isDigit)

/-- The value of a metric that a text begins with, and what comes after its lines. -/
def readMetric (heading : String) (kind : Kind) (name : String) (text : List Char) :
    Option (UInt64 × List Char) := do
  let value ← text.dropPrefix? (announcement heading kind name).toList
  match readNumber value with
  | (n, '\n' :: rest) => some (UInt64.ofNat n, rest)
  | _ => none

/-- The values of metrics one after the other, if nothing else is in the text. -/
def readAll (heading : String) : List (Kind × String) → List Char → Option (List UInt64)
  | [], [] => some []
  | [], _ :: _ => none
  | (kind, name) :: more, text => do
      let (value, rest) ← readMetric heading kind name text
      let values ← readAll heading more rest
      return value :: values

/-- The snapshot of thirteen numbers in the order in which they are written. -/
def ofValues : List UInt64 → Option Snapshot
  | [hits, misses, newInserts, updates, removals, reclaimed, evicted, swept, cleanerFailures,
      pressureEvents, entries, pinned, pinCapacity] =>
    some { hits, misses, newInserts, updates, removals, reclaimed, evicted, swept,
           cleanerFailures, pressureEvents, entries, pinned, pinCapacity }
  | _ => none

/-- The snapshot that was written under a heading. -/
def read? (heading text : String) : Option Snapshot := do
  let values ← readAll heading schema text.toList
  ofValues values

/-! ### One metric -/

/-- A decimal number is read to the end of its line. -/
theorem readNumber_toDigits (n : Nat) (rest : List Char) :
    readNumber (Nat.toDigits 10 n ++ '\n' :: rest) = (n, '\n' :: rest) := by
  have digits : ∀ c ∈ Nat.toDigits 10 n, c.isDigit = true := by
    intro c member
    exact Nat.isDigit_of_mem_toDigits (by omega) (by omega) member
  have eol : ¬ ('\n').isDigit = true := by decide
  unfold readNumber
  rw [List.takeWhile_append_of_pos digits, List.dropWhile_append_of_pos digits,
    List.takeWhile_cons_of_neg eol, List.dropWhile_cons_of_neg eol, List.append_nil,
    Nat.ofDigitChars_ten_toDigits]

theorem toList_lines (heading : String) (m : Metric) :
    (lines heading m).toList =
      (announcement heading m.kind m.name).toList
        ++ (Nat.toDigits 10 m.value.toNat ++ ['\n']) := by
  unfold lines announcement
  simp

theorem readMetric_lines (heading : String) (m : Metric) (rest : List Char) :
    readMetric heading m.kind m.name ((lines heading m).toList ++ rest) = some (m.value, rest) := by
  unfold readMetric
  rw [toList_lines, List.append_assoc, List.dropPrefix?_append_of_beq _ (beq_self_eq_true _)]
  show (match readNumber ((Nat.toDigits 10 m.value.toNat ++ ['\n']) ++ rest) with
    | (n, '\n' :: rest) => some (UInt64.ofNat n, rest)
    | _ => none) = some (m.value, rest)
  rw [List.append_assoc, List.singleton_append, readNumber_toDigits]
  simp

/-! ### The whole text -/

/-- Metrics of any kinds and names are read back one by one. -/
theorem readAll_lines (heading : String) (ms : List Metric) :
    readAll heading (ms.map fun m => (m.kind, m.name)) (ms.flatMap fun m => (lines heading m).toList)
      = some (ms.map Metric.value) := by
  induction ms with
  | nil => rfl
  | cons m ms ih =>
    rw [List.map_cons, List.flatMap_cons, readAll, readMetric_lines]
    simp [ih]

theorem schema_metrics (s : Snapshot) : (metrics s).map (fun m => (m.kind, m.name)) = schema := rfl

theorem ofValues_metrics (s : Snapshot) : ofValues ((metrics s).map Metric.value) = some s := rfl

theorem read?_text (heading : String) (s : Snapshot) : read? heading (text heading s) = some s := by
  have written : (text heading s).toList =
      (metrics s).flatMap fun m => (lines heading m).toList := by
    unfold text
    rw [String.toList_join, List.flatMap_map]
  unfold read?
  rw [written, ← schema_metrics s, readAll_lines]
  exact ofValues_metrics s

/-- Different names stay different under a heading. -/
theorem qualified_injective (heading : String) : Function.Injective (qualified heading) := by
  intro name other same
  unfold qualified at same
  split at same
  · exact same
  · simpa using same

theorem nodup_names : (schema.map Prod.snd).Nodup := by decide

/-- Under every heading the text of a snapshot shows each of the thirteen numbers once, under a
    name of its own and in decimal after the line that gives its kind, and it can be read back: no
    two snapshots have the same text. -/
theorem exposition_lossless (heading : String) :
    (∀ s, read? heading (text heading s) = some s)
      ∧ Function.Injective (text heading)
      ∧ (∀ s, metrics s =
          [⟨.counter, "get_hits_total", s.hits⟩, ⟨.counter, "get_misses_total", s.misses⟩,
            ⟨.counter, "insert_new_total", s.newInserts⟩,
            ⟨.counter, "insert_updates_total", s.updates⟩,
            ⟨.counter, "removes_total", s.removals⟩, ⟨.counter, "reclaimed_total", s.reclaimed⟩,
            ⟨.counter, "evicted_total", s.evicted⟩, ⟨.counter, "swept_total", s.swept⟩,
            ⟨.counter, "cleaner_failures_total", s.cleanerFailures⟩,
            ⟨.counter, "pressure_events_total", s.pressureEvents⟩,
            ⟨.gauge, "cache_len", s.entries⟩, ⟨.gauge, "pinned_len", s.pinned⟩,
            ⟨.gauge, "pin_capacity", s.pinCapacity⟩])
      ∧ (∀ s, text heading s = String.join ((metrics s).map fun m =>
          "# TYPE " ++ qualified heading m.name ++ " " ++ m.kind.word ++ "\n"
            ++ qualified heading m.name ++ " " ++ toString m.value.toNat ++ "\n"))
      ∧ ∀ s, ((metrics s).map fun m => qualified heading m.name).Nodup := by
  refine ⟨read?_text heading, ?_, fun s => rfl, fun s => rfl, ?_⟩
  · intro s t same
    have first := read?_text heading s
    rw [same, read?_text heading t] at first
    exact (Option.some.inj first).symm
  · intro s
    have apart := List.Nodup.map (qualified_injective heading) nodup_names
    rw [← schema_metrics s, List.map_map, List.map_map] at apart
    exact apart

end ReclaimableCache.Exposition
