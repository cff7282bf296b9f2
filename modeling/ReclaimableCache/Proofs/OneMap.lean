import ReclaimableCache.Proofs.PlainMap
import ReclaimableCache.Proofs.Release

/-!
# A sharded map is one map

Whatever is asked of a sharded map, one thing after the other, is answered as by a plain map from
keys to slots, and the count that is kept beside the shards is the number of bindings. The shards
one after the other list every binding once; so does the walk that starts at any shard, up to where
a visit says stop.
-/

namespace ReclaimableCache

/-- What can be asked of a map from keys to slots. -/
inductive TableOp (K : Type) where
  | get (key : K)
  | contains (key : K)
  | isCurrent (key : K) (id : SlotId)
  | insert (key : K) (id : SlotId)
  | remove (key : K)
  | removeIfSame (key : K) (id : SlotId)
  | clear

/-- What a map from keys to slots answers. -/
inductive TableAnswer where
  | slot (id : Option SlotId)
  | flag (value : Bool)
  | done
  deriving DecidableEq

variable {K : Type}

namespace TableOp

/-- Whether a slot is to be stored. -/
def inserts : TableOp K → Bool
  | insert .. => true
  | _ => false

/-- What an operation with this answer does to a count of bindings in a machine word: storing under
    a new key adds one, taking out what was there takes one away, and clearing starts from zero. -/
def recount : TableOp K → TableAnswer → UInt64 → UInt64
  | insert .., .slot none, count => count + 1
  | remove _, .slot (some _), count => count - 1
  | removeIfSame .., .flag true, count => count - 1
  | clear, _, _ => 0
  | _, _, count => count

end TableOp

section

variable [DecidableEq K]

namespace PlainMap

/-- What an operation makes of a plain map, and what it answers. -/
def perform (p : PlainMap K SlotId) : TableOp K → PlainMap K SlotId × TableAnswer
  | .get key => (p, .slot (p key))
  | .contains key => (p, .flag (p key).isSome)
  | .isCurrent key id => (p, .flag (decide (p key = some id)))
  | .insert key id => (p.bind key id, .slot (p key))
  | .remove key => (p.unbind key, .slot (p key))
  | .removeIfSame key id =>
      (if p key = some id then p.unbind key else p, .flag (decide (p key = some id)))
  | .clear => (empty, .done)

/-- What a list of operations makes of a plain map. -/
def performAll (p : PlainMap K SlotId) : List (TableOp K) → PlainMap K SlotId
  | [] => p
  | op :: ops => (p.perform op).1.performAll ops

/-- What a plain map answers to a list of operations. -/
def answers (p : PlainMap K SlotId) : List (TableOp K) → List TableAnswer
  | [] => []
  | op :: ops => (p.perform op).2 :: (p.perform op).1.answers ops

end PlainMap

end

namespace ShardedMap

/-! ### Visiting -/

/-- What a visit answers about list elements in turn if it is never stopped. -/
def replies {α σ : Type} (visit : σ → α → σ × Bool) : σ → List α → List Bool
  | _, [] => []
  | state, a :: rest => (visit state a).2 :: replies visit (visit state a).1 rest

/-- A visit that writes down what it sees. -/
def noting {α σ : Type} (visit : σ → α → σ × Bool) (noted : List α × σ) (a : α) :
    (List α × σ) × Bool :=
  ((noted.1 ++ [a], (visit noted.2 a).1), (visit noted.2 a).2)

/-- Elements are visited up to the first one about which the visit says stop. -/
theorem visitWhile_noting {α σ : Type} (visit : σ → α → σ × Bool) (items : List α)
    (seen : List α) (state : σ) :
    visitWhile (noting visit) (seen, state) items =
      (seen ++ items.take (((replies visit state items).takeWhile id).length + 1),
        (items.take (((replies visit state items).takeWhile id).length + 1)).foldl
          (fun state a => (visit state a).1) state) := by
  induction items generalizing seen state with
  | nil => simp [visitWhile]
  | cons a items ih =>
    cases goesOn : (visit state a).2 with
    | true => simp [visitWhile, noting, replies, goesOn, ih]
    | false => simp [visitWhile, noting, replies, goesOn]

section

variable [DecidableEq K]

/-- The look-ups of a sharded map as a plain map. -/
def plain (m : ShardedMap K) : PlainMap K SlotId := m.get?

/-! ### One operation -/

/-- What an operation makes of a sharded map, and what it answers. -/
def perform (m : ShardedMap K) : TableOp K → ShardedMap K × TableAnswer
  | .get key => (m, .slot (m.get? key))
  | .contains key => (m, .flag (m.contains key))
  | .isCurrent key id => (m, .flag (m.isCurrent key id))
  | .insert key id => (m.insert key id, .slot (m.get? key))
  | .remove key => (m.erase key, .slot (m.get? key))
  | .removeIfSame key id => (m.eraseIfSame key id, .flag (m.isCurrent key id))
  | .clear => (m.clear, .done)

/-- What a list of operations makes of a sharded map. -/
def performAll (m : ShardedMap K) : List (TableOp K) → ShardedMap K
  | [] => m
  | op :: ops => (m.perform op).1.performAll ops

/-- What a sharded map answers to a list of operations. -/
def answers (m : ShardedMap K) : List (TableOp K) → List TableAnswer
  | [] => []
  | op :: ops => (m.perform op).2 :: (m.perform op).1.answers ops

/-- The count of bindings after a list of operations, kept in a machine word from a start on. -/
def recountAll (m : ShardedMap K) (count : UInt64) : List (TableOp K) → UInt64
  | [] => count
  | op :: ops => (m.perform op).1.recountAll (op.recount (m.perform op).2 count) ops

theorem isCurrent_eq (m : ShardedMap K) (key : K) (id : SlotId) :
    m.isCurrent key id = decide (m.get? key = some id) := by
  rw [Bool.eq_iff_iff]
  simp

/-- The look-ups after an operation, and its answer, are those of the plain map. -/
theorem perform_refines (m : ShardedMap K) (op : TableOp K) :
    (m.perform op).1.plain = (m.plain.perform op).1
      ∧ (m.perform op).2 = (m.plain.perform op).2 := by
  cases op with
  | get | contains => exact ⟨rfl, rfl⟩
  | isCurrent key id => exact ⟨rfl, congrArg TableAnswer.flag (m.isCurrent_eq key id)⟩
  | insert key id => exact ⟨funext fun k => m.get?_insert key k id, rfl⟩
  | remove key => exact ⟨funext fun k => m.get?_erase key k, rfl⟩
  | removeIfSame key id =>
    refine ⟨funext fun k => ?_, congrArg TableAnswer.flag (m.isCurrent_eq key id)⟩
    show (m.eraseIfSame key id).get? k = _
    rw [get?_eraseIfSame]
    by_cases bound : m.get? key = some id
    · simp [PlainMap.perform, PlainMap.unbind, plain, bound]
    · simp [PlainMap.perform, plain, bound]
  | clear => exact ⟨funext fun k => m.get?_clear k, rfl⟩

theorem WellFormed.perform {m : ShardedMap K} (wf : m.WellFormed) (op : TableOp K) :
    (m.perform op).1.WellFormed := by
  cases op with
  | get | contains | isCurrent => exact wf
  | insert key id => exact wf.insert key id
  | remove key => exact wf.erase key
  | removeIfSame key id => exact wf.eraseIfSame key id
  | clear => exact wellFormed_clear m

theorem shardCount_perform (m : ShardedMap K) (op : TableOp K) :
    (m.perform op).1.shardCount = m.shardCount := by
  have erased : ∀ key, (m.erase key).shardCount = m.shardCount := by
    intro key
    unfold erase
    split
    · exact Array.size_modify
    · rfl
  cases op with
  | get | contains | isCurrent => rfl
  | insert key id => exact Array.size_modify
  | remove key => exact erased key
  | removeIfSame key id =>
    show (m.eraseIfSame key id).shardCount = m.shardCount
    unfold eraseIfSame
    split
    · exact erased key
    · rfl
  | clear => exact Array.size_map

/-- A word that agrees with the number of bindings does so after the next operation. What is taken
    away from the number was there, so the subtraction of natural numbers loses nothing. -/
theorem WellFormed.recount_perform {m : ShardedMap K} (wf : m.WellFormed) (op : TableOp K) :
    op.recount (m.perform op).2 (UInt64.ofNat m.size) = UInt64.ofNat (m.perform op).1.size := by
  have down : ∀ {n k : Nat}, n + 1 = k → UInt64.ofNat k - 1 = UInt64.ofNat n := by
    intro n k sum
    rw [← sum, UInt64.ofNat_add]
    exact UInt64.add_sub_cancel _ _
  cases op with
  | get | contains | isCurrent => rfl
  | insert key id =>
    have size := m.size_insert key id
    show TableOp.recount _ (.slot (m.get? key)) _ = UInt64.ofNat (m.insert key id).size
    rw [size]
    cases m.get? key with
    | none => exact (UInt64.ofNat_add m.size 1).symm
    | some old => rfl
  | remove key =>
    have size := wf.size_erase key
    show TableOp.recount _ (.slot (m.get? key)) _ = UInt64.ofNat (m.erase key).size
    cases bound : m.get? key with
    | none => rw [bound] at size; exact congrArg UInt64.ofNat size.symm
    | some old => rw [bound] at size; exact down size
  | removeIfSame key id =>
    have size := wf.size_eraseIfSame key id
    show TableOp.recount _ (.flag (m.isCurrent key id)) _ = UInt64.ofNat (m.eraseIfSame key id).size
    cases current : m.isCurrent key id with
    | false => rw [current] at size; exact congrArg UInt64.ofNat size.symm
    | true => rw [current] at size; exact down size
  | clear => rfl

theorem WellFormed.size_perform_le {m : ShardedMap K} (wf : m.WellFormed) (op : TableOp K) :
    (m.perform op).1.size ≤ m.size + op.inserts.toNat := by
  cases op with
  | get | contains | isCurrent => exact Nat.le_refl _
  | insert key id =>
    have size := m.size_insert key id
    have most := Bool.toNat_le (m.get? key).isNone
    show (m.insert key id).size ≤ m.size + 1
    omega
  | remove key =>
    have size := wf.size_erase key
    show (m.erase key).size ≤ m.size
    omega
  | removeIfSame key id =>
    have size := wf.size_eraseIfSame key id
    show (m.eraseIfSame key id).size ≤ m.size
    omega
  | clear => exact Nat.zero_le _

/-! ### Many operations -/

theorem plain_performAll (m : ShardedMap K) (ops : List (TableOp K)) :
    (m.performAll ops).plain = m.plain.performAll ops := by
  induction ops generalizing m with
  | nil => rfl
  | cons op ops ih =>
    show ((m.perform op).1.performAll ops).plain = _
    rw [ih, (m.perform_refines op).1]
    rfl

theorem answers_eq (m : ShardedMap K) (ops : List (TableOp K)) :
    m.answers ops = m.plain.answers ops := by
  induction ops generalizing m with
  | nil => rfl
  | cons op ops ih =>
    show (m.perform op).2 :: (m.perform op).1.answers ops = _
    rw [ih, (m.perform_refines op).1, (m.perform_refines op).2]
    rfl

theorem WellFormed.performAll {m : ShardedMap K} (wf : m.WellFormed) (ops : List (TableOp K)) :
    (m.performAll ops).WellFormed := by
  induction ops generalizing m with
  | nil => exact wf
  | cons op ops ih => exact ih (wf.perform op)

theorem shardCount_performAll (m : ShardedMap K) (ops : List (TableOp K)) :
    (m.performAll ops).shardCount = m.shardCount := by
  induction ops generalizing m with
  | nil => rfl
  | cons op ops ih => exact (ih _).trans (m.shardCount_perform op)

theorem WellFormed.recountAll_eq {m : ShardedMap K} (wf : m.WellFormed) (ops : List (TableOp K)) :
    m.recountAll (UInt64.ofNat m.size) ops = UInt64.ofNat (m.performAll ops).size := by
  induction ops generalizing m with
  | nil => rfl
  | cons op ops ih =>
    show (m.perform op).1.recountAll (op.recount (m.perform op).2 (UInt64.ofNat m.size)) ops = _
    rw [wf.recount_perform op, ih (wf.perform op)]
    rfl

/-- A map has no more bindings than slots were stored in it. -/
theorem WellFormed.size_performAll_le {m : ShardedMap K} (wf : m.WellFormed)
    (ops : List (TableOp K)) :
    (m.performAll ops).size ≤ m.size + ops.countP TableOp.inserts := by
  induction ops generalizing m with
  | nil => exact Nat.le_refl _
  | cons op ops ih =>
    have now := wf.size_perform_le op
    have later := ih (wf.perform op)
    rw [List.countP_cons]
    show ((m.perform op).1.performAll ops).size ≤ _
    cases stores : op.inserts <;> simp [stores] at now ⊢ <;> omega

theorem lists_toList {m : ShardedMap K} (ordered : m.Ordered) :
    m.plain.Lists m.toList :=
  ⟨nodup_toList_keys ordered, fun _ _ => (get?_eq_some_iff ordered).symm⟩

end

/-- A map without entries in any number of shards answers every list of operations as the plain map
    without bindings does. After it the look-ups are those of the plain map; the count is the number
    of bindings, also when it is kept in a machine word, as long as the word can tell them; the
    shards list every binding once between them, and there are none past the last; a visit of all
    entries goes through that listing; and a walk from any shard passes the slot of every binding
    once, up to the first slot at which the visit says stop. -/
theorem sharded_is_one_map [DecidableEq K] (hasher : Hasher K) (shards : Nat)
    (ops : List (TableOp K)) :
    let m := (empty hasher shards).performAll ops
    let p := (PlainMap.empty : PlainMap K SlotId).performAll ops
    (empty hasher shards).answers ops = (PlainMap.empty : PlainMap K SlotId).answers ops
      ∧ m.plain = p
      ∧ (p.Lists m.toList ∧ m.size = m.toList.length)
      ∧ ((empty hasher shards).recountAll 0 ops).toNat = m.size % UInt64.size
      ∧ m.size ≤ ops.countP TableOp.inserts
      ∧ m.shardCount = max shards 1
      ∧ m.toList = (List.range m.shardCount).flatMap (fun i => (m.shardEntries? i).getD [])
      ∧ (∀ i, m.shardEntries? i = none ↔ m.shardCount ≤ i)
      ∧ (∀ (σ : Type) (visit : σ → K × SlotId → σ) (state : σ),
          m.visitAll visit state = m.toList.foldl visit state)
      ∧ ∀ start, (m.slotsFrom start).Perm (m.toList.map Prod.snd)
        ∧ ∀ (σ : Type) (visit : σ → SlotId → σ × Bool) (state : σ),
            let goesOn := (replies visit state (m.slotsFrom start)).takeWhile id
            let seen := (m.slotsFrom start).take (goesOn.length + 1)
            m.visitFrom start (noting visit) ([], state) =
              (seen, seen.foldl (fun state slot => (visit state slot).1) state) := by
  intro m p
  have wf := wellFormed_empty hasher shards
  have without : (empty hasher shards).plain = PlainMap.empty :=
    funext fun k => get?_empty hasher shards k
  have same : m.plain = p := by rw [plain_performAll, without]
  have ordered := (wf.performAll ops).toOrdered
  have counted := (wf.performAll ops).counted
  refine ⟨?_, same, ⟨same ▸ lists_toList ordered, counted⟩, ?_, ?_, ?_, rfl, ?_, ?_, ?_⟩
  · rw [answers_eq, without]
  · have word := wf.recountAll_eq ops
    show (recountAll _ (UInt64.ofNat (empty hasher shards).size) ops).toNat = _
    rw [word, UInt64.toNat_ofNat']
  · have most := wf.size_performAll_le ops
    rwa [show (empty hasher shards).size = 0 from rfl, Nat.zero_add] at most
  · rw [shardCount_performAll]
    exact Array.size_replicate
  · intro i
    simp [shardEntries?, shardCount]
  · intro σ visit state
    exact m.visitAll_eq visit state
  · intro start
    exact ⟨m.perm_slotsFrom start, fun σ visit state => visitWhile_noting visit _ [] state⟩

end ShardedMap

end ReclaimableCache
