import ReclaimableCache.Host.Move

/-!
# Work

What an operation on a cache does, as a tree of moves: each move may depend on what the moves
before it gave back. `Work.run` does the work on a host. `Work.steps` lists the moves that are made
in the course of it, each with the host that it was made on.
-/

namespace ReclaimableCache

/-- Moves, one after the other, and a result. -/
inductive Work (K V α : Type) where
  | done (result : α)
  | move (m : Move K V) (next : m.Result → Work K V α)

/-- A move together with the host that it was made on. -/
structure Step (K V : Type) where
  before : Host K V
  move : Move K V

/-- The host once the move is made. -/
def Step.after {K V : Type} [DecidableEq K] (s : Step K V) : Host K V := (s.move.make s.before).1

namespace Work

variable {K V α β : Type}

/-- A single move. -/
def make (m : Move K V) : Work K V m.Result := move m done

/-- Goes on with other work that depends on a result. -/
def andThen : Work K V α → (α → Work K V β) → Work K V β
  | done result, f => f result
  | move m next, f => move m fun r => (next r).andThen f

instance : Monad (Work K V) where
  pure := done
  bind := andThen

theorem andThen_done (w : Work K V α) : w.andThen done = w := by
  induction w with
  | done result => rfl
  | move m next ih => exact congrArg (move m) (funext ih)

/-- It does not matter which parts are put together first. -/
theorem andThen_assoc {γ : Type} (w : Work K V α) (f : α → Work K V β) (g : β → Work K V γ) :
    (w.andThen f).andThen g = w.andThen fun a => (f a).andThen g := by
  induction w with
  | done result => rfl
  | move m next ih => exact congrArg (move m) (funext ih)

instance : LawfulMonad (Work K V) :=
  LawfulMonad.mk' (Work K V) andThen_done (fun _ _ => rfl) andThen_assoc

section

variable [DecidableEq K]

/-- Does the work on a host. -/
def run : Work K V α → Host K V → Host K V × α
  | done result, h => (h, result)
  | move m next, h =>
      let made := m.make h
      (next made.2).run made.1

/-- The moves that are made when the work is done on a host. -/
def steps : Work K V α → Host K V → List (Step K V)
  | done _, _ => []
  | move m next, h =>
      let made := m.make h
      ⟨h, m⟩ :: (next made.2).steps made.1

@[simp] theorem run_pure (a : α) (h : Host K V) : (pure a : Work K V α).run h = (h, a) := rfl

@[simp] theorem steps_pure (a : α) (h : Host K V) : (pure a : Work K V α).steps h = [] := rfl

@[simp] theorem run_make (m : Move K V) (h : Host K V) : (make m).run h = m.make h := rfl

@[simp] theorem steps_make (m : Move K V) (h : Host K V) : (make m).steps h = [⟨h, m⟩] := rfl

@[simp] theorem run_bind (w : Work K V α) (f : α → Work K V β) (h : Host K V) :
    (w >>= f).run h = (f (w.run h).2).run (w.run h).1 := by
  induction w generalizing h with
  | done a => rfl
  | move m next ih => exact ih (m.make h).2 (m.make h).1

/-- The steps of both parts come one after the other. -/
@[simp] theorem steps_bind (w : Work K V α) (f : α → Work K V β) (h : Host K V) :
    (w >>= f).steps h = w.steps h ++ (f (w.run h).2).steps (w.run h).1 := by
  induction w generalizing h with
  | done a => rfl
  | move m next ih =>
    have rest := ih (m.make h).2 (m.make h).1
    exact congrArg (List.cons ⟨h, m⟩) rest

@[simp] theorem run_map (f : α → β) (w : Work K V α) (h : Host K V) :
    (f <$> w).run h = ((w.run h).1, f (w.run h).2) :=
  run_bind w (fun a => pure (f a)) h

@[simp] theorem steps_map (f : α → β) (w : Work K V α) (h : Host K V) :
    (f <$> w).steps h = w.steps h :=
  (steps_bind w (fun a => pure (f a)) h).trans (List.append_nil _)

end

end Work

end ReclaimableCache
