import Mathlib

/-!
# A first-in first-out channel

What has been put in either has left the channel or waits in it, in the order in
which it was put in.
-/

namespace Webcrown.Transitions

variable {α : Type*}

structure Fifo (α : Type*) where
  sent : List α
  pending : List α

inductive FifoOp (α : Type*)
  | push (xs : List α)
  | pop (k : ℕ)

namespace Fifo

def apply (q : Fifo α) : FifoOp α → Fifo α
  | .push xs => { q with pending := q.pending ++ xs }
  | .pop k => ⟨q.sent ++ q.pending.take k, q.pending.drop k⟩

/-- What a list of operations puts in. -/
def pushed (ops : List (FifoOp α)) : List α :=
  ops.flatMap fun
    | .push xs => xs
    | .pop _ => []

def content (q : Fifo α) : List α := q.sent ++ q.pending

theorem content_apply (q : Fifo α) (op : FifoOp α) :
    (q.apply op).content = q.content ++ pushed [op] := by
  cases op <;> simp [apply, content, pushed]

/-- Nothing is lost, doubled or reordered. -/
theorem content_foldl (q : Fifo α) (ops : List (FifoOp α)) :
    (ops.foldl apply q).content = q.content ++ pushed ops := by
  induction ops generalizing q with
  | nil => simp [pushed]
  | cons op ops ih =>
    rw [List.foldl_cons, ih, content_apply, List.append_assoc]
    simp [pushed]

end Fifo

end Webcrown.Transitions
