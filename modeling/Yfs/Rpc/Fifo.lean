import Yfs.Effect.CondVar

/-! The bounded queue: its two operations, one round of their loops at a time. -/
namespace Yfs.Rpc

open Effect

/-- The elements are of type `T`; threads that add are named by `P`, those that take by `W`. -/
structure Fifo (T P W : Type) where
  q : List T
  max : ℕ
  nonEmpty : CondVar W
  hasSpace : CondVar P

/-- How a round of `enq` ends: with true, in a wait, or with false. -/
inductive Enq where
  | added
  | waits
  | full

namespace Fifo

variable {T P W : Type} [DecidableEq P] [DecidableEq W]

def new (limit : ℕ) : Fifo T P W := ⟨[], limit, [], []⟩

/-- A round of `enq` by thread `p`; its signal goes to `w` if that waits. -/
def enq (f : Fifo T P W) (p : P) (e : T) (blocking : Bool) (w : W) : Enq × Fifo T P W :=
  if f.max = 0 ∨ f.q.length < f.max then
    (.added, { f with q := f.q ++ [e], nonEmpty := f.nonEmpty.signal w })
  else if blocking then (.waits, { f with hasSpace := f.hasSpace.block p })
  else (.full, f)

/-- A round of `deq` by thread `w`: what it takes, if it does not wait. -/
def deq (f : Fifo T P W) (w : W) (p : P) : Option T × Fifo T P W :=
  match f.q with
  | [] => (none, { f with nonEmpty := f.nonEmpty.block w })
  | e :: rest =>
    (some e, { f with
      q := rest
      hasSpace := if f.max ≠ 0 ∧ rest.length < f.max then f.hasSpace.signal p else f.hasSpace })

end Fifo

end Yfs.Rpc
