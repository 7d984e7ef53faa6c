import Yfs.Rpc.Connection
import Yfs.Effect.Transition
import Mathlib.Logic.Function.Basic
import Mathlib.Tactic.SplitIfs

/-! The sending side of a connection: the threads in `connection::send`, and `write_cb`. -/
namespace Yfs.Rpc

open Effect

/-- Where a thread is in `send`: before the PDU is its own, in `block_remove_fd` after a failed
write, or waiting until the PDU is out. The last two know the place of the PDU among those that
acquired the buffer. -/
inductive Sending where
  | outside
  | waiting (b : List UInt8)
  | removing (i : ℕ)
  | completing (i : ℕ)

/-- The sending side, with the bytes it has handed to the kernel, the PDUs in the order in which
they acquired the buffer, and what `send` has returned for each. -/
structure Sender where
  wpdu : Wpdu
  dead : Bool
  waiters : ℕ
  threads : ℕ → Sending
  out : List UInt8
  acquired : List (List UInt8)
  returned : List (ℕ × Bool)

/-- The sections under the lock, each with what its write returns. A thread that waits may be woken
at any time. -/
inductive SendEvent where
  | send (t : ℕ) (b : List UInt8) (io : IoWrite)
  | woken (t : ℕ) (io : IoWrite)
  | removed (t : ℕ)
  | completed (t : ℕ)
  | writeCb (io : IoWrite)
  | die

namespace Sender

def start : Sender := ⟨.blank, false, 0, fun _ => .outside, [], [], []⟩

def move (s : Sender) (t : ℕ) (c : Sending) : Sender :=
  { s with threads := Function.update s.threads t c }

/-- The end of `send`. -/
def finish (s : Sender) (t i : ℕ) : Sender :=
  { s.move t .outside with
    wpdu := .blank
    returned := s.returned ++ [(i, !s.dead && s.wpdu.solong = s.wpdu.sz)] }

theorem threads_move (s : Sender) (t u : ℕ) (c : Sending) :
    (s.move t c).threads u = if u = t then c else s.threads u :=
  Function.update_apply ..

theorem threads_finish (s : Sender) (t i u : ℕ) :
    (s.finish t i).threads u = if u = t then .outside else s.threads u :=
  Function.update_apply ..

/-- `send` once no other PDU is in the way. -/
def acquire (s : Sender) (t : ℕ) (b : List UInt8) (io : IoWrite) : Option Sender :=
  match writepdu ⟨some b, b.length, 0⟩ io with
  | none => none
  | some r =>
    let s' := { s with
      wpdu := r.wpdu
      out := s.out ++ r.out
      acquired := s.acquired ++ [b] }
    if !r.ok then some ({ s' with dead := true }.move t (.removing s.acquired.length))
    else if r.wpdu.solong = r.wpdu.sz then some (s'.finish t s.acquired.length)
    else some (s'.move t (.completing s.acquired.length))

/-- The loop before the PDU is the thread's own, with the thread counted in `waiters_`. -/
def enter (s : Sender) (t : ℕ) (b : List UInt8) (io : IoWrite) : Option Sender :=
  if !s.dead && s.wpdu.buf.isSome then some (s.move t (.waiting b))
  else
    let s' := { s with waiters := s.waiters - 1 }
    if s.dead then some (s'.move t .outside) else s'.acquire t b io

/-- The loop that waits until the PDU is out. -/
def complete (s : Sender) (t i : ℕ) : Sender :=
  if !s.dead && 0 ≤ s.wpdu.solong && s.wpdu.solong < s.wpdu.sz then s else s.finish t i

/-- There is no result when a VERIFY fails. -/
def writeCb (s : Sender) (io : IoWrite) : Option Sender :=
  if s.dead then none
  else if s.wpdu.sz = 0 then some s
  else
    match writepdu s.wpdu io with
    | none => none
    | some r => some { s with wpdu := r.wpdu, out := s.out ++ r.out, dead := !r.ok }

/-- A PDU is longer than its length word, and its size is an int. -/
def Sendable (b : List UInt8) : Prop := 4 < b.length ∧ b.length < 2 ^ 31

instance (b : List UInt8) : Decidable (Sendable b) := inferInstanceAs (Decidable (_ ∧ _))

def step (s : Sender) : SendEvent → Option Sender
  | .send t b io =>
    match s.threads t with
    | .outside => if Sendable b then { s with waiters := s.waiters + 1 }.enter t b io else none
    | _ => none
  | .woken t io =>
    match s.threads t with
    | .waiting b => s.enter t b io
    | _ => none
  | .removed t =>
    match s.threads t with
    | .removing i => some (s.finish t i)
    | _ => none
  | .completed t =>
    match s.threads t with
    | .completing i => some (s.complete t i)
    | _ => none
  | .writeCb io => s.writeCb io
  | .die => some { s with dead := true }

end Sender

end Yfs.Rpc
