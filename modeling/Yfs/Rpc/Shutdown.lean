import Yfs.Rpc.Sender
import Yfs.Rpc.PollMgr

/-! A connection in the poll manager, from its first callback to its removal. -/
namespace Yfs.Rpc

open Effect

/-- A thread that has set `dead_` is about to call `block_remove_fd`, waits in it, or has come back
from it. -/
inductive Removal where
  | none
  | due
  | begun
  | over
deriving DecidableEq

/-- `dead_` is the one of the sender. A VERIFY that fails in `write_cb` ends the process. -/
structure Conn where
  fd : ℕ
  name : ℕ
  poll : PollMgr
  sender : Sender
  removal : ℕ → Removal
  crashed : Bool

/-- The sections of the connection, the steps of the poll thread, and what other threads do with
other descriptors. A read either goes well or ends the connection. -/
inductive ConnEvent where
  | send (t : ℕ) (b : List UInt8) (io : IoWrite)
  | woken (t : ℕ) (io : IoWrite)
  | completed (t : ℕ)
  | closeconn (t : ℕ)
  | removeBegin (t : ℕ)
  | removeEnd (t : ℕ)
  | return (t : ℕ)
  | readCb (ok : Bool)
  | writeCb (io : IoWrite)
  | poll (e : PollEvent)

namespace Conn

/-- A new connection: the constructor has added its callback. -/
def start (pipe fd name : ℕ) : Conn where
  fd := fd
  name := name
  poll :=
    { PollMgr.init pipe with
      aio := ( SelectAIO.init pipe).watchFd fd .rdonly
      callbacks := Function.update (fun _ => none) fd (some name) }
  sender := .start
  removal _ := .none
  crashed := false

def setRemoval (s : Conn) (t : ℕ) (r : Removal) : Conn :=
  { s with removal := Function.update s.removal t r }

/-- The end of a section of `send`: a PDU that is not out yet is watched, and a write that has
failed is followed by `block_remove_fd`. -/
def afterSend (s : Conn) (t : ℕ) (n : Sender) : Option Conn :=
  match n.threads t with
  | .completing _ =>
    (s.poll.addCallback s.fd .wronly s.name).map fun p => { s with sender := n, poll := p }
  | .removing _ => some ({ s with sender := n }.setRemoval t .due)
  | _ => some { s with sender := n }

/-- A thread of `send` or `closeconn` comes back from `block_remove_fd`. -/
def returned (s : Conn) (t : ℕ) : Option Conn :=
  match s.sender.threads t with
  | .removing i => some ({ s with sender := s.sender.finish t i }.setRemoval t .none)
  | .outside => some (s.setRemoval t .none)
  | _ => none

/-- The poll thread goes on with its lists. -/
def resume (s : Conn) (readable writable : List ℕ) : Conn :=
  { s with poll := { s.poll with poll := .calling readable writable } }

def readCb (s : Conn) (ok : Bool) : Conn :=
  if s.sender.dead || ok then s
  else
    { s with
      poll := s.poll.delCallback s.fd .rdwr
      sender := { s.sender with dead := true } }

def writeCb (s : Conn) (io : IoWrite) : Option Conn :=
  if s.sender.dead then some { s with crashed := true }
  else if s.sender.wpdu.sz = 0 then some { s with poll := s.poll.delCallback s.fd .wronly }
  else
    match s.sender.writeCb io with
    | none => none
    | some n =>
      some { s with
        sender := n
        poll := if n.dead then s.poll.delCallback s.fd .rdwr else s.poll }

/-- Whether an event of the poll manager is not about this connection. -/
def Foreign (s : Conn) : PollEvent → Bool
  | .addCallback fd _ _ => fd ≠ s.fd
  | .delCallback fd _ => fd ≠ s.fd
  | .removeBegin t fd => fd ≠ s.fd && s.removal t = .none
  | .removeEnd t => s.removal t = .none
  | .return =>
    match s.poll.poll with
    | .running fd _ _ _ => fd ≠ s.fd
    | _ => true
  | _ => true

/-- A process that has crashed does nothing more. -/
def step (s : Conn) (e : ConnEvent) : Option Conn :=
  if s.crashed then none
  else
    match e with
    | .send t b io =>
      if s.removal t = .none then (s.sender.step (.send t b io)).bind (s.afterSend t) else none
    | .woken t io => (s.sender.step (.woken t io)).bind (s.afterSend t)
    | .completed t => (s.sender.step (.completed t)).map fun n => { s with sender := n }
    | .closeconn t =>
      match s.sender.threads t, s.removal t with
      | .outside, .none =>
        if s.sender.dead then some s
        else some ({ s with sender := { s.sender with dead := true } }.setRemoval t .due)
      | _, _ => none
    | .removeBegin t =>
      if s.removal t = .due then
        (s.poll.removeBegin t s.fd).map fun p => { s with poll := p }.setRemoval t .begun
      else none
    | .removeEnd t =>
      if s.removal t = .begun then
        (s.poll.removeEnd t).map fun p => { s with poll := p }.setRemoval t .over
      else none
    | .return t => if s.removal t = .over then s.returned t else none
    | .readCb ok =>
      match s.poll.poll with
      | .running fd .rdonly readable writable =>
        if fd = s.fd then some ((s.readCb ok).resume readable writable) else none
      | _ => none
    | .writeCb io =>
      match s.poll.poll with
      | .running fd .wronly readable writable =>
        if fd = s.fd then (s.writeCb io).map fun s' => s'.resume readable writable else none
      | _ => none
    | .poll e => if s.Foreign e then (s.poll.step e).map fun p => { s with poll := p } else none

end Conn

end Yfs.Rpc
