import Yfs.Rpc.Client
import Yfs.Rpc.Progress

/-! Clients and a server that restarts, with the messages between them. -/
namespace Yfs.Rpc
open Effect

/-- The execution of a handler for a call, by one instance of the server. -/
structure Task where
  srv : UInt32
  clt : UInt32
  xid : UInt32
  proc : Int32
deriving DecidableEq

/-- The call it is for, and the instance. -/
def Task.key (t : Task) : UInt32 × UInt32 × UInt32 := (t.srv, t.clt, t.xid)

/-- The running instance and what is on its way to it. `owner` tells which client has made a
connection. `instances` are the nonces so far, `begun` and `executed` the handlers that have been
started and that have returned, and `received` the reports that this instance has got. -/
structure Host (sum : Bool) where
  rpcs : Rpcs
  owner : ℕ → UInt32
  sent : List (ℕ × Request sum)
  instances : List UInt32
  begun : List Task
  executed : List (Task × Int32 × List UInt8)
  received : List (UInt32 × UInt32)

/-- Connections are made and die, requests arrive or are lost, and the threads of the server go on.
A restart closes all connections. -/
inductive HostEvent where
  | accept (n : UInt32) (fd time : ℕ)
  | server (e : RpcsEvent)
  | deliver (k : ℕ) (succ : Bool)
  | lose (k : ℕ)
  | go (i : Worker) (ret : Int32) (body : List UInt8)
  | restart (nonce : UInt32) (procs : List Int32)

/-- The events that are the server's own. -/
def RpcsEvent.isOwn : RpcsEvent → Bool
  | .examine _ | .collect | .insert | .die _ | .returned | .take _ => true
  | .accept .. | .setReachable _ | .gotPdu .. | .go .. => false

namespace Host

variable {sum : Bool}

def init (nonce : UInt32) (procs : List Int32) : Host sum where
  rpcs := Rpcs.init sum nonce procs
  owner _ := 0
  sent := []
  instances := [nonce]
  begun := []
  executed := []
  received := []

def task (h : Host sum) (d : Dispatch) : Task :=
  ⟨h.rpcs.nonce, d.header.cltNonce, d.header.xid.toUInt32, d.header.proc⟩

/-- What a dispatch sends in a step. -/
def answers (h : Host sum) (d : Dispatch) : List Response :=
  if d.stage = .oldServer ∨ d.stage = .reply then
    match d.conn, d.rep with
    | some c, some v => [⟨h.owner c, h.rpcs.nonce, ⟨d.header.xid, v.1⟩, v.2⟩]
    | _, _ => []
  else []

/-- The state after a step of a dispatch. The handler of bind is `rpcbind`. -/
def go (h : Host sum) (i : Worker) (d : Dispatch) (ret : Int32) (body : List UInt8) :
    Option (Host sum) :=
  if d.stage = .handle ∧ d.header.proc = bindProc ∧ ¬ (ret = 0 ∧ body = netBytes h.rpcs.nonce) then
    none
  else (h.rpcs.step (.go i ret body)).map fun r =>
    { h with
      rpcs := r
      begun := if (r.active i).map Dispatch.stage = some .handle then h.begun ++ [h.task d]
        else h.begun
      executed := if d.stage = .handle then h.executed ++ [(h.task d, ret, body)] else h.executed
      received := if d.stage = .check then
          h.received ++ [(d.header.cltNonce, d.header.xidRep.toUInt32)]
        else h.received }

def step (h : Host sum) : HostEvent → Option (Host sum × List Response)
  | .accept n fd time => (h.rpcs.step (.accept fd time)).map fun r =>
    ({ h with rpcs := r, owner := Function.update h.owner h.rpcs.made n }, [])
  | .server e =>
    if e.isOwn then (h.rpcs.step e).map fun r => ({ h with rpcs := r }, []) else none
  -- a channel keeps what the server has not taken
  | .deliver k succ => h.sent[k]?.bind fun p =>
    (h.rpcs.step (.gotPdu p.1 p.2.buf p.2.sz succ)).map fun r =>
      ({ h with rpcs := r, sent := if succ then h.sent.eraseIdx k else h.sent }, [])
  | .lose k => some ({ h with sent := h.sent.eraseIdx k }, [])
  | .go i ret body => (h.rpcs.active i).bind fun d =>
    (h.go i d ret body).map fun h' => (h', h.answers d)
  | .restart nonce procs => some ({ h with
      rpcs := Rpcs.init sum nonce procs
      sent := []
      instances := h.instances ++ [nonce]
      received := [] }, [])

end Host

structure System (sum : Bool) where
  host : Host sum
  clients : UInt32 → Client sum
  replies : List Response
  returned : List Return

/-- Besides what happens at the server: a thread calls, a caller sends on a connection of its
client, a reply arrives or is lost, a caller leaves and returns, `bind` stores its result, and a
client cancels its calls. -/
inductive SystemEvent (sum : Bool) where
  | host (e : HostEvent)
  | call (n : UInt32) (proc : Int32) (args : Args sum)
  | transmit (n xid : UInt32) (conn : ℕ)
  | reply (k : ℕ)
  | loseReply (k : ℕ)
  | finish (n xid : UInt32)
  | ret (n : UInt32) (k : ℕ)
  | bind (n : UInt32) (k : ℕ)
  | cancel (n : UInt32)

namespace System

variable {sum : Bool}

def init (nonce : UInt32) (procs : List Int32) (lossytest : Bool) : System sum where
  host := .init nonce procs
  clients n := .init n lossytest
  replies := []
  returned := []

def setClient (s : System sum) (n : UInt32) (c : Client sum) : System sum :=
  { s with clients := Function.update s.clients n c }

def step (s : System sum) : SystemEvent sum → Option (System sum)
  | .host e => (s.host.step e).map fun r => { s with host := r.1, replies := s.replies ++ r.2 }
  | .call n proc args => ((s.clients n).call1 proc args).map fun
    | .error value => { s with returned := s.returned ++ [⟨n, 0, value, [], 0⟩] }
    | .ok c => s.setClient n c
  | .transmit n xid conn =>
    if conn < s.host.rpcs.made ∧ s.host.owner conn = n then
      ((s.clients n).transmit xid).map fun r =>
        { s.setClient n r.1 with host.sent := s.host.sent ++ r.2.map fun q => (conn, q) }
    else none
  | .reply k => s.replies[k]?.bind fun r => ((s.clients r.clt).gotPdu r).map fun c =>
    { s.setClient r.clt c with replies := s.replies.eraseIdx k }
  | .loseReply k => some { s with replies := s.replies.eraseIdx k }
  | .finish n xid => ((s.clients n).finish xid).map fun c => s.setClient n c
  | .ret n k => ((s.clients n).ret k).map fun r =>
    { s.setClient n r.2 with returned := s.returned ++ [r.1] }
  | .bind n k => ((s.clients n).bind k).map fun c => s.setClient n c
  | .cancel n => some (s.setClient n (s.clients n).cancel)

/-- The requests of a client, as their headers. -/
def made (s : System sum) (n : UInt32) : List ReqHeader := (s.clients n).made

theorem clients_setClient (s : System sum) (n : UInt32) (c : Client sum) (m : UInt32) :
    (s.setClient n c).clients m = if m = n then c else s.clients m := by
  unfold setClient
  dsimp only
  rw [Function.update_apply]

theorem made_setClient (s : System sum) (n : UInt32) (c : Client sum) (m : UInt32) :
    (s.setClient n c).made m = if m = n then c.made else s.made m := by
  unfold made
  rw [clients_setClient, apply_ite Client.made]

/-- A client that packs a header more. -/
theorem mem_made_setClient {s : System sum} {n : UInt32} {c : Client sum}
    (hm : ∀ hd ∈ s.made n, hd ∈ c.made) {m : UInt32} {hd : ReqHeader} (h : hd ∈ s.made m) :
    hd ∈ (s.setClient n c).made m := by
  rw [made_setClient]
  split_ifs with hmn
  · rw [hmn] at h
    exact hm hd h
  · exact h

end System

end Yfs.Rpc
