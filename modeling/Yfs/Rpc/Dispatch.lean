import Yfs.Effect.SortedMap
import Yfs.Effect.Transition
import Yfs.Rpc.ReplyWindow
import Yfs.Rpc.Unmarshall
import Mathlib.Algebra.GroupWithZero.Nat

/-! The server: the connections it accepts, the jobs made of their requests, and the dispatch of
each, with the references to connections that all of these hold. -/
namespace Yfs.Rpc

open Effect

/-- What the server sees of a connection. -/
structure Peer where
  fd : ℕ
  createTime : ℕ
  dead : Bool
  refno : ℤ
  freed : Bool

namespace Peer

def incref (p : Peer) : Peer := { p with refno := p.refno + 1 }

/-- A dead connection that loses its last reference is deleted. -/
def decref (p : Peer) : Peer :=
  { p with refno := p.refno - 1, freed := p.freed || (p.refno = 1 && p.dead) }

def die (p : Peer) : Peer := { p with dead := true }

end Peer

/-- `djob_t` -/
structure Job where
  conn : ℕ
  buf : ℕ → UInt8
  sz : ℕ

/-- What a dispatch does next. -/
inductive Stage where
  | header
  | oldServer
  | record
  | check
  | handle
  | choose
  | reply
  | release
deriving DecidableEq

/-- A running dispatch. `conn` is its `c`, which may become null, `arrived` the connection of the
request, `found` what `conns_` had for the client when `c` was chosen, and `rep` the value and the
body of the reply. -/
structure Dispatch where
  conn : Option ℕ
  arrived : ℕ
  found : Option ℕ
  header : ReqHeader
  ok : Bool
  rep : Option (Int32 × List UInt8)
  stage : Stage

/-- A job is taken from the queue and its header unpacked. -/
def Dispatch.start (sum : Bool) (j : Job) : Dispatch :=
  let r := Unmarshall.unpackReqHeader sum (Unmarshall.init j.buf j.sz)
  ⟨some j.conn, j.conn, none, r.1, r.2.ok, none, .header⟩

/-- The threads of `dispatchpool_`. -/
abbrev Worker := Fin 6

theorem workers_ne_zero : 6 ≠ 0 := by decide

instance neZeroWorkers : NeZero 6 := ⟨workers_ne_zero⟩

/-- `rpcs` with its `tcpsconn`. Of `conn` the first `made` exist. `accepted` is a connection that
`process_accept` has made and not yet put into `conns_`, `condemned` the descriptor of one it is
about to give up, `poller` the connection of a `got_pdu` that has not returned, and whether its job
was taken. -/
structure Rpcs where
  sum : Bool
  nonce : UInt32
  procs : List Int32
  reachable : Bool
  conn : ℕ → Peer
  made : ℕ
  listener : ℕ → Option ℕ
  accepted : Option ℕ
  condemned : Option ℕ
  poller : Option (ℕ × Bool)
  queue : List Job
  active : Worker → Option Dispatch
  conns : SortedMap UInt32 (Option ℕ)
  window : ReplyWindow (Int32 × List UInt8)

/-- `handle` stands for the handler's value and reply. Other threads make a connection dead at any
time. -/
inductive RpcsEvent where
  | accept (fd time : ℕ)
  | examine (fd : ℕ)
  | collect
  | insert
  | die (c : ℕ)
  | setReachable (b : Bool)
  | gotPdu (c : ℕ) (buf : ℕ → UInt8) (sz : ℕ) (succ : Bool)
  | returned
  | take (i : Worker)
  | go (i : Worker) (ret : Int32) (body : List UInt8)

namespace Rpcs

def init (sum : Bool) (nonce : UInt32) (procs : List Int32) : Rpcs where
  sum := sum
  nonce := nonce
  procs := procs
  reachable := true
  conn _ := ⟨0, 0, false, 0, false⟩
  made := 0
  listener _ := none
  accepted := none
  condemned := none
  poller := none
  queue := []
  active _ := none
  conns := .empty
  window _ := []

def setPeer (s : Rpcs) (c : ℕ) (p : Peer) : Rpcs := { s with conn := Function.update s.conn c p }

def incref (s : Rpcs) (c : ℕ) : Rpcs := s.setPeer c (s.conn c).incref

/-- The VERIFY fails when there is no reference to give back. -/
def decref (s : Rpcs) (c : ℕ) : Option Rpcs :=
  if (s.conn c).decref.refno ≥ 0 then some (s.setPeer c (s.conn c).decref) else none

/-- `decref` through a pointer. -/
def decrefPtr (s : Rpcs) : Option ℕ → Option Rpcs
  | none => none
  | some c => s.decref c

/-- `connection::compare` -/
def compare (s : Rpcs) (c c' : ℕ) : Ordering :=
  Ord.compare (s.conn c).createTime (s.conn c').createTime

/-- The section that saves the latest good connection to the client. -/
def record (s : Rpcs) (nonce : UInt32) (c : ℕ) : Option Rpcs :=
  match s.conns.find nonce with
  | none => some { s.incref c with conns := s.conns.assign nonce (some c) }
  | some none => none
  | some (some old) =>
    if s.compare old c = .lt then
      (s.decref old).map fun s => { s.incref c with conns := s.conns.assign nonce (some c) }
    else some s

/-- `operator[]` of `conns_` makes an entry when there is none. -/
def touch (s : Rpcs) (nonce : UInt32) : Rpcs :=
  match s.conns.find nonce with
  | none => { s with conns := s.conns.assign nonce none }
  | some _ => s

/-- The section that gets the latest connection to the client: the new `c`, and the state. A null
`c` has no `incref`, the process ends there. -/
def choose (s : Rpcs) (nonce : UInt32) (c : ℕ) : Option (Option ℕ × Rpcs) :=
  if (s.conn c).dead then
    let s := s.touch nonce
    let p := (s.conns.find nonce).join
    if p = some c then some (p, s)
    else (s.decref c).map fun s => (p, p.elim s s.incref)
  else some (some c, s)

def setActive (s : Rpcs) (i : Worker) (d : Option Dispatch) : Rpcs :=
  { s with active := Function.update s.active i d }

/-- The dispatch of worker `i` goes on to a stage. -/
def enter (s : Rpcs) (i : Worker) (d : Dispatch) (stage : Stage) : Rpcs :=
  s.setActive i (some { d with stage := stage })

/-- The end of a dispatch. -/
def leave (s : Rpcs) (i : Worker) : Rpcs := s.setActive i none

/-- Is the client sending to an old instance of the server? -/
def isOldServer (s : Rpcs) (h : ReqHeader) : Bool := h.srvNonce ≠ 0 && h.srvNonce ≠ s.nonce

def oldsrvFailure : Int32 := -5

def atmostonceFailure : Int32 := -4

/-- The reply that a verdict comes with. -/
def verdictReply : Verdict (Int32 × List UInt8) → Option (Int32 × List UInt8)
  | .done buf _ => buf
  | .forgotten => some (atmostonceFailure, [])
  | .new | .inProgress => none

def verdictStage : Verdict (Int32 × List UInt8) → Stage
  | .new => .handle
  | .inProgress => .release
  | .done .. | .forgotten => .reply

/-- The next step of a dispatch. There is none where the process ends. -/
def dispatch (s : Rpcs) (i : Worker) (d : Dispatch) (ret : Int32) (body : List UInt8) :
    Option Rpcs :=
  match d.stage with
  | .header =>
    if ¬ d.ok then (s.decrefPtr d.conn).map fun s => s.leave i
    else if s.isOldServer d.header then
      some (s.enter i { d with rep := some (oldsrvFailure, []) } .oldServer)
    else if d.header.proc ∉ s.procs then none
    else if d.header.cltNonce ≠ 0 then some (s.enter i d .record)
    else some (s.enter i d .handle)
  -- the reply is sent and dispatch returns
  | .oldServer => some (s.leave i)
  | .record => d.conn.bind fun c => (s.record d.header.cltNonce c).map fun s => s.enter i d .check
  | .check =>
    let r := checkduplicateAndUpdate s.window d.header.cltNonce d.header.xid.toUInt32
      d.header.xidRep.toUInt32
    some ({ s with window := r.2 }.enter i { d with rep := verdictReply r.1 } (verdictStage r.1))
  | .handle =>
    if ret < 0 then none
    else
      let w := addReply s.window d.header.cltNonce d.header.xid.toUInt32 (ret, body)
        (Int32.ofNat body.length)
      let s := if d.header.cltNonce > 0 then { s with window := w } else s
      some (s.enter i { d with rep := some (ret, body) } .choose)
  | .choose => d.conn.bind fun c => (s.choose d.header.cltNonce c).map fun r =>
      r.2.enter i { d with conn := r.1, found := (r.2.conns.find d.header.cltNonce).join } .reply
  | .reply => d.conn.map fun _ => s.enter i d .release
  | .release => (s.decrefPtr d.conn).map fun s => s.leave i

def step (s : Rpcs) : RpcsEvent → Option Rpcs
  -- the descriptor is one that no connection has open
  | .accept fd time =>
    if s.accepted = none ∧ ∀ c < s.made, (s.conn c).fd = fd → (s.conn c).freed = true then
      some { s.setPeer s.made ⟨fd, time, false, 1, false⟩ with
        made := s.made + 1, accepted := some s.made }
    else none
  | .examine fd =>
    match s.accepted, s.condemned, s.listener fd with
    | some _, none, some c =>
      if (s.conn c).dead ∧ (s.conn c).refno = 1 then some { s with condemned := some fd } else none
    | _, _, _ => none
  | .collect =>
    s.condemned.bind fun fd => (s.listener fd).bind fun c => (s.decref c).map fun s =>
      { s with listener := Function.update s.listener fd none, condemned := none }
  | .insert =>
    match s.accepted, s.condemned with
    | some c, none =>
      some { s with
        listener := Function.update s.listener (s.conn c).fd (some c), accepted := none }
    | _, _ => none
  | .die c => if c < s.made then some (s.setPeer c (s.conn c).die) else none
  | .setReachable b => some { s with reachable := b }
  -- a connection that is dead is not read
  | .gotPdu c buf sz succ =>
    if s.poller = none ∧ c < s.made ∧ (s.conn c).dead = false then
      if s.reachable then
        some { s.incref c with
          queue := if succ then s.queue ++ [⟨c, buf, sz⟩] else s.queue
          poller := some (c, succ) }
      else some s
    else none
  | .returned =>
    s.poller.bind fun p =>
      (if ¬ p.2 ∨ ¬ s.reachable then s.decref p.1 else some s).map fun s => { s with poller := none }
  | .take i =>
    match s.active i, s.queue with
    | none, j :: q => some ({ s with queue := q }.setActive i (some (.start s.sum j)))
    | _, _ => none
  | .go i ret body => (s.active i).bind fun d => s.dispatch i d ret body

end Rpcs

/-- The bytes of a request of a client to a server. -/
def requestBytes (clt srv : UInt8) (i : ℕ) : UInt8 :=
  if i = 15 then clt else if i = 19 then srv else 0

/-- Its way to a worker. -/
def oneRequest (clt srv : UInt8) : List RpcsEvent :=
  [.accept 3 0, .insert, .gotPdu 0 (requestBytes clt srv) 24 true, .returned, .take 0]

end Yfs.Rpc
