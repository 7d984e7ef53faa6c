import Yfs.Rpc.AckWindow
import Yfs.Rpc.RoundTrip

/-! `rpcc`: the calls of its threads, the server it is bound to, and what it has reported. -/
namespace Yfs.Rpc
open Effect

/-- `rpc_const::bind` -/
def bindProc : Int32 := 1

def timeoutFailure : Int32 := -1

def bindFailure : Int32 := -6

def cancelFailure : Int32 := -7

/-- A marshalled request, with the header it holds. -/
structure Request (sum : Bool) where
  header : ReqHeader
  buf : ℕ → UInt8
  sz : ℕ
  low : rpcHeaderSz sum ≤ sz
  int : sz < 2 ^ 31
  packed : slice buf (headerAt sum) header.enc.length = header.enc

/-- The marshalled arguments of a call. -/
structure Args (sum : Bool) where
  req : Marshall
  valid : req.Valid sum
  int : req.ind < 2 ^ 31

/-- What `pack_req_header` makes of them. -/
def Args.pack {sum : Bool} (a : Args sum) (h : ReqHeader) : Request sum where
  header := h
  buf := (Marshall.packReqHeader sum h a.req).buf
  sz := (Marshall.packReqHeader sum h a.req).ind
  low := (h.packs a.valid).valid.low
  int := lt_of_eq_of_lt (h.packs a.valid).ind a.int
  packed := (h.packs a.valid).got

/-- A reply on its way to the client `clt`, from the server with the nonce `srv`. -/
structure Response where
  clt : UInt32
  srv : UInt32
  header : ReplyHeader
  body : List UInt8

/-- `rpcc::caller` with its request. `body` is what `un` has taken in, and `srv` the server that it
came from. -/
structure Caller (sum : Bool) where
  xid : UInt32
  req : Request sum
  xidRep : Int32
  done : Bool
  intret : Int32
  body : List UInt8
  srv : UInt32

/-- `leaving` are the callers that have been taken out of `calls_` and have not returned, `binding`
the results that `bind` has not stored. `made` and `reported` tell which headers were packed and
which xids `update_xid_rep` was given. -/
structure Client (sum : Bool) where
  cltNonce : UInt32
  srvNonce : UInt32
  bindDone : Bool
  xid : UInt32
  lossytest : Bool
  destroyWait : Bool
  calls : List (Caller sum)
  xidRepWindow : List UInt32
  dupReq : Option (Request sum)
  xidRepDone : Int32
  leaving : List (Caller sum)
  binding : List UInt32
  made : List ReqHeader
  reported : List UInt32

/-- What a call has given its thread. -/
structure Return where
  clt : UInt32
  xid : UInt32
  ret : Int32
  body : List UInt8
  srv : UInt32

namespace Client

variable {sum : Bool}

def init (nonce : UInt32) (lossytest : Bool) : Client sum where
  cltNonce := nonce
  srvNonce := 0
  bindDone := false
  xid := 1
  lossytest := lossytest
  destroyWait := false
  calls := []
  xidRepWindow := [0]
  dupReq := none
  xidRepDone := -1
  leaving := []
  binding := []
  made := []
  reported := []

/-- `calls_[ca.xid] = &ca` -/
def insert (c : Client sum) (ca : Caller sum) : List (Caller sum) :=
  c.calls.filter (fun a => a.xid ≠ ca.xid) ++ [ca]

/-- The first section of `call1`: the value of a call that fails at once, or the state with the new
caller. -/
def call1 (c : Client sum) (proc : Int32) (args : Args sum) : Option (Except Int32 (Client sum)) :=
  if (proc ≠ bindProc ∧ ¬ c.bindDone) ∨ (proc = bindProc ∧ c.bindDone) then
    some (.error bindFailure)
  else if c.destroyWait then some (.error cancelFailure)
  else c.xidRepWindow.head?.map fun front =>
    let h : ReqHeader := ⟨c.xid.toInt32, proc, c.cltNonce, c.srvNonce, front.toInt32⟩
    .ok { c with
      xid := c.xid + 1
      calls := c.insert ⟨c.xid, args.pack h, front.toInt32, false, 0, [], 0⟩
      made := c.made ++ [h] }

/-- `dup_req_` when it is valid. -/
def dup (c : Client sum) : Option (Request sum) := c.dupReq.filter fun r => r.header.xid ≠ -1

/-- What a caller sends on a connection. -/
def transmit (c : Client sum) (xid : UInt32) : Option (Client sum × List (Request sum)) :=
  (c.calls.find? fun ca => ca.xid = xid).map fun ca =>
    match c.dup.filter fun r => c.xidRepDone > r.header.xid with
    | some forgot => ({ c with dupReq := none }, [forgot, ca.req])
    | none => (c, [ca.req])

def report (c : Client sum) (xid : UInt32) : Option (Client sum) :=
  (updateXidRep c.xidRepWindow xid).map fun w =>
    { c with xidRepWindow := w, reported := c.reported ++ [xid] }

/-- What `got_pdu` makes of a caller. -/
def answer (r : Response) (ca : Caller sum) : Caller sum :=
  if ca.xid = r.header.xid.toUInt32 ∧ ¬ ca.done then
    { ca with intret := r.header.ret, body := r.body, srv := r.srv, done := true }
  else ca

/-- `got_pdu` of a reply whose header was there. -/
def gotPdu (c : Client sum) (r : Response) : Option (Client sum) :=
  (c.report r.header.xid.toUInt32).map fun c => { c with calls := c.calls.map (answer r) }

/-- A caller that has its reply, or has waited too long, takes itself out of `calls_`. -/
def finish (c : Client sum) (xid : UInt32) : Option (Client sum) :=
  (c.calls.find? fun ca => ca.xid = xid).bind fun ca => (c.report ca.xid).map fun c =>
    { c with calls := c.calls.filter (fun a => a.xid ≠ ca.xid), leaving := c.leaving ++ [ca] }

/-- The section for a lossy network. -/
def keepDup (c : Client sum) (ca : Caller sum) : Client sum :=
  if ca.done ∧ c.lossytest then
    { c with
      dupReq := some (c.dup.getD ca.req)
      xidRepDone := if ca.xidRep > c.xidRepDone then ca.xidRep else c.xidRepDone }
  else c

/-- The nonce in the reply to a bind. -/
def bindNonce (body : List UInt8) : Option UInt32 :=
  if body.length = 4 then some (netWord body) else none

/-- The end of a call, and of the call that `bind` makes. -/
def ret (c : Client sum) (k : ℕ) : Option (Return × Client sum) :=
  c.leaving[k]?.bind fun ca =>
    let c := keepDup { c with leaving := c.leaving.eraseIdx k } ca
    let value := if ca.done then ca.intret else timeoutFailure
    let r : Return := ⟨c.cltNonce, ca.xid, value, ca.body, ca.srv⟩
    if ca.req.header.proc = bindProc ∧ 0 ≤ value then
      (bindNonce ca.body).map fun nonce =>
        (r, if value = 0 then { c with binding := c.binding ++ [nonce] } else c)
    else some (r, c)

/-- The section of `bind`. -/
def bind (c : Client sum) (k : ℕ) : Option (Client sum) :=
  c.binding[k]?.map fun nonce =>
    { c with bindDone := true, srvNonce := nonce, binding := c.binding.eraseIdx k }

def cancel (c : Client sum) : Client sum :=
  { c with
    calls := c.calls.map fun ca => { ca with done := true, intret := cancelFailure }
    destroyWait := c.destroyWait || !c.calls.isEmpty }

end Client

end Yfs.Rpc
