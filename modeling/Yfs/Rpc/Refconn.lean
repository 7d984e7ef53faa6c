import Yfs.Effect.Tally
import Yfs.Rpc.Dispatch

/-! The connections of a client: `chan_`, the calls that use it, `get_refconn`, which replaces it,
and the destructor. -/
namespace Yfs.Rpc

open Effect

/-- Where a `call1` stands. From `check` to `incref` it is in `get_refconn` and holds `chan_m_`. -/
inductive CallStage where
  | transmit
  | check
  | drop
  | connect
  | take
  | release
  | assign
  | incref
  | send
  | deadline
  | wait
  | probe
  | leave
deriving DecidableEq

/-- The stage is one of `get_refconn`. -/
def CallStage.Inside : CallStage → Prop
  | .check | .drop | .connect | .take | .release | .assign | .incref => True
  | _ => False

instance (c : CallStage) : Decidable c.Inside := by
  unfold CallStage.Inside
  split <;> infer_instance

/-- A `call1` in its loop or after it. -/
structure Call1 where
  ch : Option ℕ
  stage : CallStage
deriving DecidableEq

/-- The client is destroyed in two steps, `closeconn` and `decref`. -/
inductive Life where
  | inUse
  | closing
  | gone
deriving DecidableEq

/-- `rpcc`, used by `k` threads. Of `conn` the first `made` have been made by `connect_to_dst`,
`owner` is the thread that has `chan_m_`, and `deleted` lists the connections each time that
`decref` deletes one. -/
structure Rpcc (k : ℕ) where
  retrans : Bool
  reachable : Bool
  conn : ℕ → Peer
  made : ℕ
  chan : Option ℕ
  owner : Option (Fin k)
  calls : Fin k → Option Call1
  life : Life
  deleted : List ℕ

/-- What `b` says in `go` depends on the stage: whether the final deadline has passed, whether the
reply is there. `connected` is the connect that succeeds. -/
inductive RpccEvent (k : ℕ) where
  | start (t : Fin k)
  | go (t : Fin k) (b : Bool)
  | connected (t : Fin k) (fd time : ℕ)
  | die (c : ℕ)
  | setReachable (b : Bool)
  | destroy
  | finish

namespace Rpcc

variable {k : ℕ}

def init (k : ℕ) (retrans : Bool) : Rpcc k where
  retrans := retrans
  reachable := true
  conn _ := ⟨0, 0, false, 0, false⟩
  made := 0
  chan := none
  owner := none
  calls _ := none
  life := .inUse
  deleted := []

def incref (s : Rpcc k) (c : ℕ) : Rpcc k :=
  { s with conn := Function.update s.conn c (s.conn c).incref }

def decref (s : Rpcc k) (c : ℕ) : Rpcc k :=
  { s with
    conn := Function.update s.conn c (s.conn c).decref
    deleted := if (s.conn c).decref.freed then c :: s.deleted else s.deleted }

def die (s : Rpcc k) (c : ℕ) : Rpcc k :=
  { s with conn := Function.update s.conn c (s.conn c).die }

/-- `chan_ = connect_to_dst(..)` with a connection made there. -/
def connect (s : Rpcc k) (fd time : ℕ) : Rpcc k :=
  { s with
    conn := Function.update s.conn s.made ⟨fd, time, false, 1, false⟩
    made := s.made + 1
    chan := some s.made }

def setCall (s : Rpcc k) (t : Fin k) (v : Option Call1) : Rpcc k :=
  { s with calls := Function.update s.calls t v }

def setOwner (s : Rpcc k) (o : Option (Fin k)) : Rpcc k := { s with owner := o }

/-- `!ch || ch->isdead()` -/
def isLost (s : Rpcc k) : Option ℕ → Bool
  | none => true
  | some c => (s.conn c).dead

/-- A call goes on. There is no result when it has to wait for `chan_m_`, or uses a null pointer. -/
def go (s : Rpcc k) (t : Fin k) (a : Call1) (b : Bool) : Option (Rpcc k) :=
  match a.stage with
  | .transmit =>
    if s.owner = none then some ((s.setCall t (some ⟨a.ch, .check⟩)).setOwner (some t)) else none
  | .check =>
    if s.isLost s.chan then
      some (s.setCall t (some ⟨a.ch, if s.chan = none then .connect else .drop⟩))
    else some (s.setCall t (some ⟨a.ch, .take⟩))
  | .drop => s.chan.map fun c => (s.decref c).setCall t (some ⟨a.ch, .connect⟩)
  -- the connect fails
  | .connect => some { s.setCall t (some ⟨a.ch, .take⟩) with chan := none }
  | .take =>
    if s.chan = none then some ((s.setCall t (some ⟨a.ch, .send⟩)).setOwner none)
    else some (s.setCall t (some ⟨a.ch, if a.ch = none then .assign else .release⟩))
  | .release => a.ch.map fun c => (s.decref c).setCall t (some ⟨a.ch, .assign⟩)
  | .assign => some (s.setCall t (some ⟨s.chan, .incref⟩))
  | .incref =>
    a.ch.map fun c => ((s.incref c).setCall t (some ⟨a.ch, .send⟩)).setOwner none
  | .send => some (s.setCall t (some ⟨a.ch, .deadline⟩))
  | .deadline => some (s.setCall t (some ⟨a.ch, if b then .leave else .wait⟩))
  | .wait => some (s.setCall t (some ⟨a.ch, if b then .leave else .probe⟩))
  | .probe =>
    some (s.setCall t (some ⟨a.ch, if s.retrans && s.isLost a.ch then .transmit else .deadline⟩))
  | .leave => some ((a.ch.elim s s.decref).setCall t none)

/-- No call is left when the client is destroyed, and none begins later. -/
def step (s : Rpcc k) : RpccEvent k → Option (Rpcc k)
  | .start t =>
    if s.life = .inUse ∧ s.calls t = none then some (s.setCall t (some ⟨none, .transmit⟩)) else none
  | .go t b => (s.calls t).bind fun a => s.go t a b
  | .connected t fd time =>
    (s.calls t).bind fun a =>
      if a.stage = .connect then some ((s.connect fd time).setCall t (some ⟨a.ch, .take⟩))
      else none
  | .die c => if c < s.made then some (s.die c) else none
  | .setReachable b => some { s with reachable := b }
  | .destroy =>
    if s.life = .inUse ∧ ∀ t, s.calls t = none then
      match s.chan with
      | none => some { s with life := .gone }
      | some c => some { s.die c with life := .closing }
    else none
  | .finish =>
    if s.life = .closing then
      s.chan.map fun c =>
        { s.decref c with
          chan := none
          life := .gone }
    else none

/-- The connections that a call uses in its next step. -/
def uses (s : Rpcc k) (a : Call1) : List ℕ :=
  match a.stage with
  | .check | .drop => s.chan.toList
  | .release | .incref | .leave => a.ch.toList
  | .send => if s.reachable then a.ch.toList else []
  | .probe => if s.retrans then a.ch.toList else []
  | _ => []

/-- The connections that a step of the client uses. -/
def touches (s : Rpcc k) : RpccEvent k → List ℕ
  | .go t _ => (s.calls t).elim [] s.uses
  | .destroy | .finish => s.chan.toList
  | _ => []

/-- The number of calls whose `ch` points to a connection. -/
def users (s : Rpcc k) (c : ℕ) : ℕ := tally (fun t => (s.calls t).bind Call1.ch) (some c)

/-- What the thread that has `chan_m_` is doing. -/
def inside (s : Rpcc k) : Option CallStage := s.owner.bind fun t => (s.calls t).map Call1.stage

end Rpcc

end Yfs.Rpc
