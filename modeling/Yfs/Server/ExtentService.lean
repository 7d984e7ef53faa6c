import Yfs.Server.Calls
import Yfs.Store.Handlers

/-! The extent server as `extent_smain` runs it: its handlers under their numbers, for any number of
clients. -/
namespace Yfs.Server
open Effect Rpc Store

/-- Memory that nobody has written: what the inode manager finds, the `int` that `put` and `remove`
do not set, and the string of a `get` that reads on behind its indirect block. -/
structure Memory where
  junk : Junk
  r : Int32
  past : List UInt8

def getProc : Proc Memory Cmd Store.Reply where
  args := [.arg .ulonglong]
  res := .arg .string
  meth mem a := ExtentServer.get mem.junk a.1 >>= fun
    | .data buf => .pure (0, buf)
    | _ => .pure (0, mem.past)

def getattrProc : Proc Memory Cmd Store.Reply where
  args := [.arg .ulonglong]
  res := .attr
  meth mem a := ExtentServer.getattr mem.junk a.1 >>= fun
    | .attr x => .pure (0, x)
    | _ => .pure (0, ⟨0, 0, 0, 0, 0⟩)

def putProc : Proc Memory Cmd Store.Reply where
  args := [.arg .ulonglong, .arg .string]
  res := .arg .int
  meth mem a := ExtentServer.put mem.junk a.1 a.2.1 >>= fun _ => .pure (0, mem.r)

def removeProc : Proc Memory Cmd Store.Reply where
  args := [.arg .ulonglong]
  res := .arg .int
  meth mem a := ExtentServer.remove mem.junk a.1 >>= fun _ => .pure (0, mem.r)

/-- `extent_protocol::rpc_numbers`, in the order of the calls of `reg`. -/
def extentProcs : List (Int32 × Proc Memory Cmd Store.Reply) :=
  [(0x6002, getProc), (0x6003, getattrProc), (0x6001, putProc), (0x6004, removeProc)]

theorem extentProcs_nodup : (bindProc :: extentProcs.map Prod.fst).Nodup := by decide

/-- What `main` in `extent_smain` registers. -/
def extentOn (im : BlockManager) : Service Memory Cmd Store.Reply BlockManager where
  procs := extentProcs
  nodup := extentProcs_nodup
  exec := Store.exec
  store := im

variable {im : BlockManager}

/-- What a call asks of the extent server. -/
def request (o : Rpc.Op (extentOn im)) : Request :=
  match o with
  | ⟨⟨0, _⟩, a⟩ => .get a.1
  | ⟨⟨1, _⟩, a⟩ => .getattr a.1
  | ⟨⟨2, _⟩, a⟩ => .put a.1 a.2.1
  | ⟨⟨3, _⟩, a⟩ => .remove a.1

/-- The inum that a call is about. -/
def inum (o : Rpc.Op (extentOn im)) : ℕ := (request o).inum.getD 0

/-- An answer as it goes over the wire; the `int` of `put` and `remove` may be anything. -/
def encAnswer (r : Int32) : Answer → List UInt8
  | .data buf => Codec.string.enc buf
  | .attr a => Codec.attr.enc a
  | _ => Codec.int.enc r

/-- What a call does to the file of its inum. -/
def Outcome (o : Rpc.Op (extentOn im)) (f : Option File) (b : Int32 × List UInt8) (f' : Option File) :
    Prop :=
  (∃ r, b = (0, encAnswer r ((request o).outcome f).1)) ∧ f' = ((request o).outcome f).2

end Yfs.Server
