import Yfs.Store.InodeManager

/-! The extent server: the handlers over one inode manager, and runs of requests. -/
namespace Yfs.Store
open Effect

/-- The bytes in memory from `s.c_str()` on. -/
def cstr (junk : Junk) (s : List UInt8) : ℕ → UInt8 := fun k =>
  if k < s.length then s.getD k 0 else if k = s.length then 0 else junk.past (k - s.length - 1)

/-- The inum an extent id stands for. -/
def inumOf (id : UInt64) : ℕ := (id &&& 0x7fffffff).toNat

inductive Request where
  | create (type : UInt32)
  | put (id : UInt64) (buf : List UInt8)
  | get (id : UInt64)
  | getattr (id : UInt64)
  | remove (id : UInt64)

inductive Answer where
  | created (id : UInt32)
  | ok
  | data (buf : List UInt8)
  | attr (a : Attr)
  | fault

namespace ExtentServer

variable (junk : Junk)

def create (type : UInt32) : Prog Answer := do
  let id ← allocInode junk type
  return .created id

def put (id : UInt64) (buf : List UInt8) : Prog Answer := do
  writeFile junk (inumOf id) (cstr junk buf) (Int32.ofNat buf.length)
  return .ok

def get (id : UInt64) : Prog Answer := do
  match ← readFile junk (inumOf id) with
  | none => return .fault
  | some x =>
    if x.size = 0 then return .data []
    else return .data ((List.range x.size.toNatClampNeg).map x.buf)

def getattr (id : UInt64) : Prog Answer := do
  let a ← Store.getattr junk (inumOf id) ⟨0, 0, 0, 0, 0⟩
  return .attr a

def remove (id : UInt64) : Prog Answer := do
  removeFile junk (inumOf id)
  return .ok

end ExtentServer

/-- The handler of a request. -/
def Request.handler (junk : Junk) : Request → Prog Answer
  | .create type => ExtentServer.create junk type
  | .put id buf => ExtentServer.put junk id buf
  | .get id => ExtentServer.get junk id
  | .getattr id => ExtentServer.getattr junk id
  | .remove id => ExtentServer.remove junk id

/-- The state that the constructor of `block_manager` leaves. -/
def BlockManager.init : BlockManager where
  d := fun _ => Block.zero
  blockBitmap := BlockManager.reservedBitmap ipb

/-- `T_DIR` and `T_FILE`. -/
def tDir : UInt32 := 1
def tFile : UInt32 := 2

/-- The state that the constructor of `inode_manager` leaves, once it has allocated the
root directory. -/
def freshServer (junk : Junk) : BlockManager :=
  ((allocInode junk tDir).run exec BlockManager.init).2

/-- One request, with the memory it happens to find. -/
structure Call where
  request : Request
  junk : Junk

def Call.handler (c : Call) : Prog Answer := c.request.handler c.junk

/-- One request served alone. -/
def serve (c : Call) (s : BlockManager) : Answer × BlockManager := c.handler.run exec s

/-- The state after a run of requests, one after the other. -/
def serveAll (calls : List Call) (s : BlockManager) : BlockManager :=
  calls.foldl (fun s c => (serve c s).2) s

theorem serveAll_nil (s : BlockManager) : serveAll [] s = s := rfl

theorem serveAll_cons (c : Call) (calls : List Call) (s : BlockManager) :
    serveAll (c :: calls) s = serveAll calls (serve c s).2 := rfl

theorem serveAll_append (calls calls' : List Call) (s : BlockManager) :
    serveAll (calls ++ calls') s = serveAll calls' (serveAll calls s) := List.foldl_append

end Yfs.Store
