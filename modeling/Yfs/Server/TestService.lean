import Yfs.Rpc.Linear

/-! The server of `rpctest`, and what its clients verify. -/
namespace Yfs.Server
open Effect Rpc

def handle22 (a b : List UInt8) : Int32 × List UInt8 := (0, a ++ b)

def handleFast (a : Int32) : Int32 × Int32 := (0, a + 1)

def handleSlow (a : Int32) : Int32 × Int32 := (0, a + 2)

/-- `'x'` is 120. -/
def handleBigrep (len : Int32) : Int32 × List UInt8 := (0, List.replicate len.toNatClampNeg 120)

/-- The methods look at their arguments only. -/
def srvProcs : List (Int32 × Proc Unit Empty fun _ => Unit) :=
  [(22, ⟨[.arg .string, .arg .string], .arg .string, fun _ a => .pure (handle22 a.1 a.2.1)⟩),
    (23, ⟨[.arg .int], .arg .int, fun _ a => .pure (handleFast a.1)⟩),
    (24, ⟨[.arg .int], .arg .int, fun _ a => .pure (handleSlow a.1)⟩),
    (25, ⟨[.arg .int], .arg .string, fun _ a => .pure (handleBigrep a.1)⟩)]

theorem srvProcs_nodup : (bindProc :: srvProcs.map Prod.fst).Nodup := by decide

/-- `startserver` -/
def srv : Service Unit Empty (fun _ => Unit) Unit where
  procs := srvProcs
  nodup := srvProcs_nodup
  exec c := c.elim
  store := ()

end Yfs.Server
