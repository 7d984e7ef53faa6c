import Yfs.Store.Inode

/-! Files: the operations of `inode_manager` on the blocks of an inode. -/
namespace Yfs.Store
open Effect

/-- `BLOCK_COUNT` of an `unsigned int`. -/
def blockCount (size : UInt32) : UInt32 := (size + 512 - 1) / 512

/-- `BLOCK_COUNT` of an `int`, stored in a `uint32_t`. -/
def blockCountInt (size : Int32) : UInt32 := ((size + 512 - 1) / 512).toUInt32

/-- `memcpy(dst + off, src, n)`. -/
def memcpy (dst : ℕ → UInt8) (off : ℕ) (src : Block) (n : ℕ) : ℕ → UInt8 :=
  fun k => if off ≤ k ∧ k < off + n then src.byte (k - off) else dst k

/-- What `read_file` gives back to its caller. -/
structure FileData where
  buf : ℕ → UInt8
  size : Int32

/-- The local variables of `read_file` that its loops change. -/
structure ReadState where
  readSize : ℕ
  out : ℕ → UInt8
  buf : Block

section Functions

variable (junk : Junk)

/-- Read block `id` and append it to the output, up to `size` bytes in all. -/
def copyBlock (size : ℕ) (id : BlockId) (x : ReadState) : Prog ReadState := do
  let buf ← readBlock id x.buf
  return ⟨x.readSize + blockSize,
    memcpy x.out x.readSize buf (min blockSize (size - x.readSize)), buf⟩

def readDirect (ino : Inode) (i : ℕ) (x : ReadState) : Prog (ForInStep ReadState) := do
  if ino.size.toNat ≤ x.readSize then return .done x
  else
    let x ← copyBlock ino.size.toNat (ino.slot i) x
    return .yield x

def readIndirect (ino : Inode) (ind : Block) (i : ℕ) (x : ReadState) :
    Prog (ForInStep ReadState) := do
  let x ← copyBlock ino.size.toNat (ind.entry i) x
  if x.readSize < ino.size.toNat then return .yield x
  else return .done x

/-- `none` when the loop over the indirect block goes on past its last word. -/
def readFile (inum : ℕ) : Prog (Option FileData) := do
  match ← getInode junk inum with
  | none => return some ⟨junk.past, 0⟩
  | some ino =>
    let x ← Program.loop (readDirect ino) nDirect 0 ⟨0, junk.past, junk.stack⟩
    let x ←
      if x.readSize < ino.size.toNat then do
        let ind ← readBlock (ino.slot nDirect) junk.stack
        Program.loop (readIndirect ino ind) nIndirect 0 x
      else pure x
    -- a further round would read the word after the last one of the indirect block
    if x.readSize < ino.size.toNat then return none
    else
      return some ⟨Function.update x.out ino.size.toNat 0, ino.size.toInt32⟩

/-- The `blockSize` bytes that are written to block `i` of a file. -/
def piece (buf : ℕ → UInt8) (i : ℕ) : Block := Block.ofBytes fun k => buf (i * blockSize + k)

def writeDirect (buf : ℕ → UInt8) (orig cur i : ℕ) (ino : Inode) :
    Prog (ForInStep Inode) := do
  if i < cur ∧ i < orig then
    writeBlock (ino.slot i) (piece buf i)
    return .yield ino
  else if i < cur then
    let b ← allocBlock
    let ino := ino.setSlot i b
    writeBlock (ino.slot i) (piece buf i)
    return .yield ino
  else return .done ino

def writeIndirect (buf : ℕ → UInt8) (orig cur : ℕ) (ino : Inode) (i : ℕ) (ind : Block) :
    Prog (ForInStep Block) := do
  if i < cur ∧ i < orig then
    writeBlock (ind.entry (i - nDirect)) (piece buf i)
    return .yield ind
  else if i < cur then
    let b ← allocBlock
    let ind := ind.setEntry (i - nDirect) b
    writeBlock (ind.entry (i - nDirect)) (piece buf i)
    return .yield ind
  else
    writeBlock (ino.slot nDirect) ind
    return .done ind

/-- The indirect block a write starts from: the one on disk, or a new one. -/
def openIndirect (orig : ℕ) (ino : Inode) : Prog (Inode × Block) := do
  if nDirect < orig then
    let ind ← readBlock (ino.slot nDirect) junk.stack
    return (ino, ind)
  else
    let b ← allocBlock
    return (ino.setSlot nDirect b, Block.zero)

def writeFile (inum : ℕ) (buf : ℕ → UInt8) (size : Int32) : Prog Unit := do
  match ← getInode junk inum with
  | none => return ()
  | some ino =>
    let orig := (blockCount ino.size).toNat
    let cur := (blockCountInt size).toNat
    let ino ← Program.loop (writeDirect buf orig cur) nDirect 0 ino
    let ino ←
      if nDirect < cur then do
        let (ino, ind) ← openIndirect junk orig ino
        let _ ← Program.loop (writeIndirect buf orig cur ino) nIndirect nDirect ind
        pure ino
      else pure ino
    putInode junk inum { ino with size := size.toUInt32 }

/-- A loop that frees the blocks `block i` for `i` below `count`. -/
def freeUpTo (count : ℕ) (block : ℕ → BlockId) (i : ℕ) (_ : Unit) :
    Prog (ForInStep Unit) := do
  if i < count then
    freeBlock (block i)
    return .yield ()
  else return .done ()

def removeFile (inum : ℕ) : Prog Unit := do
  match ← getInode junk inum with
  | none => return ()
  | some ino =>
    let n := (blockCount ino.size).toNat
    Program.loop (freeUpTo n ino.slot) nDirect 0 ()
    if nDirect < n then do
      let ind ← readBlock (ino.slot nDirect) junk.stack
      Program.loop (freeUpTo (n - nDirect) ind.entry) nIndirect 0 ()
      freeBlock (ino.slot nDirect)
    freeInode junk inum

/-- `extent_protocol::attr`. -/
structure Attr where
  type : UInt32
  atime : UInt32
  mtime : UInt32
  ctime : UInt32
  size : UInt32
  deriving DecidableEq

/-- `getattr` on a structure that holds `a`. -/
def getattr (inum : ℕ) (a : Attr) : Prog Attr := do
  match ← getInode junk inum with
  | none => return a
  | some ino =>
    return {
      type := ino.type.toInt32.toUInt32
      atime := ino.atime
      ctime := ino.ctime
      mtime := ino.mtime
      size := ino.size }

end Functions

end Yfs.Store
