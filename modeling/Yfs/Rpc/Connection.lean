import Yfs.Rpc.NetOrder
import Mathlib.Data.Int.Notation
import Mathlib.Algebra.Group.Int.Defs
import Mathlib.Data.List.Basic

/-! The buffers of a connection, and how `writepdu` and `readpdu` move bytes through them. -/
namespace Yfs.Rpc

/-- 10M -/
def maxPdu : ℤ := 10485760

/-- `ntohl` read as an int. -/
def netInt (l : List UInt8) : ℤ := (netWord l).toInt32.toInt

/-- `wpdu_`: the caller's buffer, its size, and how much of it has been written. -/
structure Wpdu where
  buf : Option (List UInt8)
  sz : ℤ
  solong : ℤ

def Wpdu.blank : Wpdu := ⟨none, 0, 0⟩

/-- What write returns: a count, EAGAIN, another error. -/
inductive IoWrite where
  | wrote (n : ℕ)
  | again
  | failed
deriving DecidableEq

/-- Puts the size of the buffer into its first four bytes. -/
def stamp (sz : ℤ) (b : List UInt8) : List UInt8 :=
  netBytes (Int32.ofInt sz).toUInt32 ++ b.drop 4

/-- The caller's buffer when write is called: its length word is put in before the first byte. -/
def Wpdu.stamped (w : Wpdu) : Option (List UInt8) :=
  if w.solong = 0 then w.buf.map (stamp w.sz) else w.buf

/-- What `writepdu` returns, the buffer after it, and the bytes that went out. -/
structure Written where
  ok : Bool
  wpdu : Wpdu
  out : List UInt8

/-- There is no result when the VERIFY fails, or when write takes more than it was given. -/
def writepdu (w : Wpdu) (io : IoWrite) : Option Written :=
  if w.solong < 0 then none
  else if w.solong = w.sz then some ⟨true, w, []⟩
  else
    match io with
    | .wrote n =>
      if w.solong + n ≤ w.sz then
        some ⟨true, { w with buf := w.stamped, solong := w.solong + n },
          ((w.stamped.getD []).drop w.solong.toNat).take n⟩
      else none
    | .again => some ⟨true, { w with buf := w.stamped }, []⟩
    | .failed => some ⟨false, ⟨w.stamped, 0, -1⟩, []⟩

/-- A piece of memory: its size, and the bytes that have been put into it. -/
structure Chunk where
  cap : ℕ
  bytes : List UInt8

/-- `rpdu_` -/
structure Rpdu where
  buf : Option Chunk
  sz : ℤ
  solong : ℤ

def Rpdu.blank : Rpdu := ⟨none, 0, 0⟩

/-- What read returns: bytes, nothing, an error. In the last two cases errno may be EAGAIN, which
read leaves alone when it returns nothing. -/
inductive IoRead where
  | data (bs : List UInt8)
  | eof (again : Bool)
  | failed (again : Bool)

/-- Memory the reader hands to bcopy or read: `count` bytes from `offset` on in a piece of size
`cap`. -/
structure Access where
  offset : ℤ
  count : ℤ
  cap : ℕ

def Access.InBounds (a : Access) : Prop := 0 ≤ a.offset ∧ 0 ≤ a.count ∧ a.offset + a.count ≤ a.cap

instance (a : Access) : Decidable a.InBounds := inferInstanceAs (Decidable (_ ∧ _))

/-- `sz + sizeof(sz)` as a `size_t`. -/
def mallocSize (sz : ℤ) : ℕ := ((sz + 4) % 2 ^ 64).toNat

/-- How a part of `readpdu` ends: it goes on, returns false, or aborts. -/
inductive Step (α : Type) where
  | next (a : α)
  | fail
  | abort

/-- The part of `readpdu` that reads the length word. -/
def readLength (r : Rpdu) : IoRead → Step (Rpdu × List Access)
  | .eof _ => .fail
  | .failed again => if again then .abort else .fail
  | .data bs =>
    if bs.length ≠ 4 then .fail
    else if netInt bs > maxPdu then .fail
    else if r.buf.isSome then .abort
    -- malloc has no room for the size of a negative sum
    else if mallocSize (netInt bs) ≥ 2 ^ 63 then .abort
    else .next (⟨some ⟨mallocSize (netInt bs), bs⟩, netInt bs, 4⟩,
      [⟨0, 4, mallocSize (netInt bs)⟩])

/-- What `readpdu` returns, the buffer after it, the memory it used and the bytes it took. -/
structure Taken where
  ok : Bool
  rpdu : Rpdu
  used : List Access
  took : List UInt8

def Rpdu.cap (r : Rpdu) : ℕ := r.buf.elim 0 Chunk.cap

/-- The part of `readpdu` that reads on into the buffer. -/
def readBody (r : Rpdu) (io : IoRead) : Taken :=
  let used : List Access := [⟨r.solong, r.sz - r.solong, r.cap⟩]
  match io with
  | .data bs =>
    ⟨true, ⟨r.buf.map fun c => { c with bytes := c.bytes ++ bs }, r.sz, r.solong + bs.length⟩,
      used, bs⟩
  | .eof again | .failed again => if again then ⟨true, r, used, []⟩ else ⟨false, .blank, used, []⟩

/-- The bytes a read has got. -/
def IoRead.got : IoRead → List UInt8
  | .data bs => bs
  | _ => []

/-- read returns at least one byte and no more than it was asked for. -/
def IoRead.Fits (io : IoRead) (count : ℤ) : Prop :=
  match io with
  | .data bs => bs ≠ [] ∧ bs.length ≤ count
  | _ => True

instance (io : IoRead) (count : ℤ) : Decidable (io.Fits count) := by
  unfold IoRead.Fits
  split <;> infer_instance

/-- There is no result when a VERIFY fails, or when read returns what it cannot return. -/
def readpdu (r : Rpdu) (first second : IoRead) : Option Taken :=
  if r.sz = 0 then
    if first.Fits 4 then
      match readLength r first with
      | .abort => none
      | .fail => some ⟨false, r, [], first.got⟩
      | .next (r', used) =>
        if second.Fits (r'.sz - r'.solong) then
          let t := readBody r' second
          some { t with used := used ++ t.used, took := first.got ++ t.took }
        else none
    else none
  else if second.Fits (r.sz - r.solong) then some (readBody r second)
  else none

end Yfs.Rpc
