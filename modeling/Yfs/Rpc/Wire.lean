import Yfs.Rpc.Unmarshall
import Yfs.Rpc.Word
import Yfs.Store.InodeManager
import Mathlib.Data.Bool.Basic

/-! The types that go over the wire, each with its two operators. -/
namespace Yfs.Rpc
open Effect Yfs.Store

/-- A type that can be marshalled: the order of `operator<`, a fresh variable, `operator<<`,
`operator>>` into a variable that holds something, and what goes over the wire. -/
structure Codec where
  Val : Type
  order : LinearOrder Val
  fresh : Val
  put : Val → Marshall → Marshall
  get : Val → Get Val
  enc : Val → List UInt8
  puts : ∀ v, Puts (put v) (enc v)
  yields : ∀ v, Yields (get fresh) (enc v) v
  pos : ∀ v, 1 ≤ (enc v).length

namespace Codec

def bool : Codec where
  Val := Bool
  order := inferInstance
  fresh := false
  put := Marshall.putBool
  get := fun _ => Unmarshall.getBool
  enc := fun x => [x.toUInt8]
  puts := fun x => Puts.rawbyte x.toUInt8
  yields := Yields.getBool
  pos := fun _ => le_rfl

def uchar : Codec where
  Val := UInt8
  order := LinearOrder.lift' UInt8.toNat fun _ _ => UInt8.toNat_inj.mp
  fresh := 0
  put := Marshall.putUchar
  get := fun _ => Unmarshall.getUchar
  enc := fun x => [x]
  puts := Puts.rawbyte
  yields := Yields.getUchar
  pos := fun _ => le_rfl

def char : Codec where
  Val := Int8
  order := LinearOrder.lift' Int8.toInt fun _ _ => Int8.toInt_inj.mp
  fresh := 0
  put := Marshall.putChar
  get := fun _ => Unmarshall.getChar
  enc := fun x => [x.toUInt8]
  puts := fun x => Puts.rawbyte x.toUInt8
  yields := Yields.getChar
  pos := fun _ => le_rfl

def ushort : Codec where
  Val := UInt16
  order := LinearOrder.lift' UInt16.toNat fun _ _ => UInt16.toNat_inj.mp
  fresh := 0
  put := Marshall.putUshort
  get := fun _ => Unmarshall.getUshort
  enc := shortBytes
  puts := Puts.putUshort
  yields := Yields.getUshort
  pos := fun _ => Nat.le_succ 1

def short : Codec where
  Val := Int16
  order := LinearOrder.lift' Int16.toInt fun _ _ => Int16.toInt_inj.mp
  fresh := 0
  put := Marshall.putShort
  get := fun _ => Unmarshall.getShort
  enc := fun x => shortBytes x.toUInt16
  puts := fun x => Puts.putUshort x.toUInt16
  yields := Yields.getShort
  pos := fun _ => Nat.le_succ 1

def uint : Codec where
  Val := UInt32
  order := inferInstance
  fresh := 0
  put := Marshall.putUint
  get := fun _ => Unmarshall.getUint
  enc := netBytes
  puts := Puts.putUint
  yields := Yields.word_netBytes
  pos := fun x => (length_netBytes x).symm ▸ (by decide : 1 ≤ 4)

def int : Codec where
  Val := Int32
  order := LinearOrder.lift' Int32.toInt fun _ _ => Int32.toInt_inj.mp
  fresh := 0
  put := Marshall.putInt
  get := fun _ => Unmarshall.getInt
  enc := fun x => netBytes x.toUInt32
  puts := fun x => Puts.putUint x.toUInt32
  yields := Yields.getInt
  pos := fun x => uint.pos x.toUInt32

def ulonglong : Codec where
  Val := UInt64
  order := LinearOrder.lift' UInt64.toNat fun _ _ => UInt64.toNat_inj.mp
  fresh := 0
  put := Marshall.putUlonglong
  get := fun _ => Unmarshall.getUlonglong
  enc := fun x => netBytes (x >>> 32).toUInt32 ++ netBytes x.toUInt32
  puts := Puts.putUlonglong
  yields := Yields.getUlonglong
  pos := fun x => by
    rw [List.length_append, length_netBytes]
    omega

/-- The chars of a string are compared as unsigned ones. -/
def string : Codec where
  Val := List UInt8
  order := @List.instLinearOrder UInt8 uchar.order
  fresh := []
  put := Marshall.putString
  get := Unmarshall.getString
  enc := fun s => netBytes (UInt32.ofNat s.length) ++ s
  puts := Puts.putString
  yields := Yields.getString []
  pos := fun s => by
    rw [List.length_append, length_netBytes]
    omega

/-- `operator<<` of `extent_protocol::attr`, field by field. -/
def putAttr (a : Attr) (m : Marshall) : Marshall :=
  ((((m.putUint a.type).putUint a.atime).putUint a.mtime).putUint a.ctime).putUint a.size

def getAttr : Get Attr := do
  let type ← Unmarshall.getUint
  let atime ← Unmarshall.getUint
  let mtime ← Unmarshall.getUint
  let ctime ← Unmarshall.getUint
  let size ← Unmarshall.getUint
  return ⟨type, atime, mtime, ctime, size⟩

/-- There is no `operator<` for it, so it is never the key of a map. -/
def attr : Codec where
  Val := Attr
  order := LinearOrder.lift' (fun a => [a.type, a.atime, a.mtime, a.ctime, a.size]) fun a b h => by
    cases a
    cases b
    simpa using h
  fresh := ⟨0, 0, 0, 0, 0⟩
  put := putAttr
  get := fun _ => getAttr
  enc := fun a => netBytes a.type ++ (netBytes a.atime ++ (netBytes a.mtime ++ (netBytes a.ctime ++
    netBytes a.size)))
  puts := fun a => (((((Puts.putUint a.type).comp (Puts.putUint a.atime)).comp
    (Puts.putUint a.mtime)).comp (Puts.putUint a.ctime)).comp (Puts.putUint a.size)).cast (by
      simp only [List.append_assoc])
  yields := fun a => (Yields.word_netBytes a.type).bind ((Yields.word_netBytes a.atime).bind
    ((Yields.word_netBytes a.mtime).bind ((Yields.word_netBytes a.ctime).bind
      ((Yields.word_netBytes a.size).map rfl))))
  pos := fun a => by
    rw [List.length_append, length_netBytes]
    omega

def vector (c : Codec) : Codec where
  Val := List c.Val
  order := @List.instLinearOrder c.Val c.order
  fresh := []
  put := Marshall.putVector c.put
  get := Unmarshall.getVector c.fresh c.get
  enc := fun v => netBytes (UInt32.ofNat v.length) ++ v.flatMap c.enc
  puts := Puts.putVector c.puts
  yields := Yields.getVector c.yields c.pos []
  pos := fun v => by
    rw [List.length_append, length_netBytes]
    omega

def map (k v : Codec) : Codec :=
  letI := k.order
  letI := v.order
  { Val := SortedMap k.Val v.Val
    order := inferInstance
    fresh := .empty
    put := fun d => Marshall.putMap k.put v.put d.entries
    get := Unmarshall.getMap k.fresh k.get v.fresh v.get
    enc := fun d => netBytes (UInt32.ofNat d.entries.length) ++
      d.entries.flatMap fun e => k.enc e.1 ++ v.enc e.2
    puts := fun d => Puts.putMap k.puts v.puts d.entries
    yields := Yields.getMap k.yields v.yields k.pos .empty
    pos := fun d => by
      rw [List.length_append, length_netBytes]
      omega }

end Codec

/-- The types of arguments: integers and strings. -/
inductive Arg where
  | uchar
  | char
  | ushort
  | short
  | uint
  | int
  | ulonglong
  | string
deriving DecidableEq

def Arg.codec : Arg → Codec
  | .uchar => .uchar
  | .char => .char
  | .ushort => .ushort
  | .short => .short
  | .uint => .uint
  | .int => .int
  | .ulonglong => .ulonglong
  | .string => .string

/-- All types. -/
inductive Ty where
  | arg (a : Arg)
  | bool
  | attr
  | vector (t : Ty)
  | map (k v : Ty)

def Ty.codec : Ty → Codec
  | .arg a => a.codec
  | .bool => .bool
  | .attr => .attr
  | .vector t => .vector t.codec
  | .map k v => .map k.codec v.codec

/-- A value of any of the types. -/
abbrev Value := (t : Ty) × t.codec.Val

def Value.enc (v : Value) : List UInt8 := v.1.codec.enc v.2

/-- `m << v₁ << v₂ << …` -/
def putAll (vs : List Value) (m : Marshall) : Marshall :=
  vs.foldl (fun m v => v.1.codec.put v.2 m) m

/-- `u >> v₁ >> v₂ >> …` into fresh variables of these types. -/
def getAll : List Ty → Get (List Value)
  | [] => return []
  | t :: ts => do
    let v ← t.codec.get t.codec.fresh
    let vs ← getAll ts
    return ⟨t, v⟩ :: vs

theorem putAll_puts (vs : List Value) : Puts (putAll vs) (vs.flatMap Value.enc) :=
  Puts.foldl (fun v : Value => v.1.codec.puts v.2) vs

theorem getAll_yields (vs : List Value) :
    Yields (getAll (vs.map Sigma.fst)) (vs.flatMap Value.enc) vs := by
  induction vs with
  | nil => exact Yields.pure []
  | cons v vs ih => exact (v.1.codec.yields v.2).bind (ih.map rfl)

end Yfs.Rpc
