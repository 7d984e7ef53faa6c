import Yfs.Effect.Memory
import Yfs.Rpc.Connection
import Mathlib.Order.Basic
import Mathlib.Tactic.Common

/-! `marshall`: a buffer that grows under its write cursor, and what `operator<<` and the header
packers put into it. -/
namespace Yfs.Rpc
open Effect

structure ReqHeader where
  xid : Int32
  proc : Int32
  cltNonce : UInt32
  srvNonce : UInt32
  xidRep : Int32
deriving DecidableEq

structure ReplyHeader where
  xid : Int32
  ret : Int32
deriving DecidableEq

def DEFAULT_RPC_SZ : ℕ := 1024

/-- Where the packers start: behind the word the channel fills, and the checksum if there is one.
`sum` is RPC_CHECKSUMMING. -/
def headerAt (sum : Bool) : ℕ := if sum then 4 + 8 else 4

/-- `RPC_HEADER_SZ` -/
def rpcHeaderSz (sum : Bool) : ℕ := 20 + headerAt sum

/-- `heap n` is what a piece of size `n` holds before it is written, and `used` the memory that has
been written. -/
structure Marshall where
  heap : ℕ → ℕ → UInt8
  buf : ℕ → UInt8
  capa : ℕ
  ind : ℕ
  used : List Access

namespace Marshall

def init (sum : Bool) (heap : ℕ → ℕ → UInt8) : Marshall :=
  ⟨heap, heap DEFAULT_RPC_SZ, DEFAULT_RPC_SZ, rpcHeaderSz sum, []⟩

/-- Only what lies below the old capacity is kept. -/
def realloc (capa : ℕ) (m : Marshall) : Marshall :=
  { m with buf := fun i => if i < m.capa then m.buf i else m.heap capa i, capa := capa }

/-- The bytes go in at the cursor. -/
def store (p : List UInt8) (m : Marshall) : Marshall :=
  { m with
    buf := overwrite m.buf m.ind p
    ind := m.ind + p.length
    used := m.used ++ [⟨m.ind, p.length, m.capa⟩] }

def rawbyte (x : UInt8) (m : Marshall) : Marshall :=
  if m.ind ≥ m.capa then (m.realloc (m.capa * 2)).store [x] else m.store [x]

def rawbytes (p : List UInt8) (m : Marshall) : Marshall :=
  if m.ind + p.length > m.capa then
    (m.realloc (if m.capa > p.length then 2 * m.capa else m.capa + p.length)).store p
  else m.store p

def pack (x : Int32) (m : Marshall) : Marshall :=
  (((m.rawbyte ((x >>> 24) &&& 0xff).toUInt32.toUInt8).rawbyte
    ((x >>> 16) &&& 0xff).toUInt32.toUInt8).rawbyte
    ((x >>> 8) &&& 0xff).toUInt32.toUInt8).rawbyte (x &&& 0xff).toUInt32.toUInt8

/-- The packers move the cursor into the header and back. -/
def atHeader (sum : Bool) (op : Marshall → Marshall) (m : Marshall) : Marshall :=
  { op { m with ind := headerAt sum } with ind := m.ind }

def packReqHeader (sum : Bool) (h : ReqHeader) : Marshall → Marshall :=
  atHeader sum fun m => ((((m.pack h.xid).pack h.proc).pack h.cltNonce.toInt32).pack
    h.srvNonce.toInt32).pack h.xidRep

def packReplyHeader (sum : Bool) (h : ReplyHeader) : Marshall → Marshall :=
  atHeader sum fun m => (m.pack h.xid).pack h.ret

/-- `get_content` -/
def content (sum : Bool) (m : Marshall) : List UInt8 :=
  slice m.buf (rpcHeaderSz sum) (m.ind - rpcHeaderSz sum)

/-- `take_buf`: the buffer and its size. -/
def takeBuf (m : Marshall) : (ℕ → UInt8) × ℕ := (m.buf, m.ind)

/-! `operator<<` -/

def putBool (x : Bool) (m : Marshall) : Marshall := m.rawbyte x.toUInt8

def putUchar (x : UInt8) (m : Marshall) : Marshall := m.rawbyte x

def putChar (x : Int8) (m : Marshall) : Marshall := m.putUchar x.toUInt8

def putUshort (x : UInt16) (m : Marshall) : Marshall :=
  (m.rawbyte ((x >>> 8) &&& 0xff).toUInt8).rawbyte (x &&& 0xff).toUInt8

def putShort (x : Int16) (m : Marshall) : Marshall := m.putUshort x.toUInt16

def putUint (x : UInt32) (m : Marshall) : Marshall :=
  (((m.rawbyte ((x >>> 24) &&& 0xff).toUInt8).rawbyte ((x >>> 16) &&& 0xff).toUInt8).rawbyte
    ((x >>> 8) &&& 0xff).toUInt8).rawbyte (x &&& 0xff).toUInt8

def putInt (x : Int32) (m : Marshall) : Marshall := m.putUint x.toUInt32

def putUlonglong (x : UInt64) (m : Marshall) : Marshall :=
  (m.putUint (x >>> 32).toUInt32).putUint x.toUInt32

def putString (s : List UInt8) (m : Marshall) : Marshall :=
  (m.putUint (UInt32.ofNat s.length)).rawbytes s

/-- `operator<<` of `std::vector`, from that of an element. -/
def putVector {α : Type} (put : α → Marshall → Marshall) (v : List α) (m : Marshall) : Marshall :=
  v.foldl (fun m x => put x m) (m.putUint (UInt32.ofNat v.length))

/-- `operator<<` of `std::map`, from the entries in the order of the keys. -/
def putMap {κ ν : Type} (putKey : κ → Marshall → Marshall) (putVal : ν → Marshall → Marshall)
    (d : List (κ × ν)) (m : Marshall) : Marshall :=
  d.foldl (fun m e => putVal e.2 (putKey e.1 m)) (m.putUint (UInt32.ofNat d.length))

end Marshall

/-! What is written. -/

/-- The bytes were put in at the cursor and nothing else below the capacity has changed. -/
structure Writes (m : Marshall) (l : List UInt8) (m' : Marshall) : Prop where
  ind : m'.ind = m.ind + l.length
  got : slice m'.buf m.ind l.length = l
  below : ∀ i < m.ind, m'.buf i = m.buf i
  above : ∀ i, m.ind + l.length ≤ i → i < m.capa → m'.buf i = m.buf i
  capa : m.capa ≤ m'.capa
  room : m'.ind ≤ m'.capa
  limit : m'.capa ≤ max m.capa (2 * m'.ind)
  used : (∀ a ∈ m.used, a.InBounds) → ∀ a ∈ m'.used, a.InBounds

namespace Writes
variable {m m₁ m₂ : Marshall} {l l' : List UInt8}

theorem refl (h : m.ind ≤ m.capa) : Writes m [] m :=
  ⟨rfl, rfl, fun _ _ => rfl, fun _ _ _ => rfl, le_rfl, h, le_max_left _ _, id⟩

theorem trans (h₁ : Writes m l m₁) (h₂ : Writes m₁ l' m₂) : Writes m (l ++ l') m₂ where
  ind := by rw [h₂.ind, h₁.ind, List.length_append, Nat.add_assoc]
  got := by
    have hkept : slice m₂.buf m.ind l.length = slice m₁.buf m.ind l.length := by
      apply slice_congr
      intro i _ hi
      exact h₂.below i (by rw [h₁.ind]; exact hi)
    rw [List.length_append, slice_add, hkept, h₁.got, ← h₁.ind, h₂.got]
  below i hi := by
    rw [h₂.below i (by rw [h₁.ind]; omega), h₁.below i hi]
  above i hi hc := by
    rw [List.length_append] at hi
    have hcapa := h₁.capa
    rw [h₂.above i (by rw [h₁.ind]; omega) (by omega), h₁.above i (by omega) hc]
  capa := h₁.capa.trans h₂.capa
  room := h₂.room
  limit := by
    have hlim₁ := h₁.limit
    have hlim₂ := h₂.limit
    have hind := h₂.ind
    omega
  used h := h₂.used (h₁.used h)

theorem store {p : List UInt8} (hcapa : m.ind + p.length ≤ m.capa) : Writes m p (m.store p) where
  ind := rfl
  got := slice_overwrite m.buf m.ind p
  below _ hi := overwrite_of_lt hi
  above _ hi _ := overwrite_of_le hi
  capa := le_rfl
  room := hcapa
  limit := le_max_left _ _
  used h a ha := by
    obtain ha | ha := List.mem_append.mp ha
    · exact h a ha
    · rw [List.mem_singleton.mp ha]
      unfold Access.InBounds
      dsimp only
      omega

/-- A reallocation that makes room for the bytes is not noticed. -/
theorem realloc_store {p : List UInt8} {capa : ℕ} (hroom : m.ind ≤ m.capa) (hcapa : m.capa ≤ capa)
    (hp : m.ind + p.length ≤ capa) (hlim : capa ≤ 2 * (m.ind + p.length)) : Writes m p ((m.realloc capa).store p) := by
  have h : Writes (m.realloc capa) p ((m.realloc capa).store p) := store hp
  have hkept : ∀ i < m.capa, (m.realloc capa).buf i = m.buf i := fun i hi => if_pos hi
  constructor
  · exact h.ind
  · exact h.got
  · intro i hi
    rw [h.below i hi, hkept i (by omega)]
  · intro i hi hc
    rw [h.above i hi (by unfold Marshall.realloc; dsimp only; omega), hkept i hc]
  · exact hcapa.trans h.capa
  · exact h.room
  · exact hlim.trans (le_max_right _ _)
  · exact h.used

theorem rawbyte (x : UInt8) (hroom : m.ind ≤ m.capa) (hcapa : 0 < m.capa) :
    Writes m [x] (m.rawbyte x) := by
  unfold Marshall.rawbyte
  split_ifs with h
  · apply realloc_store hroom
    · omega
    · simp only [List.length_singleton]
      omega
    · simp only [List.length_singleton]
      omega
  · apply store
    simp only [List.length_singleton]
    omega

theorem rawbytes (p : List UInt8) (hroom : m.ind ≤ m.capa) : Writes m p (m.rawbytes p) := by
  unfold Marshall.rawbytes
  split_ifs with h hn
  · exact realloc_store hroom (by omega) (by omega) (by omega)
  · exact realloc_store hroom (by omega) (by omega) (by omega)
  · exact store (by omega)

end Writes

/-- The operation writes these bytes wherever the cursor is. -/
def Puts (op : Marshall → Marshall) (l : List UInt8) : Prop :=
  ∀ m, m.ind ≤ m.capa → 0 < m.capa → Writes m l (op m)

namespace Puts
variable {op op' : Marshall → Marshall} {l l' : List UInt8}

theorem comp (h : Puts op l) (h' : Puts op' l') : Puts (fun m => op' (op m)) (l ++ l') := by
  intro m hroom hcapa
  have hw := h m hroom hcapa
  exact hw.trans (h' _ hw.room (hcapa.trans_le hw.capa))

theorem cast (h : Puts op l) (hl : l = l') : Puts op l' := hl ▸ h

theorem rawbyte (x : UInt8) : Puts (Marshall.rawbyte x) [x] :=
  fun _ hroom hcapa => Writes.rawbyte x hroom hcapa

theorem rawbytes (p : List UInt8) : Puts (Marshall.rawbytes p) p :=
  fun _ hroom _ => Writes.rawbytes p hroom

/-- A loop over a list. -/
theorem foldl {α : Type} {put : α → Marshall → Marshall} {enc : α → List UInt8}
    (h : ∀ x, Puts (put x) (enc x)) (v : List α) :
    Puts (fun m => v.foldl (fun m x => put x m) m) (v.flatMap enc) := by
  induction v with
  | nil => exact fun m hroom _ => Writes.refl hroom
  | cons x v ih => exact (h x).comp ih

/-- Four bytes one after the other. -/
theorem rawbyte4 (a b c d : UInt8) :
    Puts (fun m => (((m.rawbyte a).rawbyte b).rawbyte c).rawbyte d) [a, b, c, d] :=
  (((rawbyte a).comp (rawbyte b)).comp (rawbyte c)).comp (rawbyte d)

theorem pack (x : Int32) : Puts (Marshall.pack x) (netBytes x.toUInt32) :=
  (rawbyte4 _ _ _ _).cast (shift_int x)

theorem putUint (x : UInt32) : Puts (Marshall.putUint x) (netBytes x) :=
  (rawbyte4 _ _ _ _).cast (shift_netBytes x)

theorem putUshort (x : UInt16) : Puts (Marshall.putUshort x) (shortBytes x) :=
  ((rawbyte _).comp (rawbyte _)).cast (shift_shortBytes x)

theorem putUlonglong (x : UInt64) :
    Puts (Marshall.putUlonglong x) (netBytes (x >>> 32).toUInt32 ++ netBytes x.toUInt32) :=
  (putUint _).comp (putUint _)

theorem putString (s : List UInt8) :
    Puts (Marshall.putString s) (netBytes (UInt32.ofNat s.length) ++ s) :=
  (putUint _).comp (rawbytes s)

theorem putVector {α : Type} {put : α → Marshall → Marshall} {enc : α → List UInt8}
    (h : ∀ x, Puts (put x) (enc x)) (v : List α) :
    Puts (Marshall.putVector put v) (netBytes (UInt32.ofNat v.length) ++ v.flatMap enc) :=
  (putUint _).comp (foldl h v)

theorem putMap {κ ν : Type} {putKey : κ → Marshall → Marshall} {putVal : ν → Marshall → Marshall}
    {encKey : κ → List UInt8} {encVal : ν → List UInt8} (hk : ∀ x, Puts (putKey x) (encKey x))
    (hv : ∀ x, Puts (putVal x) (encVal x)) (d : List (κ × ν)) :
    Puts (Marshall.putMap putKey putVal d)
      (netBytes (UInt32.ofNat d.length) ++ d.flatMap fun e => encKey e.1 ++ encVal e.2) := by
  have h : ∀ e : κ × ν, Puts (fun m => putVal e.2 (putKey e.1 m)) (encKey e.1 ++ encVal e.2) :=
    fun e => (hk e.1).comp (hv e.2)
  exact (putUint _).comp (foldl h d)

end Puts

/-! The header packers. -/

/-- What the packers put into the header. -/
def ReqHeader.enc (h : ReqHeader) : List UInt8 :=
  netBytes h.xid.toUInt32 ++ netBytes h.proc.toUInt32 ++ netBytes h.cltNonce ++
    netBytes h.srvNonce ++ netBytes h.xidRep.toUInt32

def ReplyHeader.enc (h : ReplyHeader) : List UInt8 :=
  netBytes h.xid.toUInt32 ++ netBytes h.ret.toUInt32

/-- A request's header or a reply's. -/
inductive Header where
  | req (h : ReqHeader)
  | reply (h : ReplyHeader)
deriving DecidableEq

inductive HeaderKind where
  | req
  | reply
deriving DecidableEq

def Header.kind : Header → HeaderKind
  | .req _ => .req
  | .reply _ => .reply

def Header.enc : Header → List UInt8
  | .req h => h.enc
  | .reply h => h.enc

def Header.pack (sum : Bool) : Header → Marshall → Marshall
  | .req h => Marshall.packReqHeader sum h
  | .reply h => Marshall.packReplyHeader sum h

theorem ReqHeader.length_enc (h : ReqHeader) : h.enc.length = 20 := rfl

theorem ReplyHeader.length_enc (h : ReplyHeader) : h.enc.length = 8 := rfl

/-- The cursor has passed the header and is within the capacity. -/
structure Marshall.Valid (sum : Bool) (m : Marshall) : Prop where
  low : rpcHeaderSz sum ≤ m.ind
  room : m.ind ≤ m.capa

namespace Marshall.Valid
variable {sum : Bool} {m m' : Marshall} {l : List UInt8}

theorem init (heap : ℕ → ℕ → UInt8) : (Marshall.init sum heap).Valid sum := by
  cases sum
  · exact ⟨le_rfl, (by decide : 24 ≤ 1024)⟩
  · exact ⟨le_rfl, (by decide : 32 ≤ 1024)⟩

theorem capa_pos (h : m.Valid sum) : 0 < m.capa := by
  have hlow := h.low
  have hroom := h.room
  unfold rpcHeaderSz at hlow
  omega

theorem writes (h : m.Valid sum) (hw : Writes m l m') : m'.Valid sum :=
  ⟨h.low.trans (by rw [hw.ind]; omega), hw.room⟩

end Marshall.Valid

/-- What packing a header does: it writes below `RPC_HEADER_SZ` and nowhere else. -/
structure Packs (sum : Bool) (l : List UInt8) (m m' : Marshall) : Prop where
  ind : m'.ind = m.ind
  got : slice m'.buf (headerAt sum) l.length = l
  above : ∀ i, rpcHeaderSz sum ≤ i → i < m.ind → m'.buf i = m.buf i
  valid : m'.Valid sum
  limit : m'.capa ≤ max m.capa (2 * m'.ind)
  used : (∀ a ∈ m.used, a.InBounds) → ∀ a ∈ m'.used, a.InBounds

theorem Packs.atHeader {sum : Bool} {op : Marshall → Marshall} {l : List UInt8} {m : Marshall}
    (hop : Puts op l) (hlen : l.length ≤ 20) (hm : m.Valid sum) :
    Packs sum l m (m.atHeader sum op) := by
  have hlow := hm.low
  have hroom := hm.room
  unfold rpcHeaderSz at hlow
  have hw := hop { m with ind := headerAt sum } (by dsimp only; omega) hm.capa_pos
  have hcapa : m.capa ≤ (op { m with ind := headerAt sum }).capa := hw.capa
  constructor
  · rfl
  · exact hw.got
  · intro i hi hlt
    unfold rpcHeaderSz at hi
    exact hw.above i (by dsimp only; omega) (by dsimp only; omega)
  · exact ⟨hm.low, hroom.trans hcapa⟩
  · have hlim := hw.limit
    have hind := hw.ind
    dsimp only at hlim hind
    change (op { m with ind := headerAt sum }).capa ≤ max m.capa (2 * m.ind)
    omega
  · exact hw.used

theorem Puts.reqHeader (h : ReqHeader) :
    Puts (fun m => ((((m.pack h.xid).pack h.proc).pack h.cltNonce.toInt32).pack
      h.srvNonce.toInt32).pack h.xidRep) h.enc := by
  have hclt := Puts.pack h.cltNonce.toInt32
  have hsrv := Puts.pack h.srvNonce.toInt32
  rw [UInt32.toUInt32_toInt32] at hclt hsrv
  exact ((((Puts.pack h.xid).comp (Puts.pack h.proc)).comp hclt).comp hsrv).comp
    (Puts.pack h.xidRep)

theorem ReqHeader.packs {sum : Bool} (h : ReqHeader) {m : Marshall} (hm : m.Valid sum) :
    Packs sum h.enc m (Marshall.packReqHeader sum h m) := by
  unfold Marshall.packReqHeader
  exact Packs.atHeader (Puts.reqHeader h) h.length_enc.le hm

theorem Header.pack_packs {sum : Bool} (h : Header) {m : Marshall} (hm : m.Valid sum) :
    Packs sum h.enc m (h.pack sum m) := by
  cases h with
  | req h =>
    unfold Header.pack Header.enc
    exact h.packs hm
  | reply h =>
    have hlen : h.enc.length ≤ 20 := by
      rw [h.length_enc]
      omega
    unfold Header.pack Header.enc Marshall.packReplyHeader
    exact Packs.atHeader ((Puts.pack h.xid).comp (Puts.pack h.ret)) hlen hm

end Yfs.Rpc
