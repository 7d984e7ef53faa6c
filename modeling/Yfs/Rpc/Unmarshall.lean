import Yfs.Effect.SortedMap
import Yfs.Rpc.Marshall

/-! `unmarshall`: a read cursor over a buffer that came from the network. -/
namespace Yfs.Rpc
open Effect

/-- The memory from `_buf` on, of which the first `sz` bytes are the buffer. `used` is the memory
that has been read. -/
structure Unmarshall where
  buf : ℕ → UInt8
  sz : ℕ
  ind : ℕ
  ok : Bool
  used : List Access

abbrev Get (α : Type) := StateM Unmarshall α

namespace Unmarshall

def init (b : ℕ → UInt8) (sz : ℕ) : Unmarshall := ⟨b, sz, 0, true, []⟩

def okdone (u : Unmarshall) : Bool := u.ok && u.ind == u.sz

/-- The bytes that have not been read. -/
def rest (u : Unmarshall) : List UInt8 := slice u.buf u.ind (u.sz - u.ind)

/-- The char is returned as an unsigned int. -/
def rawbyte : Get UInt32 := fun u =>
  if u.ind ≥ u.sz then (0, { u with ok := false })
  else ((u.buf u.ind).toInt8.toInt32.toUInt32,
    { u with ind := u.ind + 1, used := u.used ++ [⟨u.ind, 1, u.sz⟩] })

/-- The sum in the test is an unsigned int. -/
def rawbytes (s : List UInt8) (n : UInt32) : Get (List UInt8) := fun u =>
  if (u.ind + n.toNat) % 2 ^ 32 > u.sz then (s, { u with ok := false })
  else (slice u.buf u.ind n.toNat,
    { u with ind := (u.ind + n.toNat) % 2 ^ 32, used := u.used ++ [⟨u.ind, n.toNat, u.sz⟩] })

/-- The body that `unpack` and the extractors of int and unsigned int share. -/
def word : Get UInt32 := do
  let a ← rawbyte
  let b ← rawbyte
  let c ← rawbyte
  let d ← rawbyte
  return (a &&& 0xff) <<< 24 ||| (b &&& 0xff) <<< 16 ||| (c &&& 0xff) <<< 8 ||| d &&& 0xff

def unpack : Get Int32 := return (← word).toInt32

/-- Moves the cursor. -/
def seek (n : ℕ) : Get Unit := fun u => ((), { u with ind := n })

/-- The header unpackers move the cursor into the header and then behind it. -/
def inHeader {α : Type} (sum : Bool) (g : Get α) : Get α := do
  seek (headerAt sum)
  let h ← g
  seek (rpcHeaderSz sum)
  return h

def unpackReqHeader (sum : Bool) : Get ReqHeader := inHeader sum do
  let xid ← unpack
  let proc ← unpack
  let cltNonce ← unpack
  let srvNonce ← unpack
  let xidRep ← unpack
  return ⟨xid, proc, cltNonce.toUInt32, srvNonce.toUInt32, xidRep⟩

def unpackReplyHeader (sum : Bool) : Get ReplyHeader := inHeader sum do
  let xid ← unpack
  let ret ← unpack
  return ⟨xid, ret⟩

def unpackHeader (sum : Bool) : HeaderKind → Get Header
  | .req => return .req (← unpackReqHeader sum)
  | .reply => return .reply (← unpackReplyHeader sum)

/-! `operator>>`. All but that of a string overwrite their destination. -/

def getBool : Get Bool := return (← rawbyte) != 0

def getUchar : Get UInt8 := return (← rawbyte).toUInt8

def getChar : Get Int8 := return (← rawbyte).toUInt8.toInt8

/-- The body that the extractors of short and unsigned short share. -/
def getUshort : Get UInt16 := do
  let a ← rawbyte
  let b ← rawbyte
  return ((a &&& 0xff) <<< 8).toUInt16 ||| (b &&& 0xff).toUInt16

def getShort : Get Int16 := return (← getUshort).toInt16

def getUint : Get UInt32 := word

def getInt : Get Int32 := return (← word).toInt32

def getUlonglong : Get UInt64 := do
  let h ← getUint
  let l ← getUint
  return l.toUInt64 ||| h.toUInt64 <<< 32

def getString (s : List UInt8) : Get (List UInt8) := do
  let n ← getUint
  if (← get).ok then rawbytes s n else return s

/-- The loop of the containers. -/
def loop {σ : Type} (body : σ → Get σ) : ℕ → σ → Get σ
  | 0, s => return s
  | n + 1, s => do loop body n (← body s)

/-- `operator>>` of `std::vector`, from that of an element, which is put behind what is there. -/
def getVector {α : Type} (fresh : α) (get : α → Get α) (v : List α) : Get (List α) := do
  let n ← getUint
  loop (fun v => return v ++ [← get fresh]) n.toNat v

/-- `operator>>` of `std::map`, which is cleared first. -/
def getMap {κ ν : Type} [LinearOrder κ] (freshKey : κ) (getKey : κ → Get κ) (freshVal : ν)
    (getVal : ν → Get ν) (_d : SortedMap κ ν) : Get (SortedMap κ ν) := do
  let n ← getUint
  loop (fun d => do
    let a ← getKey freshKey
    let b ← getVal freshVal
    return d.assign a b) n.toNat .empty

end Unmarshall

/-! Reading what has been written. -/

/-- The cursor has gone `n` bytes on and nothing was wrong. -/
structure Consumes (u : Unmarshall) (n : ℕ) (u' : Unmarshall) : Prop where
  buf : u'.buf = u.buf
  sz : u'.sz = u.sz
  ind : u'.ind = u.ind + n
  ok : u'.ok = true
  le : u'.ind ≤ u'.sz

/-- Where these bytes come next, the operation takes them and gives this value. -/
def Yields {α : Type} (g : Get α) (l : List UInt8) (v : α) : Prop :=
  ∀ u t, u.ind ≤ u.sz → u.sz < 2 ^ 31 → u.ok = true → u.rest = l ++ t →
    ∃ u', g u = (v, u') ∧ Consumes u l.length u'

theorem Consumes.rest {u u' : Unmarshall} {l t : List UInt8} (h : Consumes u l.length u')
    (hrest : u.rest = l ++ t) : u'.rest = t := by
  have hlen := congrArg List.length hrest
  unfold Unmarshall.rest at hrest hlen ⊢
  rw [length_slice, List.length_append] at hlen
  have hsplit : u.sz - u.ind = l.length + (u.sz - (u.ind + l.length)) := by omega
  rw [hsplit, slice_add] at hrest
  rw [h.buf, h.sz, h.ind]
  exact (List.append_inj hrest length_slice).2

section Run
variable {α β : Type} {g : Get α} {v : α} {u u' : Unmarshall}

theorem run_bind (h : g u = (v, u')) (f : α → Get β) : (g >>= f) u = f v u' := by
  change f (g u).1 (g u).2 = f v u'
  rw [h]

theorem run_map (h : g u = (v, u')) (k : α → β) :
    (do return k (← g) : Get β) u = (k v, u') := by
  rw [run_bind h]
  rfl

end Run

namespace Yields
variable {α β : Type} {g : Get α} {f : α → Get β} {l l' : List UInt8} {v : α} {w : β}

theorem pure (v : α) : Yields (Pure.pure v) [] v :=
  fun u _ hle _ hok _ => ⟨u, rfl, rfl, rfl, rfl, hok, hle⟩

theorem bind (h : Yields g l v) (h' : Yields (f v) l' w) : Yields (g >>= f) (l ++ l') w := by
  intro u t hle hsz hok hrest
  rw [List.append_assoc] at hrest
  obtain ⟨u₁, hg, hc⟩ := h u (l' ++ t) hle hsz hok hrest
  obtain ⟨u₂, hf, hc'⟩ := h' u₁ t hc.le (hc.sz ▸ hsz) hc.ok (hc.rest hrest)
  refine ⟨u₂, ?_, hc'.buf.trans hc.buf, hc'.sz.trans hc.sz, ?_, hc'.ok, hc'.le⟩
  · rw [run_bind hg]
    exact hf
  · rw [hc'.ind, hc.ind, List.length_append, Nat.add_assoc]

theorem map (h : Yields g l v) {k : α → β} (hk : k v = w) :
    Yields (do return k (← g)) l w := by
  have h' := h.bind (f := fun x => Pure.pure (k x)) (pure (k v))
  rw [List.append_nil, hk] at h'
  exact h'

theorem rawbyte (c : UInt8) : Yields Unmarshall.rawbyte [c] c.toInt8.toInt32.toUInt32 := by
  intro u t hle hsz hok hrest
  have hlen := congrArg List.length hrest
  unfold Unmarshall.rest at hrest hlen
  rw [length_slice, List.length_append, List.length_singleton] at hlen
  have hsplit : u.sz - u.ind = (u.sz - u.ind - 1) + 1 := by omega
  rw [hsplit, slice_succ, List.singleton_append] at hrest
  have hc := (List.cons.inj hrest).1
  have hlt : ¬ u.ind ≥ u.sz := by omega
  refine ⟨{ u with ind := u.ind + 1, used := u.used ++ [⟨u.ind, 1, u.sz⟩] }, ?_, rfl, rfl, rfl, hok,
    ?_⟩
  · unfold Unmarshall.rawbyte
    rw [if_neg hlt, hc]
  · dsimp only
    omega

theorem word (a b c d : UInt8) : Yields Unmarshall.word [a, b, c, d] (netWord [a, b, c, d]) := by
  apply (rawbyte a).bind
  apply (rawbyte b).bind
  apply (rawbyte c).bind
  apply (rawbyte d).map
  simp only [mask_char]
  exact or_netWord a b c d

theorem word_netBytes (x : UInt32) : Yields Unmarshall.word (netBytes x) x := by
  have h := word (UInt8.ofNat (x.toNat / 2 ^ 24)) (UInt8.ofNat (x.toNat / 2 ^ 16))
    (UInt8.ofNat (x.toNat / 2 ^ 8)) (UInt8.ofNat x.toNat)
  have hw := netWord_append x []
  rw [List.append_nil] at hw
  unfold netBytes at hw
  rwa [hw] at h

theorem unpack (x : Int32) : Yields Unmarshall.unpack (netBytes x.toUInt32) x :=
  (word_netBytes x.toUInt32).map (Int32.toInt32_toUInt32 x)

theorem getUchar (x : UInt8) : Yields Unmarshall.getUchar [x] x :=
  (rawbyte x).map (low_byte_char x)

theorem getBool (x : Bool) : Yields Unmarshall.getBool [x.toUInt8] x := by
  apply (rawbyte x.toUInt8).map
  cases x <;> rfl

theorem getChar (x : Int8) : Yields Unmarshall.getChar [x.toUInt8] x :=
  (getUchar x.toUInt8).map (Int8.toInt8_toUInt8 x)

theorem ushort (a b : UInt8) : Yields Unmarshall.getUshort [a, b] (shortWord [a, b]) := by
  apply (rawbyte a).bind
  apply (rawbyte b).map
  simp only [mask_char]
  exact or_shortWord a b

theorem getUshort (x : UInt16) : Yields Unmarshall.getUshort (shortBytes x) x := by
  have h := ushort (UInt8.ofNat (x.toNat / 2 ^ 8)) (UInt8.ofNat x.toNat)
  have hw := shortWord_shortBytes x
  unfold shortBytes at hw
  rwa [hw] at h

theorem getShort (x : Int16) : Yields Unmarshall.getShort (shortBytes x.toUInt16) x :=
  (getUshort x.toUInt16).map (Int16.toInt16_toUInt16 x)

theorem getInt (x : Int32) : Yields Unmarshall.getInt (netBytes x.toUInt32) x := unpack x

theorem getUlonglong (x : UInt64) :
    Yields Unmarshall.getUlonglong (netBytes (x >>> 32).toUInt32 ++ netBytes x.toUInt32) x := by
  apply (word_netBytes _).bind
  exact (word_netBytes _).map (or_halves x)

theorem ifOk (h : Yields g l v) {g' : Get α} :
    Yields (do if (← get).ok then g else g') l v := by
  intro u t hle hsz hok hrest
  obtain ⟨u', hg, hc⟩ := h u t hle hsz hok hrest
  refine ⟨u', ?_, hc⟩
  change (if u.ok = true then g else g') u = (v, u')
  rw [if_pos hok]
  exact hg

theorem rawbytes (d s : List UInt8) {n : UInt32} (hn : n.toNat = s.length) :
    Yields (Unmarshall.rawbytes d n) s s := by
  intro u t hle hsz hok hrest
  have hlen := congrArg List.length hrest
  unfold Unmarshall.rest at hrest hlen
  rw [length_slice, List.length_append] at hlen
  have hsplit : u.sz - u.ind = s.length + (u.sz - u.ind - s.length) := by omega
  rw [hsplit, slice_add] at hrest
  have hs := (List.append_inj hrest length_slice).1
  have hmod : (u.ind + s.length) % 2 ^ 32 = u.ind + s.length := Nat.mod_eq_of_lt (by omega)
  refine ⟨{ u with ind := u.ind + s.length, used := u.used ++ [⟨u.ind, s.length, u.sz⟩] }, ?_, rfl,
    rfl, rfl, hok, ?_⟩
  · unfold Unmarshall.rawbytes
    rw [hn, hmod, if_neg (by omega), hs]
  · dsimp only
    omega

/-- What fits in a buffer is not longer than an int says. -/
theorem bounded (h : l.length < 2 ^ 31 → Yields g l v) : Yields g l v := by
  intro u t hle hsz hok hrest
  have hlen := congrArg List.length hrest
  unfold Unmarshall.rest at hlen
  rw [length_slice, List.length_append] at hlen
  exact h (by omega) u t hle hsz hok hrest

theorem getString (d s : List UInt8) :
    Yields (Unmarshall.getString d) (netBytes (UInt32.ofNat s.length) ++ s) s := by
  apply bounded
  intro hlen
  rw [List.length_append, length_netBytes] at hlen
  have hn : (UInt32.ofNat s.length).toNat = s.length := by
    rw [UInt32.toNat_ofNat']
    exact Nat.mod_eq_of_lt (by omega)
  exact (word_netBytes _).bind (rawbytes d s hn).ifOk

variable {σ : Type}

/-- Each round of the loop takes one of the items. -/
theorem loop {body : σ → Get σ} {step : σ → α → σ} {enc : α → List UInt8}
    (h : ∀ s x, Yields (body s) (enc x) (step s x)) (xs : List α) (s : σ) :
    Yields (Unmarshall.loop body xs.length s) (xs.flatMap enc) (xs.foldl step s) := by
  induction xs generalizing s with
  | nil => exact pure s
  | cons x xs ih => exact (h s x).bind (ih (step s x))

/-- A loop that takes its count from the wire. -/
theorem counted {body : σ → Get σ} {step : σ → α → σ} {enc : α → List UInt8}
    (h : ∀ s x, Yields (body s) (enc x) (step s x)) (hpos : ∀ x, 1 ≤ (enc x).length) (xs : List α)
    (s : σ) :
    Yields (do Unmarshall.loop body (← Unmarshall.getUint).toNat s)
      (netBytes (UInt32.ofNat xs.length) ++ xs.flatMap enc) (xs.foldl step s) := by
  apply bounded
  intro hlen
  have hcount : xs.length ≤ (xs.flatMap enc).length := by
    clear hlen
    induction xs with
    | nil => exact Nat.le_refl 0
    | cons x xs ih =>
      have hx := hpos x
      rw [List.length_cons, List.flatMap_cons, List.length_append]
      omega
  rw [List.length_append, length_netBytes] at hlen
  have hn : (UInt32.ofNat xs.length).toNat = xs.length := by
    rw [UInt32.toNat_ofNat']
    exact Nat.mod_eq_of_lt (by omega)
  have hloop := loop h xs s
  rw [← hn] at hloop
  exact (word_netBytes _).bind hloop

theorem getVector {fresh : α} {get : α → Get α} {enc : α → List UInt8}
    (h : ∀ x, Yields (get fresh) (enc x) x) (hpos : ∀ x, 1 ≤ (enc x).length) (d v : List α) :
    Yields (Unmarshall.getVector fresh get d)
      (netBytes (UInt32.ofNat v.length) ++ v.flatMap enc) (d ++ v) := by
  have hbody : ∀ (s : List α) (x : α), Yields (do return s ++ [← get fresh]) (enc x) (s ++ [x]) :=
    fun s x => (h x).map rfl
  have hfold : v.foldl (fun s x => s ++ [x]) d = d ++ v := by
    clear hbody
    induction v generalizing d with
    | nil => simp
    | cons x v ih => simp [ih]
  have hc := counted hbody hpos v d
  rwa [hfold] at hc

theorem getMap {κ ν : Type} [LinearOrder κ] {fk : κ} {getKey : κ → Get κ} {fv : ν}
    {getVal : ν → Get ν} {encKey : κ → List UInt8} {encVal : ν → List UInt8}
    (hk : ∀ x, Yields (getKey fk) (encKey x) x) (hv : ∀ x, Yields (getVal fv) (encVal x) x)
    (hpos : ∀ x, 1 ≤ (encKey x).length) (d m : SortedMap κ ν) :
    Yields (Unmarshall.getMap fk getKey fv getVal d)
      (netBytes (UInt32.ofNat m.entries.length) ++
        m.entries.flatMap fun e => encKey e.1 ++ encVal e.2) m := by
  have hbody : ∀ (s : SortedMap κ ν) (e : κ × ν), Yields (do
      let a ← getKey fk
      let b ← getVal fv
      return s.assign a b) (encKey e.1 ++ encVal e.2) (s.assign e.1 e.2) :=
    fun s e => (hk e.1).bind ((hv e.2).map rfl)
  have hc := counted hbody (fun e => by
    rw [List.length_append]
    exact (hpos e.1).trans (Nat.le_add_right _ _)) m.entries .empty
  rwa [m.foldl_entries] at hc

theorem reqHeader (h : ReqHeader) : Yields (do
    let xid ← Unmarshall.unpack
    let proc ← Unmarshall.unpack
    let cltNonce ← Unmarshall.unpack
    let srvNonce ← Unmarshall.unpack
    let xidRep ← Unmarshall.unpack
    return ReqHeader.mk xid proc cltNonce.toUInt32 srvNonce.toUInt32 xidRep) h.enc h := by
  have hclt := unpack h.cltNonce.toInt32
  have hsrv := unpack h.srvNonce.toInt32
  rw [UInt32.toUInt32_toInt32] at hclt hsrv
  unfold ReqHeader.enc
  simp only [List.append_assoc]
  apply (unpack h.xid).bind
  apply (unpack h.proc).bind
  apply hclt.bind
  apply hsrv.bind
  apply (unpack h.xidRep).map
  rw [UInt32.toUInt32_toInt32, UInt32.toUInt32_toInt32]

theorem replyHeader (h : ReplyHeader) : Yields (do
    let xid ← Unmarshall.unpack
    let ret ← Unmarshall.unpack
    return ReplyHeader.mk xid ret) h.enc h :=
  (unpack h.xid).bind ((unpack h.ret).map rfl)

/-- Where the header holds these bytes, unpacking it leaves the cursor at the body. -/
theorem inHeader {sum : Bool} (h : Yields g l v) (hl : l.length ≤ 20) {u : Unmarshall}
    (hok : u.ok = true) (hlow : rpcHeaderSz sum ≤ u.sz) (hsz : u.sz < 2 ^ 31)
    (hgot : slice u.buf (headerAt sum) l.length = l) :
    ∃ u', Unmarshall.inHeader sum g u = (v, u') ∧ u'.buf = u.buf ∧ u'.sz = u.sz ∧ u'.ok = true ∧
      u'.ind = rpcHeaderSz sum := by
  unfold rpcHeaderSz at hlow
  have hsplit : u.sz - headerAt sum = l.length + (u.sz - headerAt sum - l.length) := by omega
  have hrest : ({ u with ind := headerAt sum } : Unmarshall).rest =
      l ++ slice u.buf (headerAt sum + l.length) (u.sz - headerAt sum - l.length) := by
    unfold Unmarshall.rest
    dsimp only
    rw [hsplit, slice_add, hgot, ← hsplit]
  obtain ⟨u', hg, hc⟩ := h { u with ind := headerAt sum } _ (by dsimp only; omega) hsz hok hrest
  refine ⟨{ u' with ind := rpcHeaderSz sum }, ?_, hc.buf, hc.sz, hc.ok, rfl⟩
  have hrun : Unmarshall.inHeader sum g u =
      ((g { u with ind := headerAt sum }).1,
        { (g { u with ind := headerAt sum }).2 with ind := rpcHeaderSz sum }) := rfl
  rw [hrun, hg]

end Yields

end Yfs.Rpc
