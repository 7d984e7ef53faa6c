import Yfs.Effect.Serial
import Yfs.Rpc.Client
import Yfs.Rpc.Extraction

/-! Calls and handlers with types: what `call` marshals, what a registered method is given, and what
`call_m` makes of the reply. -/
namespace Yfs.Rpc
open Effect

variable {sum : Bool} {ts : List Ty}

/-- A value of each of the types. -/
def Vals : List Ty → Type
  | [] => Unit
  | t :: ts => t.codec.Val × Vals ts

namespace Vals

def values : {ts : List Ty} → Vals ts → List Value
  | [], _ => []
  | t :: _, v => ⟨t, v.1⟩ :: values v.2

def enc (v : Vals ts) : List UInt8 := v.values.flatMap Value.enc

/-- `args >> a1; args >> a2; …` into fresh variables. -/
def get : (ts : List Ty) → Get (Vals ts)
  | [] => return ()
  | t :: ts => do
    let a ← t.codec.get t.codec.fresh
    let as ← get ts
    return (a, as)

theorem get_yields (v : Vals ts) : Yields (get ts) v.enc v := by
  induction ts with
  | nil => exact Yields.pure ()
  | cons t ts ih => exact (t.codec.yields v.1).bind ((ih v.2).map rfl)

end Vals

/-- The cursor is in front of these bytes, and nothing comes behind them. -/
structure Unmarshall.Offers (u : Unmarshall) (l : List UInt8) : Prop where
  ok : u.ok = true
  le : u.ind ≤ u.sz
  int : u.sz < 2 ^ 31
  rest : u.rest = l

/-- What is offered is taken to the last byte. -/
theorem Unmarshall.Offers.run {α : Type} {g : Get α} {a : α} {u : Unmarshall} {l : List UInt8}
    (h : u.Offers l) (hg : Yields g l a) : (g u).1 = a ∧ (g u).2.okdone = true := by
  obtain ⟨u', hrun, hc⟩ := hg u [] h.le h.int h.ok (by rw [List.append_nil, h.rest])
  have hrest : u'.rest = [] := hc.rest (by rw [List.append_nil, h.rest])
  rw [hrun]
  exact ⟨rfl, (okdone_iff hc.ok hc.le).mpr hrest⟩

/-! Requests. -/

/-- The bytes behind the header. -/
def Request.body (q : Request sum) : List UInt8 :=
  slice q.buf (rpcHeaderSz sum) (q.sz - rpcHeaderSz sum)

/-- `marshall m; m << a1; m << a2; …` -/
def Vals.marshall (sum : Bool) (heap : ℕ → ℕ → UInt8) (v : Vals ts) : Marshall :=
  putAll v.values (Marshall.init sum heap)

theorem Vals.marshall_writes (sum : Bool) (heap : ℕ → ℕ → UInt8) (v : Vals ts) :
    Writes (Marshall.init sum heap) v.enc (v.marshall sum heap) :=
  putAll_puts v.values _ (Marshall.Valid.init heap).room (Marshall.Valid.init heap).capa_pos

theorem Vals.marshall_ind (sum : Bool) (heap : ℕ → ℕ → UInt8) (v : Vals ts) :
    (v.marshall sum heap).ind = rpcHeaderSz sum + v.enc.length := (v.marshall_writes sum heap).ind

/-- What `call` gives to `call1`. -/
def Vals.args (sum : Bool) (heap : ℕ → ℕ → UInt8) (v : Vals ts)
    (h : rpcHeaderSz sum + v.enc.length < 2 ^ 31) : Args sum where
  req := v.marshall sum heap
  valid := (Marshall.Valid.init heap).writes (v.marshall_writes sum heap)
  int := lt_of_eq_of_lt (v.marshall_ind sum heap) h

theorem Args.sz_pack (a : Args sum) (hd : ReqHeader) : (a.pack hd).sz = a.req.ind := by
  dsimp only [Args.pack]
  exact (hd.packs a.valid).ind

/-- The header goes in front of the arguments. -/
theorem Args.buf_pack (a : Args sum) (hd : ReqHeader) {i : ℕ} (hi : rpcHeaderSz sum ≤ i)
    (hlt : i < a.req.ind) : (a.pack hd).buf i = a.req.buf i := by
  dsimp only [Args.pack]
  exact (hd.packs a.valid).above i hi hlt

/-- The header leaves the arguments as they are. -/
theorem Vals.body_pack (heap : ℕ → ℕ → UInt8) (v : Vals ts)
    (h : rpcHeaderSz sum + v.enc.length < 2 ^ 31) (hd : ReqHeader) :
    ((v.args sum heap h).pack hd).body = v.enc := by
  have hind : (v.args sum heap h).req.ind = rpcHeaderSz sum + v.enc.length := v.marshall_ind sum heap
  have hgot : slice (v.args sum heap h).req.buf (rpcHeaderSz sum) v.enc.length = v.enc :=
    (v.marshall_writes sum heap).got
  unfold Request.body
  rw [Args.sz_pack, hind, Nat.add_sub_cancel_left]
  refine Eq.trans (slice_congr fun i hi hlt => ?_) hgot
  exact Args.buf_pack _ hd hi (by rwa [hind])

/-- What a dispatch has left of a request once the header is unpacked. -/
theorem Request.offers (q : Request sum) :
    (Unmarshall.unpackReqHeader sum (Unmarshall.init q.buf q.sz)).2.Offers q.body := by
  obtain ⟨u, hu, hbuf, hsz, hok, hind⟩ := (Yields.reqHeader q.header).inHeader
    q.header.length_enc.le (u := Unmarshall.init q.buf q.sz) rfl q.low q.int q.packed
  have hunpack : Unmarshall.unpackReqHeader sum (Unmarshall.init q.buf q.sz) = (q.header, u) := hu
  have hbuf' : u.buf = q.buf := hbuf
  have hsz' : u.sz = q.sz := hsz
  rw [hunpack]
  refine ⟨hok, ?_, ?_, ?_⟩
  · rw [hind, hsz']
    exact q.low
  · rw [hsz']
    exact q.int
  · unfold Unmarshall.rest
    rw [hbuf', hsz', hind]
    rfl

/-! Handlers. -/

/-- `rpc_const::unmarshal_args_failure` -/
def unmarshalArgsFailure : Int32 := -2

/-- A method for `reg`. `M` is what it may find in memory that nobody has written. -/
structure Proc (M C : Type) (R : C → Type) where
  args : List Ty
  res : Ty
  meth : M → Vals args → Program C R (Int32 × res.codec.Val)

namespace Proc

variable {M C : Type} {R : C → Type}

/-- `h1::fn`: its value, and what it has made of `ret`. -/
def fn (p : Proc M C R) (mem : M) (args : Unmarshall) (ret : Marshall) :
    Program C R (Int32 × Marshall) :=
  let r := Vals.get p.args args
  if r.2.okdone then p.meth mem r.1 >>= fun b => .pure (b.1, p.res.codec.put b.2 ret)
  else .pure (unmarshalArgsFailure, ret)

/-- What is sent of it: the value and the bytes behind the header. -/
def handle (p : Proc M C R) (sum : Bool) (heap : ℕ → ℕ → UInt8) (mem : M) (args : Unmarshall) :
    Program C R (Int32 × List UInt8) :=
  p.fn mem args (Marshall.init sum heap) >>= fun r => .pure (r.1, r.2.content sum)

/-- The method with its result as it goes over the wire. -/
def prog (p : Proc M C R) (mem : M) (v : Vals p.args) : Program C R (Int32 × List UInt8) :=
  p.meth mem v >>= fun b => .pure (b.1, p.res.codec.enc b.2)

theorem content_put (t : Ty) (heap : ℕ → ℕ → UInt8) (b : t.codec.Val) :
    (t.codec.put b (Marshall.init sum heap)).content sum = t.codec.enc b := by
  have h : (putAll [⟨t, b⟩] (Marshall.init sum heap)).content sum = [(⟨t, b⟩ : Value)].flatMap
      Value.enc := content_putAll heap [⟨t, b⟩]
  rwa [List.flatMap_singleton] at h

/-- Arguments of the right types reach the method, and nothing else happens. -/
theorem handle_eq (p : Proc M C R) (heap : ℕ → ℕ → UInt8) (mem : M) {v : Vals p.args}
    {args : Unmarshall} (h : args.Offers v.enc) : p.handle sum heap mem args = p.prog mem v := by
  obtain ⟨hval, hdone⟩ := h.run v.get_yields
  unfold handle fn prog
  dsimp only
  rw [hval, if_pos hdone, Program.bind_assoc]
  exact congrArg _ (funext fun b => congrArg Program.pure (Prod.ext rfl (content_put p.res heap b.2)))

/-- Bytes that are no arguments of the right types do not reach the method. -/
theorem handle_refused (p : Proc M C R) (heap : ℕ → ℕ → UInt8) (mem : M) {args : Unmarshall}
    (h : (Vals.get p.args args).2.okdone = false) :
    ∃ b, p.handle sum heap mem args = .pure (unmarshalArgsFailure, b) := by
  unfold handle fn
  dsimp only
  rw [h]
  exact ⟨_, rfl⟩

/-- A result that the method may have, whatever it is told. -/
def Gives (p : Proc M C R) (v : Vals p.args) (b : Int32 × p.res.codec.Val) : Prop :=
  ∃ mem, (p.meth mem v).Ends b

end Proc

/-! Replies. -/

/-- `take_in` of a reply with this body. The bytes of the header are not looked at again. -/
def takeIn (sum : Bool) (body : List UInt8) : Unmarshall :=
  ⟨fun i => body.getD (i - rpcHeaderSz sum) 0, rpcHeaderSz sum + body.length, rpcHeaderSz sum, true,
    []⟩

theorem takeIn_offers {body : List UInt8} (h : rpcHeaderSz sum + body.length < 2 ^ 31) :
    (takeIn sum body).Offers body := by
  refine ⟨rfl, Nat.le_add_right _ _, h, ?_⟩
  change slice _ (rpcHeaderSz sum) (rpcHeaderSz sum + body.length - rpcHeaderSz sum) = body
  rw [Nat.add_sub_cancel_left]
  apply List.ext_getElem
  · exact length_slice
  · intro i hi hlt
    simp [slice, takeIn, hlt]

/-- `call_m` after `call1` has returned, into a variable that holds `d`: the value, and what the
variable holds then. The VERIFY fails when the reply is of another type. -/
def callM (sum : Bool) (t : Ty) (d : t.codec.Val) (r : Return) : Option (Int32 × t.codec.Val) :=
  if r.ret < 0 then some (r.ret, d)
  else
    let x := t.codec.get d (takeIn sum r.body)
    if x.2.okdone then some (r.ret, x.1) else none

theorem callM_eq {t : Ty} (d : t.codec.Val) {b : t.codec.Val} {r : Return} (hret : 0 ≤ r.ret)
    (hbody : r.body = t.codec.enc b) (hsmall : rpcHeaderSz sum + r.body.length < 2 ^ 31) :
    callM sum t d r = some (r.ret, t.onto d b) := by
  obtain ⟨hval, hdone⟩ := (takeIn_offers hsmall).run (hbody ▸ t.yields_onto d b)
  unfold callM
  rw [if_neg (Int32.not_lt.mpr hret)]
  dsimp only
  rw [if_pos hdone, hval]

end Yfs.Rpc
