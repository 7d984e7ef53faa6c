import Yfs.Rpc.Framing
import Yfs.Rpc.Remote

/-! Messages over a connection: what is unpacked of the PDUs that arrive. -/
namespace Yfs.Rpc
open Effect

structure Message where
  header : Header
  values : List Value

/-- The buffer holds the message, apart from the four bytes that are for its length. -/
def Message.In (sum : Bool) (msg : Message) (b : List UInt8) : Prop :=
  ∃ heap, b.length = (send sum heap msg.header msg.values []).ind ∧
    b.drop 4 = (slice (send sum heap msg.header msg.values []).buf 0 b.length).drop 4

/-- The buffer holds the request, apart from the four bytes that are for its length. -/
def Request.In {sum : Bool} (q : Request sum) (b : List UInt8) : Prop :=
  b.length = q.sz ∧ b.drop 4 = (slice q.buf 0 b.length).drop 4

/-- `unmarshall(b, sz)` of a PDU. -/
def Unmarshall.ofPdu (c : List UInt8) : Unmarshall := .init (fun i => c.getD i 0) c.length

/-- Unpacking the PDU gives the message, and nothing is left. -/
def Message.Reads (sum : Bool) (msg : Message) (c : List UInt8) : Prop :=
  ∃ u, receive sum msg.header.kind (msg.values.map Sigma.fst) (.ofPdu c) =
    ((msg.header, msg.values), u) ∧ u.okdone = true

theorem four_le_headerAt (sum : Bool) : 4 ≤ headerAt sum := by
  cases sum <;> decide

/-- Behind the length a frame holds what the buffer holds. -/
theorem frame_getD {b : List UInt8} {f : ℕ → UInt8} (hdrop : b.drop 4 = (slice f 0 b.length).drop 4)
    {i : ℕ} (h4 : 4 ≤ i) (hi : i < b.length) : (frame b).getD i 0 = f i := by
  have hget := congrArg (fun l => l[i - 4]?) hdrop
  have hsum : 4 + (i - 4) = i := by omega
  simp only [List.getElem?_drop, hsum] at hget
  have hcell : (slice f 0 b.length)[i]? = some (f i) := by
    rw [List.getElem?_eq_getElem (by simpa using hi), getElem_slice, Nat.zero_add]
  have hback : (netBytes (Int32.ofInt (b.length : ℤ)).toUInt32).length ≤ i := by
    rw [length_netBytes]
    exact h4
  rw [frame, stamp, List.getD_eq_getElem?_getD, List.getElem?_append_right hback,
    length_netBytes, List.getElem?_drop, hsum, hget, hcell]
  rfl

/-- Behind the length a PDU is unpacked as the buffer is that it has been sent from. -/
theorem slice_ofPdu {b : List UInt8} {f : ℕ → UInt8}
    (hdrop : b.drop 4 = (slice f 0 b.length).drop 4) {a n : ℕ} (h4 : 4 ≤ a)
    (hn : a + n ≤ b.length) : slice (Unmarshall.ofPdu (frame b)).buf a n = slice f a n :=
  slice_congr fun i hle hlt => frame_getD hdrop (by omega) (by omega)

theorem sz_ofPdu {b : List UInt8} (hb : Sender.Sendable b) :
    (Unmarshall.ofPdu (frame b)).sz = b.length := length_stamp hb.1.le

/-- What arrives of a request is a request with the same header and the same arguments. -/
theorem Request.In.arrives {sum : Bool} {q : Request sum} {b : List UInt8} (h : q.In b)
    (hb : Sender.Sendable b) : ∃ q' : Request sum, q'.header = q.header ∧ q'.body = q.body ∧
      Unmarshall.init q'.buf q'.sz = .ofPdu (frame b) := by
  obtain ⟨hlen, hdrop⟩ := h
  have hsz := sz_ofPdu hb
  have hlow := q.low
  have h4 := four_le_headerAt sum
  have hhdr : headerAt sum + q.header.enc.length ≤ rpcHeaderSz sum :=
    headerAt_add_length (.req q.header)
  have hpacked : slice (Unmarshall.ofPdu (frame b)).buf (headerAt sum) q.header.enc.length =
      q.header.enc := by
    rw [slice_ofPdu hdrop h4 (by omega), q.packed]
  have hbody : slice (Unmarshall.ofPdu (frame b)).buf (rpcHeaderSz sum) (q.sz - rpcHeaderSz sum) =
      q.body := slice_ofPdu hdrop (by omega) (by omega)
  refine ⟨⟨q.header, (Unmarshall.ofPdu (frame b)).buf, (Unmarshall.ofPdu (frame b)).sz, ?_, ?_,
    hpacked⟩, rfl, ?_, rfl⟩
  · omega
  · rw [hsz]
    exact hb.2
  · rw [← hlen, ← hsz] at hbody
    exact hbody

theorem Message.In.reads {sum : Bool} {msg : Message} {b : List UInt8} (h : msg.In sum b)
    (hb : Sender.Sendable b) : msg.Reads sum (frame b) := by
  obtain ⟨heap, hlen, hdrop⟩ := h
  have hs : Sent sum msg.header (msg.values.flatMap Value.enc)
      (send sum heap msg.header msg.values []) := by
    have hs : Sent sum msg.header ((msg.values ++ []).flatMap Value.enc)
        (send sum heap msg.header msg.values []) := send_sent
    rwa [List.append_nil] at hs
  have hind := hs.ind
  have hadd : headerAt sum + msg.header.enc.length ≤ rpcHeaderSz sum := headerAt_add_length _
  have h4 := four_le_headerAt sum
  have hsz := sz_ofPdu hb
  have hhdr : slice (Unmarshall.ofPdu (frame b)).buf (headerAt sum) msg.header.enc.length =
      msg.header.enc := by
    rw [slice_ofPdu hdrop h4 (by omega), hs.header]
  have hrest : b.length - rpcHeaderSz sum = (msg.values.flatMap Value.enc).length := by omega
  have hbody : slice (Unmarshall.ofPdu (frame b)).buf (rpcHeaderSz sum)
      ((Unmarshall.ofPdu (frame b)).sz - rpcHeaderSz sum) =
        msg.values.flatMap Value.enc ++ [] := by
    rw [hsz, hrest, slice_ofPdu hdrop (by omega) (by omega), hs.body, List.append_nil]
  obtain ⟨u, hrun, hok, hle, hnil⟩ := receive_yields (u := .ofPdu (frame b)) rfl
    (by rw [hsz, hlen, hind]; rfl) (by rw [hsz]; exact hb.2) hhdr hbody
  exact ⟨u, hrun, (okdone_iff hok hle).mpr hnil⟩

namespace Link

variable {l : Link}

theorem Coherent.sent (h : l.Coherent) : ∀ f ∈ l.sender.frames, IsFrame f := by
  intro f hf
  obtain ⟨b, hb, rfl⟩ := List.mem_map.mp hf
  exact (h.framed.sendable b hb).isFrame

theorem Coherent.accepted (h : l.Coherent) : l.reader.accepted <+: l.sender.frames :=
  IsFrame.eq_of_prefix h.parsed.frames h.sent (h.parsed.took.trans (h.stream.trans h.framed.out))

/-- When nothing is under way, every PDU has arrived. -/
theorem Coherent.all_accepted (h : l.Coherent) (hsender : l.sender.dead = false)
    (hwpdu : l.sender.wpdu.buf = none) (hreader : l.reader.dead = false)
    (hrpdu : l.reader.rpdu.buf = none) (htook : l.reader.took = l.sender.out) :
    l.reader.accepted = l.sender.frames := by
  have hout := (h.framed.idle hsender hwpdu).2.1
  have hin := (h.parsed.empty hreader hrpdu).2
  have hflat : l.sender.frames.flatten = l.reader.accepted.flatten :=
    hout.symm.trans (htook.symm.trans hin)
  have hback := IsFrame.eq_of_prefix h.sent h.parsed.frames (hflat ▸ List.prefix_rfl)
  exact h.accepted.eq_of_length (Nat.le_antisymm h.accepted.length_le hback.length_le)

end Link

/-- The messages that the manager at one end of a connection is given are those that the other end
sends, in the order in which their threads have acquired the buffer, and they are unpacked to what
they have been made of. If neither end has died, the manager has all of them when no PDU is under
way. -/
theorem connection_delivers (sum : Bool) {events : List LinkEvent} {l : Link}
    (hrun : runs Link.step events .start = some l) :
    (∀ (i : ℕ) (c : List UInt8), l.reader.accepted[i]? = some c →
      ∃ b, l.sender.acquired[i]? = some b ∧
        (∀ msg : Message, msg.In sum b → msg.Reads sum c) ∧
        ∀ q : Request sum, q.In b → ∃ q' : Request sum, q'.header = q.header ∧
          q'.body = q.body ∧ Unmarshall.init q'.buf q'.sz = .ofPdu c) ∧
      (l.sender.dead = false → l.sender.wpdu.buf = none → l.reader.dead = false →
        l.reader.rpdu.buf = none → l.reader.took = l.sender.out →
          l.reader.accepted.length = l.sender.acquired.length) := by
  have h0 : Link.start.Coherent := ⟨.start, .start, List.prefix_rfl⟩
  have h := runs_invariant Link.step (fun _ _ _ hl hs => Link.Coherent.step hl hs) h0 hrun
  refine ⟨fun i c hc => ?_, fun hsender hwpdu hreader hrpdu htook => ?_⟩
  · obtain ⟨rest, hrest⟩ := h.accepted
    have hframes : l.sender.frames[i]? = some c := by
      rw [← hrest]
      exact (List.getElem?_append_left (List.getElem?_eq_some_iff.mp hc).1).trans hc
    rw [Sender.frames, List.getElem?_map] at hframes
    obtain ⟨b, hb, rfl⟩ := Option.map_eq_some_iff.mp hframes
    have hsend := h.framed.sendable b (List.mem_of_getElem? hb)
    exact ⟨b, hb, fun msg hmsg => hmsg.reads hsend, fun q hq => hq.arrives hsend⟩
  · rw [h.all_accepted hsender hwpdu hreader hrpdu htook]
    exact List.length_map ..

def fastArgs : Vals [.arg .int] := ((41 : Int32), ())

/-- The request of a call with one argument. -/
def fastRequest : Request false :=
  (fastArgs.args false (fun _ _ => 0) (by decide)).pack ⟨1, 23, 7, 9, 0⟩

def fastPdu : List UInt8 := slice fastRequest.buf 0 fastRequest.sz

/-- The request goes out in two pieces. -/
def twoPieces : List LinkEvent :=
  [.send (.send 0 fastPdu (.wrote 10)),
    .read (.readCb (.data ((frame fastPdu).take 4)) (.data (((frame fastPdu).drop 4).take 6)) true),
    .send (.writeCb (.wrote 18)), .send (.completed 0),
    .read (.readCb (.eof true) (.data ((frame fastPdu).drop 10)) true)]

theorem connection_delivers_example : ∃ l, runs Link.step twoPieces .start = some l ∧
    l.reader.accepted = [frame fastPdu] ∧ ∃ q' : Request false,
      q'.header = fastRequest.header ∧ q'.body = fastRequest.body ∧
        Unmarshall.init q'.buf q'.sz = .ofPdu (frame fastPdu) := by
  have hrun : ∃ l, runs Link.step twoPieces .start = some l ∧
      l.reader.accepted = [frame fastPdu] ∧ l.sender.acquired = [fastPdu] := ⟨_, rfl, rfl, rfl⟩
  obtain ⟨l, hl, haccepted, hacquired⟩ := hrun
  obtain ⟨b, hb, -, hq⟩ := (connection_delivers false hl).1 0 (frame fastPdu)
    (by rw [haccepted]; rfl)
  rw [hacquired] at hb
  obtain rfl := Option.some.inj hb
  exact ⟨l, hl, haccepted, hq fastRequest ⟨rfl, rfl⟩⟩

end Yfs.Rpc
