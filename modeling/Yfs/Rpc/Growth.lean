import Yfs.Rpc.RoundTrip

/-! The buffer of a `marshall` through any row of calls. -/
namespace Yfs.Rpc
open Effect

/-- The calls that write. -/
inductive MarshallCall where
  | put (v : Value)
  | rawbyte (x : UInt8)
  | rawbytes (p : List UInt8)
  | header (h : Header)

def MarshallCall.run (sum : Bool) : MarshallCall → Marshall → Marshall
  | .put v => v.1.codec.put v.2
  | .rawbyte x => Marshall.rawbyte x
  | .rawbytes p => Marshall.rawbytes p
  | .header h => h.pack sum

/-- What a call puts behind the header. -/
def MarshallCall.enc : MarshallCall → List UInt8
  | .put v => v.enc
  | .rawbyte x => [x]
  | .rawbytes p => p
  | .header _ => []

/-- The bytes that calls put behind the header. -/
def encodedLength (cs : List MarshallCall) : ℕ := (cs.map fun c => c.enc.length).sum

def runCalls (sum : Bool) (cs : List MarshallCall) (m : Marshall) : Marshall :=
  cs.foldl (fun m c => c.run sum m) m

/-! The header packers stay in the header. -/

/-- Only the memory below `n` was written, and the buffer is the same piece. -/
structure Inside (n : ℕ) (m m' : Marshall) : Prop where
  capa : m'.capa = m.capa
  buf : ∀ i, n ≤ i → m'.buf i = m.buf i
  used : ∃ l, m'.used = m.used ++ l ∧ ∀ a ∈ l, 0 ≤ a.offset ∧ a.offset + a.count ≤ n

/-- The operation takes `k` bytes and stays below `n`. -/
def Fits (n : ℕ) (op : Marshall → Marshall) (k : ℕ) : Prop :=
  ∀ m, m.ind + k ≤ n → n ≤ m.capa → Inside n m (op m) ∧ (op m).ind = m.ind + k

namespace Fits
variable {n k k' : ℕ} {op op' : Marshall → Marshall}

theorem comp (h : Fits n op k) (h' : Fits n op' k') : Fits n (fun m => op' (op m)) (k + k') := by
  intro m hle hcapa
  obtain ⟨⟨hc, hb, l, hl, hin⟩, hi⟩ := h m (by omega) hcapa
  obtain ⟨⟨hc', hb', l', hl', hin'⟩, hi'⟩ := h' (op m) (by omega) (by omega)
  refine ⟨⟨hc'.trans hc, fun i hni => (hb' i hni).trans (hb i hni), l ++ l', ?_, ?_⟩, ?_⟩
  · rw [hl', hl, List.append_assoc]
  · intro a ha
    obtain ha | ha := List.mem_append.mp ha
    · exact hin a ha
    · exact hin' a ha
  · rw [hi', hi, Nat.add_assoc]

theorem rawbyte (x : UInt8) : Fits n (Marshall.rawbyte x) 1 := by
  intro m hle hcapa
  have hlt : ¬ m.ind ≥ m.capa := by omega
  unfold Marshall.rawbyte
  rw [if_neg hlt]
  refine ⟨⟨rfl, fun i hi => ?_, _, rfl, fun a ha => ?_⟩, rfl⟩
  · apply overwrite_of_le
    simp only [List.length_singleton]
    omega
  · rw [List.mem_singleton.mp ha]
    simp only [List.length_singleton]
    omega

theorem pack (x : Int32) : Fits n (Marshall.pack x) 4 :=
  (((rawbyte _).comp (rawbyte _)).comp (rawbyte _)).comp (rawbyte _)

theorem header (h : Header) {sum : Bool} {m : Marshall} (hm : m.Valid sum) :
    Inside (rpcHeaderSz sum) m (h.pack sum m) := by
  have hlow := hm.low.trans hm.room
  have hat : ∀ {op k}, Fits (rpcHeaderSz sum) op k → k ≤ 20 →
      Inside (rpcHeaderSz sum) m (m.atHeader sum op) := by
    intro op k hop hk
    have hle : headerAt sum + k ≤ rpcHeaderSz sum := by
      unfold rpcHeaderSz
      omega
    obtain ⟨⟨hc, hb, hu⟩, -⟩ := hop { m with ind := headerAt sum } hle hlow
    exact ⟨hc, hb, hu⟩
  cases h with
  | req h =>
    unfold Header.pack Marshall.packReqHeader
    exact hat (((((pack h.xid).comp (pack h.proc)).comp (pack h.cltNonce.toInt32)).comp
      (pack h.srvNonce.toInt32)).comp (pack h.xidRep)) le_rfl
  | reply h =>
    unfold Header.pack Marshall.packReplyHeader
    exact hat ((pack h.xid).comp (pack h.ret)) (by omega)

end Fits

/-! What a row of calls does. -/

/-- Behind the header, `n` bytes more have been written and nothing is lost. -/
structure Grows (sum : Bool) (n : ℕ) (m m' : Marshall) : Prop where
  valid : m'.Valid sum
  ind : m'.ind = m.ind + n
  kept : ∀ i, rpcHeaderSz sum ≤ i → i < m.ind → m'.buf i = m.buf i
  limit : m'.capa ≤ max m.capa (2 * m'.ind)
  used : (∀ a ∈ m.used, a.InBounds) → ∀ a ∈ m'.used, a.InBounds

namespace Grows
variable {sum : Bool} {n n' : ℕ} {m m₁ m₂ : Marshall}

theorem refl (hm : m.Valid sum) : Grows sum 0 m m :=
  ⟨hm, rfl, fun _ _ _ => rfl, le_max_left _ _, id⟩

theorem trans (h : Grows sum n m m₁) (h' : Grows sum n' m₁ m₂) : Grows sum (n + n') m m₂ where
  valid := h'.valid
  ind := by rw [h'.ind, h.ind, Nat.add_assoc]
  kept i hlow hi := by
    have hind := h.ind
    rw [h'.kept i hlow (by omega), h.kept i hlow hi]
  limit := by
    have hlim := h.limit
    have hlim' := h'.limit
    have hind := h'.ind
    omega
  used hu := h'.used (h.used hu)

theorem ofWrites {l : List UInt8} (hm : m.Valid sum) (hw : Writes m l m₁) :
    Grows sum l.length m m₁ :=
  ⟨hm.writes hw, hw.ind, fun i _ hi => hw.below i hi, hw.limit, hw.used⟩

theorem call (c : MarshallCall) (hm : m.Valid sum) : Grows sum c.enc.length m (c.run sum m) := by
  cases c with
  | put v => exact ofWrites hm (v.1.codec.puts v.2 m hm.room hm.capa_pos)
  | rawbyte x => exact ofWrites hm (Writes.rawbyte x hm.room hm.capa_pos)
  | rawbytes p => exact ofWrites hm (Writes.rawbytes p hm.room)
  | header h =>
    have hp := h.pack_packs hm
    exact ⟨hp.valid, hp.ind, hp.above, hp.limit, hp.used⟩

theorem calls (cs : List MarshallCall) (hm : m.Valid sum) :
    Grows sum (encodedLength cs) m (runCalls sum cs m) := by
  induction cs generalizing m with
  | nil => exact refl hm
  | cons c cs ih =>
    have hc := call c hm
    exact hc.trans (ih hc.valid)

end Grows

/-- What holds of the buffer after any calls, and of what later calls leave of it. -/
structure Marshall.Bounded (sum : Bool) (cs more : List MarshallCall) (m : Marshall) : Prop where
  low : rpcHeaderSz sum ≤ m.ind
  room : m.ind ≤ m.capa
  int : m.capa < 2 ^ 31
  used : ∀ a ∈ m.used, a.InBounds
  size : m.ind = rpcHeaderSz sum + encodedLength cs
  kept : ∀ i, rpcHeaderSz sum ≤ i → i < m.ind → (runCalls sum more m).buf i = m.buf i
  header : ∀ h : Header, (h.pack sum m).ind = m.ind ∧ Inside (rpcHeaderSz sum) m (h.pack sum m)

theorem buffer_bounded (sum : Bool) (heap : ℕ → ℕ → UInt8) (cs more : List MarshallCall)
    (hsz : rpcHeaderSz sum + encodedLength (cs ++ more) < 2 ^ 30) :
    (runCalls sum cs (.init sum heap)).Bounded sum cs more := by
  have hlen : encodedLength (cs ++ more) = encodedLength cs + encodedLength more := by
    unfold encodedLength
    rw [List.map_append, List.sum_append]
  have hv : (Marshall.init sum heap).Valid sum := .init heap
  have h := Grows.calls cs hv
  have hm := h.valid
  have hind : (runCalls sum cs (.init sum heap)).ind = rpcHeaderSz sum + encodedLength cs := h.ind
  have hlim := h.limit
  have hcapa : (Marshall.init sum heap).capa = 1024 := rfl
  constructor
  · exact hm.low
  · exact hm.room
  · omega
  · apply h.used
    intro a ha
    cases ha
  · exact hind
  · exact (Grows.calls more hm).kept
  · intro hd
    exact ⟨(hd.pack_packs hm).ind, Fits.header hd hm⟩

/-- A string that does not fit makes the buffer grow, and its header is packed afterwards. -/
theorem buffer_bounded_example :
    (runCalls false [.rawbyte 7, .rawbytes (.replicate 2000 1), .header (.reply ⟨1, 0⟩)]
      (.init false fun _ _ => 0)).Bounded false
      [.rawbyte 7, .rawbytes (.replicate 2000 1), .header (.reply ⟨1, 0⟩)] [.rawbyte 8] :=
  buffer_bounded false _ _ _ (by
    simp only [encodedLength, MarshallCall.enc, List.cons_append, List.nil_append, List.map_cons,
      List.map_nil, List.sum_cons, List.sum_nil, List.length_cons, List.length_nil,
      List.length_replicate]
    decide)

end Yfs.Rpc
