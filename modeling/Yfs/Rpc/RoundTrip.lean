import Yfs.Rpc.Wire

/-! Decoding undoes encoding. -/
namespace Yfs.Rpc
open Effect

/-- Marshals the values and packs the header between them. -/
def send (sum : Bool) (heap : ℕ → ℕ → UInt8) (h : Header) (vs₁ vs₂ : List Value) : Marshall :=
  putAll vs₂ (h.pack sum (putAll vs₁ (Marshall.init sum heap)))

/-- Unpacks a header and extracts values of these types. -/
def receive (sum : Bool) (k : HeaderKind) (ts : List Ty) : Get (Header × List Value) := do
  let h ← Unmarshall.unpackHeader sum k
  let vs ← getAll ts
  return (h, vs)

variable {sum : Bool} {heap : ℕ → ℕ → UInt8} {h : Header} {vs₁ vs₂ : List Value}

/-- What the buffer of a message holds. -/
structure Sent (sum : Bool) (h : Header) (body : List UInt8) (m : Marshall) : Prop where
  ind : m.ind = rpcHeaderSz sum + body.length
  header : slice m.buf (headerAt sum) h.enc.length = h.enc
  body : slice m.buf (rpcHeaderSz sum) body.length = body
  capa : m.capa ≤ max DEFAULT_RPC_SZ (2 * m.ind)
  used : ∀ a ∈ m.used, a.InBounds

theorem headerAt_add_length (h : Header) : headerAt sum + h.enc.length ≤ rpcHeaderSz sum := by
  have hlen : h.enc.length ≤ 20 := by
    cases h with
    | req h => exact h.length_enc.le
    | reply h => exact h.length_enc.le.trans (by decide)
  unfold rpcHeaderSz
  omega

theorem send_sent : Sent sum h ((vs₁ ++ vs₂).flatMap Value.enc) (send sum heap h vs₁ vs₂) := by
  have hv : (Marshall.init sum heap).Valid sum := .init heap
  have hw₁ := putAll_puts vs₁ _ hv.room hv.capa_pos
  have hp := h.pack_packs (hv.writes hw₁)
  have hw₂ := putAll_puts vs₂ _ hp.valid.room hp.valid.capa_pos
  have hadd : headerAt sum + h.enc.length ≤ rpcHeaderSz sum := headerAt_add_length h
  have hind₁ := hw₁.ind
  have hindp := hp.ind
  have hind₂ := hw₂.ind
  have hinit : (Marshall.init sum heap).ind = rpcHeaderSz sum := rfl
  rw [List.flatMap_append]
  constructor
  · rw [List.length_append]
    unfold send
    omega
  · have hkept := slice_congr (a := headerAt sum) (n := h.enc.length) fun i _ hi =>
      hw₂.below i (by omega)
    unfold send
    rw [hkept, hp.got]
  · have hkept := slice_congr (a := rpcHeaderSz sum) (n := (vs₁.flatMap Value.enc).length)
      fun i hle hi => (hw₂.below i (by omega)).trans (hp.above i hle (by omega))
    have hgot₁ := hw₁.got
    have hgot₂ := hw₂.got
    rw [hinit] at hgot₁
    rw [hp.ind, hind₁, hinit] at hgot₂
    unfold send
    rw [List.length_append, slice_add, hkept, hgot₁, hgot₂]
  · have hlim₁ := hw₁.limit
    have hlimp := hp.limit
    have hlim₂ := hw₂.limit
    have hcapa : (Marshall.init sum heap).capa = DEFAULT_RPC_SZ := rfl
    unfold send
    omega
  · exact hw₂.used (hp.used (hw₁.used fun a ha => absurd ha List.not_mem_nil))

theorem unpackHeader_of_enc {u : Unmarshall} (hok : u.ok = true) (hlow : rpcHeaderSz sum ≤ u.sz)
    (hint : u.sz < 2 ^ 31) (hhdr : slice u.buf (headerAt sum) h.enc.length = h.enc) :
    ∃ u', Unmarshall.unpackHeader sum h.kind u = (h, u') ∧ u'.buf = u.buf ∧ u'.sz = u.sz ∧
      u'.ok = true ∧ u'.ind = rpcHeaderSz sum := by
  cases h with
  | req h =>
    simp only [Header.enc] at hhdr
    have hlen : h.enc.length ≤ 20 := h.length_enc.le
    have hin := (Yields.reqHeader h).inHeader hlen hok hlow hint
    obtain ⟨u', hg, hu'⟩ := hin hhdr
    exact ⟨u', run_map hg Header.req, hu'⟩
  | reply h =>
    simp only [Header.enc] at hhdr
    have hlen : h.enc.length ≤ 20 := h.length_enc.le.trans (by decide)
    have hin := (Yields.replyHeader h).inHeader hlen hok hlow hint
    obtain ⟨u', hg, hu'⟩ := hin hhdr
    exact ⟨u', run_map hg Header.reply, hu'⟩

/-- Whatever buffer holds the header and the values, with more bytes behind them, unpacking gives
them back and stops in front of those bytes. -/
theorem receive_yields {vs : List Value} {extra : List UInt8} {u : Unmarshall} (hok : u.ok = true)
    (hsz : u.sz = rpcHeaderSz sum + (vs.flatMap Value.enc).length + extra.length)
    (hint : u.sz < 2 ^ 31) (hhdr : slice u.buf (headerAt sum) h.enc.length = h.enc)
    (hbody : slice u.buf (rpcHeaderSz sum) (u.sz - rpcHeaderSz sum) =
      vs.flatMap Value.enc ++ extra) :
    ∃ u', receive sum h.kind (vs.map Sigma.fst) u = ((h, vs), u') ∧ u'.ok = true ∧
      u'.ind ≤ u'.sz ∧ u'.rest = extra := by
  obtain ⟨u₁, hg, hbuf, hsz₁, hok₁, hind⟩ := unpackHeader_of_enc hok (by omega) hint hhdr
  have hrest : u₁.rest = vs.flatMap Value.enc ++ extra := by
    unfold Unmarshall.rest
    rw [hbuf, hsz₁, hind, hbody]
  obtain ⟨u₂, hall, hc⟩ := getAll_yields vs u₁ extra (by omega) (by omega) hok₁ hrest
  refine ⟨u₂, ?_, hc.ok, hc.le, hc.rest hrest⟩
  unfold receive
  rw [run_bind hg]
  exact run_map hall (Prod.mk h)

theorem okdone_iff {u : Unmarshall} (hok : u.ok = true) (hle : u.ind ≤ u.sz) :
    u.okdone = true ↔ u.rest = [] := by
  have hlen : u.rest.length = u.sz - u.ind := length_slice
  unfold Unmarshall.okdone
  rw [hok, Bool.true_and, beq_iff_eq, ← List.length_eq_zero_iff, hlen]
  omega

/-- What `unmarshall(b, sz)` gets of the buffer and the size that `take_buf` gave, with more bytes
behind them. -/
theorem decode_encode (sum : Bool) (heap : ℕ → ℕ → UInt8) (h : Header) (vs₁ vs₂ : List Value)
    (extra : List UInt8) {m : Marshall} (hm : m = send sum heap h vs₁ vs₂) {b : ℕ → UInt8} {sz : ℕ}
    (hsz : sz = m.takeBuf.2 + extra.length) (htotal : m.takeBuf.2 < 2 ^ 30) (hint : sz < 2 ^ 31)
    (hb : slice b 0 sz = slice m.takeBuf.1 0 m.takeBuf.2 ++ extra) :
    m.capa < 2 ^ 31 ∧
    ∃ u, receive sum h.kind ((vs₁ ++ vs₂).map Sigma.fst) (Unmarshall.init b sz) =
      ((h, vs₁ ++ vs₂), u) ∧ u.ok = true ∧ u.rest = extra ∧ (u.okdone = true ↔ extra = []) := by
  have hs : Sent sum h ((vs₁ ++ vs₂).flatMap Value.enc) m := hm ▸ send_sent
  have hind := hs.ind
  have hadd : headerAt sum + h.enc.length ≤ rpcHeaderSz sum := headerAt_add_length h
  unfold Marshall.takeBuf at hsz htotal hb
  dsimp only at hsz htotal hb
  have hlow : rpcHeaderSz sum ≤ m.ind := by omega
  have hkept : slice b 0 m.ind = slice m.buf 0 m.ind := by
    rw [hsz, slice_add] at hb
    exact (List.append_inj hb (by simp)).1
  have hcell : ∀ i < m.ind, b i = m.buf i := by
    intro i hi
    have hget := congrArg (fun l => l[i]?) hkept
    simpa [slice, hi] using hget
  have hhdr : slice b (headerAt sum) h.enc.length = h.enc := by
    rw [slice_congr fun i _ hi => hcell i (by omega), hs.header]
  have hbody : slice b (rpcHeaderSz sum) (sz - rpcHeaderSz sum) =
      (vs₁ ++ vs₂).flatMap Value.enc ++ extra := by
    have hsplit : sz - rpcHeaderSz sum =
        ((vs₁ ++ vs₂).flatMap Value.enc).length + extra.length := by omega
    have hextra : slice b m.ind extra.length = extra := by
      rw [hsz, slice_add, hkept, Nat.zero_add] at hb
      exact (List.append_inj hb rfl).2
    rw [hsplit, slice_add, slice_congr fun i _ hi => hcell i (by omega), hs.body, ← hind, hextra]
  constructor
  · have hcapa := hs.capa
    unfold DEFAULT_RPC_SZ at hcapa
    omega
  · obtain ⟨u, hrun, hok, hle, hrest⟩ := receive_yields (u := Unmarshall.init b sz) rfl
      (show sz = _ by omega) hint hhdr hbody
    refine ⟨u, hrun, hok, hrest, ?_⟩
    rw [okdone_iff hok hle, hrest]

theorem decode_encode_example :
    let h := Header.req ⟨7, 0x6001, 11, 12, 5⟩
    let vs₁ : List Value := [⟨.arg .short, (-2 : Int16)⟩]
    let vs₂ : List Value := [⟨.vector (.arg .string), [[104, 105], []]⟩, ⟨.bool, true⟩]
    let m := send true (fun _ _ => 170) h vs₁ vs₂
    ∃ u, receive true .req [.arg .short, .vector (.arg .string), .bool]
        (Unmarshall.init (overwrite m.buf m.ind [9, 9]) (m.ind + 2)) = ((h, vs₁ ++ vs₂), u) ∧
      u.rest = [9, 9] := by
  intro h vs₁ vs₂
  generalize hm : send true (fun _ _ => 170) h vs₁ vs₂ = m
  have hind : m.ind = rpcHeaderSz true + ((vs₁ ++ vs₂).flatMap Value.enc).length :=
    (hm ▸ send_sent : Sent true h ((vs₁ ++ vs₂).flatMap Value.enc) m).ind
  have hlen : rpcHeaderSz true + ((vs₁ ++ vs₂).flatMap Value.enc).length = 49 := rfl
  have hm := decode_encode true (fun _ _ => 170) h vs₁ vs₂ [9, 9] hm.symm rfl
    (by unfold Marshall.takeBuf; dsimp only; omega)
    (by unfold Marshall.takeBuf; simp only [List.length_cons, List.length_nil]; omega)
    (slice_overwrite_end m.buf m.ind [9, 9])
  obtain ⟨u, hrun, -, hrest, -⟩ := hm.2
  exact ⟨u, hrun, hrest⟩

end Yfs.Rpc
