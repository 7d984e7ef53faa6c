import Yfs.Rpc.System

/-! What holds of a client, whatever arrives for it. -/
namespace Yfs.Rpc
open Effect

variable {sum : Bool}

/-- A caller has its request, and if it has a value that is no failure, one that a handler has given
for it. -/
structure Caller.Sound (n : UInt32) (executed : List (Task × Int32 × List UInt8))
    (made : List ReqHeader) (ca : Caller sum) : Prop where
  made : ca.req.header ∈ made
  xid : ca.req.header.xid.toUInt32 = ca.xid
  answered : ca.done = true → 0 ≤ ca.intret →
    (⟨ca.srv, n, ca.xid, ca.req.header.proc⟩, ca.intret, ca.body) ∈ executed

/-- The headers that a client packs, where `known` are the nonces of servers. -/
structure ReqHeader.Lawful (n : UInt32) (known : List UInt32) (h : ReqHeader) : Prop where
  nonce : h.cltNonce = n
  nonzero : n ≠ 0
  rep : h.xidRep.toUInt32 < h.xid.toUInt32
  bound : h.proc = bindProc ∧ h.srvNonce = 0 ∨ h.proc ≠ bindProc ∧ h.srvNonce ∈ known

structure Client.Sound (n : UInt32) (known : List UInt32)
    (executed : List (Task × Int32 × List UInt8)) (c : Client sum) : Prop where
  nonce : c.cltNonce = n
  xid : c.xid = UInt32.ofNat (c.made.length + 1)
  xids : ∀ k h, c.made[k]? = some h → h.xid.toUInt32.toNat = k + 1
  lawful : ∀ h ∈ c.made, h.Lawful n known
  server : if c.bindDone then c.srvNonce ∈ known else c.srvNonce = 0
  window : reportAll c.reported = some c.xidRepWindow
  reported : ∀ x ∈ c.reported, ∃ h ∈ c.made, h.xid.toUInt32 = x
  callers : ∀ ca, ca ∈ c.calls ∨ ca ∈ c.leaving → ca.Sound n executed c.made
  dup : ∀ r, c.dupReq = some r → r.header ∈ c.made
  binding : ∀ r ∈ c.binding, r ∈ known

/-- A reply for a request of a client, with what a handler has given for it or with a failure. -/
def Response.Sound (made : List ReqHeader) (executed : List (Task × Int32 × List UInt8))
    (r : Response) : Prop :=
  ∃ h ∈ made, h.xid = r.header.xid ∧ (0 ≤ r.header.ret →
    (⟨r.srv, r.clt, h.xid.toUInt32, h.proc⟩, r.header.ret, r.body) ∈ executed)

section Window

/-- The front of the window: everything up to it has been reported. -/
theorem front_of_reportAll {xids w : List UInt32} {f : UInt32} (h : reportAll xids = some w)
    (hf : w.head? = some f) :
    (∀ x, 1 ≤ x → x ≤ f → x ∈ xids) ∧ (f = 0 ∨ f ∈ xids) := by
  obtain ⟨f', w', hw, ht, -⟩ := reportAll_tracks xids
  rw [h] at hw
  obtain rfl := Option.some.inj hw
  obtain rfl := Option.some.inj hf
  refine ⟨fun x h1 hx => (ht.covered x h1 hx).2, ?_⟩
  by_cases hzero : f' = 0
  · exact Or.inl hzero
  · have hone : 1 ≤ f' := by
      rw [UInt32.le_iff_toNat_le]
      have hne : f'.toNat ≠ 0 := fun heq => hzero (UInt32.toNat_inj.mp heq)
      change 1 ≤ f'.toNat
      omega
    exact Or.inr (ht.covered f' hone le_rfl).2

theorem report_eq_some {c c' : Client sum} {xid : UInt32} (h : c.report xid = some c') :
    ∃ w, updateXidRep c.xidRepWindow xid = some w ∧
      c' = { c with xidRepWindow := w, reported := c.reported ++ [xid] } := by
  unfold Client.report at h
  obtain ⟨w, hw, rfl⟩ := Option.map_eq_some_iff.mp h
  exact ⟨w, hw, rfl⟩

theorem reportAll_append {xids w w' : List UInt32} {xid : UInt32} (h : reportAll xids = some w)
    (hw : updateXidRep w xid = some w') : reportAll (xids ++ [xid]) = some w' := by
  unfold reportAll at h ⊢
  rw [List.foldlM_append, h]
  simpa using hw

end Window

namespace Client.Sound

variable {n : UInt32} {known known' : List UInt32}
  {executed executed' : List (Task × Int32 × List UInt8)} {c c' : Client sum}

theorem init (nonce : UInt32) (lossytest : Bool) :
    (Client.init nonce lossytest : Client sum).Sound nonce known executed where
  nonce := rfl
  xid := rfl
  xids k h hk := by cases hk
  lawful h hh := by cases hh
  server := rfl
  window := rfl
  reported x hx := by cases hx
  callers ca hca := by
    obtain hca | hca := hca
    · cases hca
    · cases hca
  dup r hr := by cases hr
  binding r hr := by cases hr

/-- More servers and more executions do not matter. -/
theorem mono (h : c.Sound n known executed) (hk : ∀ x ∈ known, x ∈ known')
    (he : ∀ x ∈ executed, x ∈ executed') : c.Sound n known' executed' where
  nonce := h.nonce
  xid := h.xid
  xids := h.xids
  lawful hd hhd := by
    obtain ⟨hnonce, hnonzero, hrep, hbound⟩ := h.lawful hd hhd
    refine ⟨hnonce, hnonzero, hrep, hbound.imp id fun hb => ⟨hb.1, hk _ hb.2⟩⟩
  server := by
    have hs := h.server
    split_ifs at hs ⊢
    · exact hk _ hs
    · exact hs
  window := h.window
  reported := h.reported
  callers ca hca := by
    obtain ⟨hm, hx, ha⟩ := h.callers ca hca
    exact ⟨hm, hx, fun hd hr => he _ (ha hd hr)⟩
  dup := h.dup
  binding r hr := hk r (h.binding r hr)

/-- The xid tells which request it is. -/
theorem unique (h : c.Sound n known executed) {a b : ReqHeader} (ha : a ∈ c.made) (hb : b ∈ c.made)
    (hx : a.xid = b.xid) : a = b := by
  obtain ⟨i, hi⟩ := List.mem_iff_getElem?.mp ha
  obtain ⟨j, hj⟩ := List.mem_iff_getElem?.mp hb
  have hai := h.xids i a hi
  have hbj := h.xids j b hj
  rw [hx] at hai
  have hij : i = j := by omega
  subst hij
  rw [hi] at hj
  exact Option.some.inj hj

theorem xid_le (h : c.Sound n known executed) {a : ReqHeader} (ha : a ∈ c.made) :
    a.xid.toUInt32.toNat ≤ c.made.length := by
  obtain ⟨i, hi⟩ := List.mem_iff_getElem?.mp ha
  have hlt := (List.getElem?_eq_some_iff.mp hi).1
  rw [h.xids i a hi]
  omega

theorem report (h : c.Sound n known executed) {hd : ReqHeader} (hhd : hd ∈ c.made)
    (hs : c.report hd.xid.toUInt32 = some c') : c'.Sound n known executed := by
  obtain ⟨w, hw, rfl⟩ := report_eq_some hs
  refine ⟨h.nonce, h.xid, h.xids, h.lawful, h.server, reportAll_append h.window hw, ?_, h.callers,
    h.dup, h.binding⟩
  intro x hx
  obtain hx | hx := List.mem_append.mp hx
  · exact h.reported x hx
  · exact ⟨hd, hhd, (List.mem_singleton.mp hx).symm⟩

/-- Other callers, with requests of the client. -/
theorem withCallers (h : c.Sound n known executed) {calls leaving : List (Caller sum)}
    (hc : ∀ ca, ca ∈ calls ∨ ca ∈ leaving → ca.Sound n executed c.made) :
    ({ c with calls := calls, leaving := leaving } : Client sum).Sound n known executed :=
  ⟨h.nonce, h.xid, h.xids, h.lawful, h.server, h.window, h.reported, hc, h.dup, h.binding⟩

/-- A call that does not fail at once packs one header more. -/
theorem call1_eq_ok {proc : Int32} {args : Args sum} (hs : c.call1 proc args = some (.ok c')) :
    ∃ front, c.xidRepWindow.head? = some front ∧ (proc = bindProc ↔ ¬ c.bindDone = true) ∧
      c' = { c with
        xid := c.xid + 1
        calls := c.insert ⟨c.xid, args.pack ⟨c.xid.toInt32, proc, c.cltNonce, c.srvNonce,
          front.toInt32⟩, front.toInt32, false, 0, [], 0⟩
        made := c.made ++ [⟨c.xid.toInt32, proc, c.cltNonce, c.srvNonce, front.toInt32⟩] } := by
  unfold Client.call1 at hs
  split_ifs at hs with hbind hdestroy
  · cases Option.some.inj hs
  · cases Option.some.inj hs
  · obtain ⟨front, hfront, heq⟩ := Option.map_eq_some_iff.mp hs
    refine ⟨front, hfront, ?_, (Except.ok.inj heq).symm⟩
    constructor
    · intro hp hb
      exact hbind (Or.inr ⟨hp, hb⟩)
    · intro hb
      by_contra hp
      exact hbind (Or.inl ⟨hp, hb⟩)

theorem toNat_xid (h : c.Sound n known executed) (hlen : c.made.length + 1 < 2 ^ 32) :
    c.xid.toNat = c.made.length + 1 := by
  rw [h.xid, UInt32.toNat_ofNat']
  exact Nat.mod_eq_of_lt hlen

theorem front_lt (h : c.Sound n known executed) (hlen : c.made.length + 1 < 2 ^ 32) {front : UInt32}
    (hfront : c.xidRepWindow.head? = some front) : front < c.xid := by
  rw [UInt32.lt_iff_toNat_lt, h.toNat_xid hlen]
  obtain rfl | hrep := (front_of_reportAll h.window hfront).2
  · exact Nat.succ_pos _
  · obtain ⟨hd, hhd, rfl⟩ := h.reported front hrep
    exact Nat.lt_succ_of_le (h.xid_le hhd)

theorem call1 (h : c.Sound n known executed) (hn : n ≠ 0) (hlen : c.made.length + 1 < 2 ^ 32)
    {proc : Int32} {args : Args sum} (hs : c.call1 proc args = some (.ok c')) :
    c'.Sound n known executed := by
  obtain ⟨front, hfront, hproc, rfl⟩ := call1_eq_ok hs
  have hxid := h.toNat_xid hlen
  have hlt := h.front_lt hlen hfront
  refine ⟨h.nonce, ?_, ?_, ?_, h.server, h.window, ?_, ?_, ?_, h.binding⟩
  · apply UInt32.toNat_inj.mp
    dsimp only
    rw [List.length_append, List.length_singleton, UInt32.toNat_add, hxid, UInt32.toNat_ofNat']
    rfl
  · intro k hd hk
    rw [List.getElem?_append] at hk
    split_ifs at hk with hlt
    · exact h.xids k hd hk
    · have hzero : k - c.made.length = 0 := by
        have hbound := (List.getElem?_eq_some_iff.mp hk).1
        rw [List.length_singleton] at hbound
        omega
      rw [hzero] at hk
      rw [← Option.some.inj hk, UInt32.toUInt32_toInt32, hxid]
      omega
  · intro hd hhd
    obtain hhd | hhd := List.mem_append.mp hhd
    · exact h.lawful hd hhd
    · rw [List.mem_singleton.mp hhd]
      have hserver := h.server
      refine ⟨h.nonce, hn, ?_, ?_⟩
      · simpa only [UInt32.toUInt32_toInt32] using hlt
      · by_cases hp : proc = bindProc
        · rw [if_neg (hproc.mp hp)] at hserver
          exact Or.inl ⟨hp, hserver⟩
        · have hbound : c.bindDone = true := not_not.mp fun hb => hp (hproc.mpr hb)
          rw [if_pos hbound] at hserver
          exact Or.inr ⟨hp, hserver⟩
  · intro x hx
    obtain ⟨hd, hhd, heq⟩ := h.reported x hx
    exact ⟨hd, List.mem_append_left _ hhd, heq⟩
  · intro ca hca
    have hold : ∀ a : Caller sum, a ∈ c.calls ∨ a ∈ c.leaving → a.Sound n executed
        (c.made ++ [⟨c.xid.toInt32, proc, c.cltNonce, c.srvNonce, front.toInt32⟩]) := by
      intro a ha
      obtain ⟨hm, hx, hans⟩ := h.callers a ha
      exact ⟨List.mem_append_left _ hm, hx, hans⟩
    obtain hca | hca := hca
    · obtain hca | hca := List.mem_append.mp hca
      · exact hold ca (Or.inl (List.mem_filter.mp hca).1)
      · rw [List.mem_singleton.mp hca]
        refine ⟨List.mem_append_right _ List.mem_cons_self, UInt32.toUInt32_toInt32 _, ?_⟩
        intro hdone
        cases hdone
    · exact hold ca (Or.inr hca)
  · intro r hr
    exact List.mem_append_left _ (h.dup r hr)

theorem transmit (h : c.Sound n known executed) {xid : UInt32} {rs : List (Request sum)}
    (hs : c.transmit xid = some (c', rs)) :
    c'.Sound n known executed ∧ c'.made = c.made ∧ ∀ r ∈ rs, r.header ∈ c.made := by
  unfold Client.transmit at hs
  obtain ⟨ca, hca, heq⟩ := Option.map_eq_some_iff.mp hs
  have hreq := (h.callers ca (Or.inl (List.mem_of_find?_eq_some hca))).made
  split at heq
  · next forgot hforgot =>
    obtain ⟨rfl, rfl⟩ := Prod.mk.inj heq
    have hdup : c.dupReq = some forgot := (Option.filter_eq_some_iff.mp
      (Option.filter_eq_some_iff.mp hforgot).1).1
    refine ⟨⟨h.nonce, h.xid, h.xids, h.lawful, h.server, h.window, h.reported, h.callers, ?_,
      h.binding⟩, rfl, ?_⟩
    · intro r hr
      cases hr
    · intro r hr
      cases hr with
      | head => exact h.dup _ hdup
      | tail _ hr =>
        rw [List.mem_singleton.mp hr]
        exact hreq
  · obtain ⟨rfl, rfl⟩ := Prod.mk.inj heq
    refine ⟨h, rfl, fun r hr => ?_⟩
    rw [List.mem_singleton.mp hr]
    exact hreq

/-- A reply that arrives is for the caller with its xid. -/
theorem gotPdu (h : c.Sound n known executed) {r : Response} (hclt : r.clt = n)
    (hr : r.Sound c.made executed) (hs : c.gotPdu r = some c') :
    c'.Sound n known executed ∧ c'.made = c.made := by
  unfold Client.gotPdu at hs
  obtain ⟨c₁, hc₁, rfl⟩ := Option.map_eq_some_iff.mp hs
  obtain ⟨hd, hhd, hxid, hans⟩ := hr
  rw [← hxid] at hc₁
  have h₁ := h.report hhd hc₁
  obtain ⟨w, -, rfl⟩ := report_eq_some hc₁
  refine ⟨h₁.withCallers fun ca hca => ?_, rfl⟩
  obtain hca | hca := hca
  · obtain ⟨a, ha, rfl⟩ := List.mem_map.mp hca
    have hsound := h.callers a (Or.inl ha)
    unfold Client.answer
    split_ifs with hmatch
    · have hreq : a.req.header = hd := by
        apply h.unique hsound.made hhd
        apply int_of_word
        rw [hsound.xid, hmatch.1, hxid]
      refine ⟨hsound.made, hsound.xid, fun _ hret => ?_⟩
      dsimp only at hret ⊢
      rw [hreq, ← hclt, ← hsound.xid, hreq]
      exact hans hret
    · exact hsound
  · exact h.callers ca (Or.inr hca)

theorem finish (h : c.Sound n known executed) {xid : UInt32} (hs : c.finish xid = some c') :
    c'.Sound n known executed ∧ c'.made = c.made := by
  unfold Client.finish at hs
  obtain ⟨ca, hca, hs⟩ := Option.bind_eq_some_iff.mp hs
  obtain ⟨c₁, hc₁, rfl⟩ := Option.map_eq_some_iff.mp hs
  have hsound := h.callers ca (Or.inl (List.mem_of_find?_eq_some hca))
  rw [← hsound.xid] at hc₁
  have h₁ := h.report hsound.made hc₁
  obtain ⟨w, -, rfl⟩ := report_eq_some hc₁
  refine ⟨h₁.withCallers fun a ha => ?_, rfl⟩
  obtain ha | ha := ha
  · exact h.callers a (Or.inl (List.mem_filter.mp ha).1)
  · obtain ha | ha := List.mem_append.mp ha
    · exact h.callers a (Or.inr ha)
    · rw [List.mem_singleton.mp ha]
      exact hsound

theorem cancel (h : c.Sound n known executed) : c.cancel.Sound n known executed := by
  refine ⟨h.nonce, h.xid, h.xids, h.lawful, h.server, h.window, h.reported, fun ca hca => ?_, h.dup,
    h.binding⟩
  obtain hca | hca := hca
  · obtain ⟨a, ha, rfl⟩ := List.mem_map.mp hca
    obtain ⟨hm, hx, -⟩ := h.callers a (Or.inl ha)
    refine ⟨hm, hx, fun _ hret => ?_⟩
    have hneg : ¬ 0 ≤ cancelFailure := by decide
    exact absurd hret hneg
  · exact h.callers ca (Or.inr hca)

theorem keepDup (h : c.Sound n known executed) {ca : Caller sum} (hca : ca.Sound n executed c.made) :
    (c.keepDup ca).Sound n known executed := by
  unfold Client.keepDup
  by_cases hkeep : ca.done = true ∧ c.lossytest = true
  · rw [if_pos hkeep]
    refine ⟨h.nonce, h.xid, h.xids, h.lawful, h.server, h.window, h.reported, h.callers, ?_,
      h.binding⟩
    intro r hr
    obtain rfl := Option.some.inj hr
    cases hdup : c.dup with
    | none => exact hca.made
    | some q => exact h.dup q (Option.filter_eq_some_iff.mp hdup).1
  · rw [if_neg hkeep]
    exact h

theorem bindNonce_netBytes (nonce : UInt32) : Client.bindNonce (netBytes nonce) = some nonce := by
  have hword := netWord_append nonce []
  rw [List.append_nil] at hword
  unfold Client.bindNonce
  rw [length_netBytes, if_pos rfl, hword]

/-- A call returns what its caller has, and `bind` gets the nonce of a server. -/
theorem ret (h : c.Sound n known executed)
    (hbind : ∀ t v, (t, v) ∈ executed → t.proc = bindProc →
      v = (0, netBytes t.srv) ∧ t.srv ∈ known)
    {k : ℕ} {r : Return} (hs : c.ret k = some (r, c')) :
    c'.Sound n known executed ∧ c'.made = c.made ∧ r.clt = n ∧
      ∃ ca ∈ c.leaving, r.xid = ca.xid ∧ (0 ≤ r.ret →
        (⟨r.srv, n, r.xid, ca.req.header.proc⟩, r.ret, r.body) ∈ executed) := by
  unfold Client.ret at hs
  obtain ⟨ca, hk, hs⟩ := Option.bind_eq_some_iff.mp hs
  have hmem := List.mem_of_getElem? hk
  have hca := h.callers ca (Or.inr hmem)
  have h₁ : ({ c with leaving := c.leaving.eraseIdx k } : Client sum).Sound n known executed :=
    h.withCallers fun a ha => h.callers a (ha.imp id List.mem_of_mem_eraseIdx)
  have h₂ := h₁.keepDup hca
  generalize hc₂ : Client.keepDup { c with leaving := c.leaving.eraseIdx k } ca = c₂ at hs h₂
  have hmade : c₂.made = c.made := by
    rw [← hc₂]
    unfold Client.keepDup
    split_ifs <;> rfl
  -- a value that is no failure is the one of the reply
  have hvalue : 0 ≤ (if ca.done then ca.intret else timeoutFailure) → ca.done = true ∧
      (⟨ca.srv, n, ca.xid, ca.req.header.proc⟩, (if ca.done then ca.intret else timeoutFailure),
        ca.body) ∈ executed := by
    intro hret
    by_cases hdone : ca.done = true
    · rw [if_pos hdone] at hret ⊢
      exact ⟨hdone, hca.answered hdone hret⟩
    · rw [if_neg hdone] at hret
      exact absurd hret (by decide)
  generalize (if ca.done then ca.intret else timeoutFailure) = value at hs hvalue
  dsimp only at hs
  by_cases hproc : ca.req.header.proc = bindProc ∧ 0 ≤ value
  · rw [if_pos hproc] at hs
    obtain ⟨nonce, hnonce, heq⟩ := Option.map_eq_some_iff.mp hs
    obtain ⟨hr, hc'⟩ := Prod.mk.inj heq
    have hexec := (hvalue hproc.2).2
    obtain ⟨hval, hknown⟩ := hbind _ _ hexec hproc.1
    have hbody : ca.body = netBytes ca.srv := congrArg Prod.snd hval
    rw [hbody, bindNonce_netBytes] at hnonce
    obtain rfl := Option.some.inj hnonce
    rw [← hr, ← hc', ← hmade]
    refine ⟨?_, ?_, h₂.nonce, ca, hmem, rfl, fun _ => hexec⟩
    · split_ifs
      · refine ⟨h₂.nonce, h₂.xid, h₂.xids, h₂.lawful, h₂.server, h₂.window, h₂.reported,
          h₂.callers, h₂.dup, fun x hx => ?_⟩
        obtain hx | hx := List.mem_append.mp hx
        · exact h₂.binding x hx
        · rw [List.mem_singleton.mp hx]
          exact hknown
      · exact h₂
    · split_ifs <;> rfl
  · rw [if_neg hproc] at hs
    obtain ⟨rfl, rfl⟩ := Prod.mk.inj (Option.some.inj hs)
    exact ⟨h₂, hmade, h₂.nonce, ca, hmem, rfl, fun hret => (hvalue hret).2⟩

theorem bind (h : c.Sound n known executed) {k : ℕ} (hs : c.bind k = some c') :
    c'.Sound n known executed ∧ c'.made = c.made := by
  obtain ⟨nonce, hk, rfl⟩ := Option.map_eq_some_iff.mp hs
  have hnonce := h.binding nonce (List.mem_of_getElem? hk)
  refine ⟨⟨h.nonce, h.xid, h.xids, h.lawful, ?_, h.window, h.reported, h.callers, h.dup, ?_⟩, rfl⟩
  · exact hnonce
  · exact fun r hr => h.binding r (List.mem_of_mem_eraseIdx hr)

end Client.Sound

end Yfs.Rpc
