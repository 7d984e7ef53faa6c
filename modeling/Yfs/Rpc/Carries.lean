import Yfs.Rpc.AtMostOnce

/-! Where the requests are: in their callers, on a connection, or in the queue of the server. No
event alters one on its way, and only a call makes a new one. -/
namespace Yfs.Rpc
open Effect

variable {sum : Bool}

/-- A request that the client may still send. -/
def Client.Has (c : Client sum) (q : Request sum) : Prop :=
  (∃ ca, (ca ∈ c.calls ∨ ca ∈ c.leaving) ∧ ca.req = q) ∨ c.dupReq = some q

namespace Client.Has

variable {c c' : Client sum} {q : Request sum}

/-- Callers are only taken away or changed in what they have got. -/
theorem of_callers (h : c'.Has q)
    (hc : ∀ ca, ca ∈ c'.calls ∨ ca ∈ c'.leaving → ∃ a, (a ∈ c.calls ∨ a ∈ c.leaving) ∧
      a.req = ca.req)
    (hd : c'.dupReq = c.dupReq) : c.Has q := by
  obtain ⟨ca, hca, rfl⟩ | hq := h
  · exact Or.inl (hc ca hca)
  · exact Or.inr (hd ▸ hq)

theorem report {xid : UInt32} (hs : c.report xid = some c') (h : c'.Has q) : c.Has q := by
  obtain ⟨w, -, rfl⟩ := report_eq_some hs
  exact h

/-- A call makes one request. -/
theorem call1 {proc : Int32} {args : Args sum} (hs : c.call1 proc args = some (.ok c'))
    (h : c'.Has q) : c.Has q ∨ ∃ hd, c'.made = c.made ++ [hd] ∧ q = args.pack hd := by
  obtain ⟨front, -, -, rfl⟩ := Client.Sound.call1_eq_ok hs
  obtain ⟨ca, hca | hca, rfl⟩ | hq := h
  · obtain hca | hca := List.mem_append.mp hca
    · exact Or.inl (Or.inl ⟨ca, Or.inl (List.mem_filter.mp hca).1, rfl⟩)
    · rw [List.mem_singleton.mp hca]
      exact Or.inr ⟨_, rfl, rfl⟩
  · exact Or.inl (Or.inl ⟨ca, Or.inr hca, rfl⟩)
  · exact Or.inl (Or.inr hq)

/-- What is sent was there to be sent. -/
theorem transmit {xid : UInt32} {rs : List (Request sum)} (hs : c.transmit xid = some (c', rs)) :
    (∀ q, c'.Has q → c.Has q) ∧ ∀ q ∈ rs, c.Has q := by
  unfold Client.transmit at hs
  obtain ⟨ca, hca, heq⟩ := Option.map_eq_some_iff.mp hs
  have hreq : c.Has ca.req := Or.inl ⟨ca, Or.inl (List.mem_of_find?_eq_some hca), rfl⟩
  split at heq
  · next forgot hforgot =>
    obtain ⟨rfl, rfl⟩ := Prod.mk.inj heq
    have hdup : c.dupReq = some forgot := (Option.filter_eq_some_iff.mp
      (Option.filter_eq_some_iff.mp hforgot).1).1
    refine ⟨fun q hq => ?_, fun q hq => ?_⟩
    · obtain hq | hq := hq
      · exact Or.inl hq
      · cases hq
    · cases hq with
      | head => exact Or.inr hdup
      | tail _ hq =>
        rw [List.mem_singleton.mp hq]
        exact hreq
  · obtain ⟨rfl, rfl⟩ := Prod.mk.inj heq
    refine ⟨fun q hq => hq, fun q hq => ?_⟩
    rw [List.mem_singleton.mp hq]
    exact hreq

theorem gotPdu {r : Response} (hs : c.gotPdu r = some c') (h : c'.Has q) : c.Has q := by
  unfold Client.gotPdu at hs
  obtain ⟨c₁, hc₁, rfl⟩ := Option.map_eq_some_iff.mp hs
  refine report hc₁ (h.of_callers (fun ca hca => ?_) rfl)
  obtain hca | hca := hca
  · obtain ⟨a, ha, rfl⟩ := List.mem_map.mp hca
    refine ⟨a, Or.inl ha, ?_⟩
    unfold Client.answer
    split_ifs <;> rfl
  · exact ⟨ca, Or.inr hca, rfl⟩

theorem finish {xid : UInt32} (hs : c.finish xid = some c') (h : c'.Has q) : c.Has q := by
  unfold Client.finish at hs
  obtain ⟨a, ha, hs⟩ := Option.bind_eq_some_iff.mp hs
  obtain ⟨c₁, hc₁, rfl⟩ := Option.map_eq_some_iff.mp hs
  obtain ⟨w, -, rfl⟩ := report_eq_some hc₁
  refine h.of_callers (fun ca hca => ?_) rfl
  obtain hca | hca := hca
  · exact ⟨ca, Or.inl (List.mem_filter.mp hca).1, rfl⟩
  · obtain hca | hca := List.mem_append.mp hca
    · exact ⟨ca, Or.inr hca, rfl⟩
    · rw [List.mem_singleton.mp hca]
      exact ⟨a, Or.inl (List.mem_of_find?_eq_some ha), rfl⟩

theorem cancel (h : c.cancel.Has q) : c.Has q := by
  refine h.of_callers (fun ca hca => ?_) rfl
  obtain hca | hca := hca
  · obtain ⟨a, ha, rfl⟩ := List.mem_map.mp hca
    exact ⟨a, Or.inl ha, rfl⟩
  · exact ⟨ca, Or.inr hca, rfl⟩

/-- The request that is kept for a lossy network is the caller's, or has been kept before. -/
theorem keepDup {ca : Caller sum} (h : (c.keepDup ca).Has q) : c.Has q ∨ q = ca.req := by
  by_cases hkeep : ca.done = true ∧ c.lossytest = true
  · rw [Client.keepDup, if_pos hkeep] at h
    obtain hq | hq := h
    · exact Or.inl (Or.inl hq)
    · obtain rfl := Option.some.inj hq
      cases hdup : c.dup with
      | none => exact Or.inr rfl
      | some d => exact Or.inl (Or.inr (Option.filter_eq_some_iff.mp hdup).1)
  · rw [Client.keepDup, if_neg hkeep] at h
    exact Or.inl h

theorem ret {k : ℕ} {r : Return} (hs : c.ret k = some (r, c')) (h : c'.Has q) : c.Has q := by
  unfold Client.ret at hs
  obtain ⟨ca, hk, hs⟩ := Option.bind_eq_some_iff.mp hs
  have hkeep : (Client.keepDup { c with leaving := c.leaving.eraseIdx k } ca).Has q → c.Has q := by
    intro hq
    obtain hq | rfl := keepDup hq
    · refine hq.of_callers (fun a ha => ?_) rfl
      exact ⟨a, ha.imp id List.mem_of_mem_eraseIdx, rfl⟩
    · exact Or.inl ⟨ca, Or.inr (List.mem_of_getElem? hk), rfl⟩
  generalize Client.keepDup { c with leaving := c.leaving.eraseIdx k } ca = c₂ at hs hkeep
  apply hkeep
  dsimp only at hs
  generalize (if ca.done then ca.intret else timeoutFailure) = value at hs
  by_cases hproc : ca.req.header.proc = bindProc ∧ 0 ≤ value
  · rw [if_pos hproc] at hs
    obtain ⟨nonce, -, heq⟩ := Option.map_eq_some_iff.mp hs
    rw [← (Prod.mk.inj heq).2] at h
    split_ifs at h
    · exact h
    · exact h
  · rw [if_neg hproc] at hs
    rwa [(Prod.mk.inj (Option.some.inj hs)).2]

theorem bind {k : ℕ} (hs : c.bind k = some c') (h : c'.Has q) : c.Has q := by
  obtain ⟨nonce, -, rfl⟩ := Option.map_eq_some_iff.mp hs
  exact h

end Client.Has

/-- Every request, wherever it is, satisfies `P` for the client that it is of. -/
structure System.Carries (P : UInt32 → (ℕ → UInt8) → ℕ → Prop) (s : System sum) : Prop where
  clients : ∀ n q, (s.clients n).Has q → P n q.buf q.sz
  sent : ∀ p ∈ s.host.sent, P (s.host.owner p.1) p.2.buf p.2.sz
  queue : ∀ j ∈ s.host.rpcs.queue, P (s.host.owner j.conn) j.buf j.sz

namespace System.Carries

variable {P P' : UInt32 → (ℕ → UInt8) → ℕ → Prop} {s s' : System sum}

theorem init (nonce : UInt32) (procs : List Int32) (lossytest : Bool) :
    (System.init nonce procs lossytest : System sum).Carries P where
  clients n q h := by
    obtain ⟨ca, hca | hca, -⟩ | hq := h
    · cases hca
    · cases hca
    · cases hq
  sent p hp := by cases hp
  queue j hj := by cases hj

theorem mono (h : s.Carries P) (hP : ∀ n buf sz, P n buf sz → P' n buf sz) : s.Carries P' :=
  ⟨fun n q hq => hP _ _ _ (h.clients n q hq), fun p hp => hP _ _ _ (h.sent p hp),
    fun j hj => hP _ _ _ (h.queue j hj)⟩

theorem withClient (h : s.Carries P) {n : UInt32} {c : Client sum}
    (hc : ∀ q, c.Has q → P n q.buf q.sz) : (s.setClient n c).Carries P := by
  refine ⟨fun m q hq => ?_, h.sent, h.queue⟩
  rw [System.clients_setClient] at hq
  split_ifs at hq with hm
  · rw [hm]
    exact hc q hq
  · exact h.clients m q hq

/-- An event of the server that is no step of a dispatch. -/
theorem outside (hs : s.Sound) (h : s.Carries P) {e : RpcsEvent} {r : Rpcs}
    (ho : s.host.rpcs.Outside e r) {owner : ℕ → UInt32}
    (howner : ∀ c < s.host.rpcs.made, owner c = s.host.owner c)
    (hpdu : ∀ c buf sz, e = .gotPdu c buf sz true → P (s.host.owner c) buf sz) :
    ({ s with host := { s.host with rpcs := r, owner := owner } } : System sum).Carries P := by
  have hqueue : ∀ j ∈ s.host.rpcs.queue, P (owner j.conn) j.buf j.sz := by
    intro j hj
    rw [howner j.conn (hs.host.queued j hj).1]
    exact h.queue j hj
  refine ⟨h.clients, fun p hp => ?_, fun j hj => ?_⟩
  · dsimp only
    rw [howner p.1 (hs.host.arriving p hp).1]
    exact h.sent p hp
  · dsimp only at hj ⊢
    obtain ⟨hq, -⟩ | ⟨c, buf, sz, he, hc, hq, -⟩ | ⟨i, j', q, -, -, hq, hq', -⟩ := ho.queue
    · exact hqueue j (hq ▸ hj)
    · rw [hq] at hj
      obtain hj | hj := List.mem_append.mp hj
      · exact hqueue j hj
      · rw [List.mem_singleton.mp hj]
        dsimp only
        rw [howner c hc]
        exact hpdu c buf sz he
    · rw [hq'] at hj
      exact hqueue j (hq ▸ List.mem_cons_of_mem _ hj)

theorem host (hs : s.Sound) (h : s.Carries P) {e : HostEvent} {t : Host sum} {rs : List Response}
    (hstep : s.host.step e = some (t, rs)) : ({ s with host := t } : System sum).Carries P := by
  cases e with
  | accept n fd time =>
    obtain ⟨r, hr, heq⟩ := Option.map_eq_some_iff.mp hstep
    obtain ⟨rfl, rfl⟩ := Prod.mk.inj heq
    refine h.outside hs (step_outside (fun i ret body hne => by cases hne) hr) (fun c hc => ?_)
      fun c buf sz hne => by cases hne
    exact Function.update_of_ne (Nat.ne_of_lt hc) _ _
  | server e =>
    unfold Host.step at hstep
    dsimp only at hstep
    split_ifs at hstep with hown
    obtain ⟨r, hr, heq⟩ := Option.map_eq_some_iff.mp hstep
    obtain ⟨rfl, rfl⟩ := Prod.mk.inj heq
    refine h.outside hs (step_outside (fun i ret body hne => ?_) hr) (fun _ _ => rfl)
      fun c buf sz hne => ?_
    · rw [hne] at hown
      cases hown
    · rw [hne] at hown
      cases hown
  | deliver k succ =>
    obtain ⟨p, hp, hstep⟩ := Option.bind_eq_some_iff.mp hstep
    obtain ⟨r, hr, heq⟩ := Option.map_eq_some_iff.mp hstep
    obtain ⟨rfl, rfl⟩ := Prod.mk.inj heq
    have hout := h.outside hs (step_outside (fun i ret body hne => by cases hne) hr)
      (fun _ _ => rfl) fun c buf sz hpdu => by
        cases hpdu
        exact h.sent p (List.mem_of_getElem? hp)
    refine ⟨hout.clients, fun q hq => hout.sent q ?_, hout.queue⟩
    dsimp only at hq
    split_ifs at hq
    · exact List.mem_of_mem_eraseIdx hq
    · exact hq
  | lose k =>
    obtain ⟨rfl, rfl⟩ := Prod.mk.inj (Option.some.inj hstep)
    exact ⟨h.clients, fun q hq => h.sent q (List.mem_of_mem_eraseIdx hq), h.queue⟩
  | go i ret body =>
    obtain ⟨d, hd, hstep⟩ := Option.bind_eq_some_iff.mp hstep
    obtain ⟨h₁, hgo, heq⟩ := Option.map_eq_some_iff.mp hstep
    obtain ⟨rfl, rfl⟩ := Prod.mk.inj heq
    obtain ⟨r, res, ho, rfl, -⟩ := Host.Sound.go_cases hd hgo
    refine ⟨h.clients, h.sent, fun j hj => h.queue j ?_⟩
    exact ho.queue ▸ hj
  | restart nonce procs =>
    obtain ⟨rfl, rfl⟩ := Prod.mk.inj (Option.some.inj hstep)
    exact ⟨h.clients, (fun p hp => by cases hp), fun j hj => by cases hj⟩

/-- Every event. Only a call makes a request. -/
theorem step (hs : s.Sound) (h : s.Carries P) {e : SystemEvent sum}
    (hcall : ∀ n proc args hd, e = .call n proc args → s'.made n = s.made n ++ [hd] →
      P n (args.pack hd).buf (args.pack hd).sz)
    (hstep : s.step e = some s') : s'.Carries P := by
  cases e with
  | host e =>
    obtain ⟨⟨t, rs⟩, hhost, rfl⟩ := Option.map_eq_some_iff.mp hstep
    have h₁ := h.host hs hhost
    exact ⟨h₁.clients, h₁.sent, h₁.queue⟩
  | call n proc args =>
    obtain ⟨res, hres, rfl⟩ := Option.map_eq_some_iff.mp hstep
    cases res with
    | error value => exact ⟨h.clients, h.sent, h.queue⟩
    | ok c =>
      refine h.withClient fun q hq => ?_
      obtain hq | ⟨hd, hmade, rfl⟩ := hq.call1 hres
      · exact h.clients n q hq
      · refine hcall n proc args hd rfl ?_
        dsimp only
        rw [System.made_setClient, if_pos rfl]
        exact hmade
  | transmit n xid conn =>
    unfold System.step at hstep
    dsimp only at hstep
    split_ifs at hstep with hconn
    obtain ⟨⟨c, rs⟩, htr, rfl⟩ := Option.map_eq_some_iff.mp hstep
    obtain ⟨hc, hrs⟩ := Client.Has.transmit htr
    have h₁ := h.withClient fun q hq => h.clients n q (hc q hq)
    refine ⟨h₁.clients, fun p hp => ?_, h₁.queue⟩
    obtain hp | hp := List.mem_append.mp hp
    · exact h₁.sent p hp
    · obtain ⟨q, hq, rfl⟩ := List.mem_map.mp hp
      have howner : s.host.owner conn = n := hconn.2
      change P (s.host.owner conn) q.buf q.sz
      rw [howner]
      exact h.clients n q (hrs q hq)
  | reply k =>
    obtain ⟨r, hk, hstep⟩ := Option.bind_eq_some_iff.mp hstep
    obtain ⟨c, hgot, rfl⟩ := Option.map_eq_some_iff.mp hstep
    have h₁ := h.withClient fun q hq => h.clients r.clt q (hq.gotPdu hgot)
    exact ⟨h₁.clients, h₁.sent, h₁.queue⟩
  | loseReply k =>
    obtain rfl := Option.some.inj hstep
    exact ⟨h.clients, h.sent, h.queue⟩
  | finish n xid =>
    obtain ⟨c, hfin, rfl⟩ := Option.map_eq_some_iff.mp hstep
    exact h.withClient fun q hq => h.clients n q (hq.finish hfin)
  | ret n k =>
    obtain ⟨⟨r, c⟩, hret, rfl⟩ := Option.map_eq_some_iff.mp hstep
    have h₁ := h.withClient fun q hq => h.clients n q (hq.ret hret)
    exact ⟨h₁.clients, h₁.sent, h₁.queue⟩
  | bind n k =>
    obtain ⟨c, hbind, rfl⟩ := Option.map_eq_some_iff.mp hstep
    exact h.withClient fun q hq => h.clients n q (hq.bind hbind)
  | cancel n =>
    obtain rfl := Option.some.inj hstep
    exact h.withClient fun q hq => h.clients n q hq.cancel

end System.Carries

end Yfs.Rpc
