import Yfs.Rpc.Service

/-! Calls between clients and a server that restarts: each is executed at most once. -/
namespace Yfs.Rpc
open Effect

variable {sum : Bool}

/-- What an event may do: the nonces of a client and of a new server are not zero, a server does not
get a nonce twice, and a client uses fewer than 2^32 xids. -/
def System.allowed (s : System sum) : SystemEvent sum → Bool
  | .call n _ _ => n ≠ 0 && (s.made n).length + 1 < 2 ^ 32
  | .host (.restart nonce _) => nonce ≠ 0 && nonce ∉ s.host.instances
  | _ => true

/-- What holds between two events. -/
structure System.Sound (s : System sum) : Prop where
  clients : ∀ n, (s.clients n).Sound n s.host.instances s.host.executed
  host : s.host.Sound s.made
  replies : ∀ r ∈ s.replies, r.Sound (s.made r.clt) s.host.executed
  returned : ∀ r ∈ s.returned, 0 ≤ r.ret →
    ∃ proc, (⟨r.srv, r.clt, r.xid, proc⟩, r.ret, r.body) ∈ s.host.executed

section Keys

variable {α β : Type} {l : List α} {key : α → β}

end Keys

section Host

variable {made : UInt32 → List ReqHeader} {h h' : Host sum} {rs : List Response}

/-- A new instance with a nonce that no other had. -/
theorem Host.Sound.restart (hs : h.Sound made) {nonce : UInt32} (hn : nonce ≠ 0)
    (hnew : nonce ∉ h.instances) (procs : List Int32) :
    ({ h with
      rpcs := Rpcs.init sum nonce procs
      sent := []
      instances := h.instances ++ [nonce]
      received := [] } : Host sum).Sound made where
  format := rfl
  nonce := List.mem_append_right _ List.mem_cons_self
  nonzero n hn' := by
    obtain hn' | hn' := List.mem_append.mp hn'
    · exact hs.nonzero n hn'
    · rwa [List.mem_singleton.mp hn']
  arriving p hp := by cases hp
  queued j hj := by cases hj
  recorded n c hc := by cases hc
  running i d hd := by cases hd
  distinct i j d d' hd := by cases hd
  remembers :=
    { sorted := fun _ => List.Pairwise.nil
      known := fun t ht hsrv => by
        have hmem := (hs.books.begun t ht).1
        have hsrv' : t.srv = nonce := hsrv
        rw [hsrv'] at hmem
        exact absurd hmem hnew
      kept := fun n r hr => by cases hr }
  books :=
    { begun := fun t ht => ⟨List.mem_append_left _ (hs.books.begun t ht).1, (hs.books.begun t ht).2⟩
      executed := hs.books.executed
      begunOnce := hs.books.begunOnce
      executedOnce := hs.books.executedOnce }

/-- Every event at the server. -/
theorem Host.Sound.step (hM : Ledger made h.instances) (hs : h.Sound made) {e : HostEvent}
    (he : ∀ nonce procs, e = .restart nonce procs → nonce ≠ 0 ∧ nonce ∉ h.instances)
    (hstep : h.step e = some (h', rs)) :
    h'.Sound made ∧ (∀ x ∈ h.instances, x ∈ h'.instances) ∧
      (∀ x ∈ h.executed, x ∈ h'.executed) ∧ ∀ q ∈ rs, q.Sound (made q.clt) h'.executed := by
  have hnil : ∀ {t : Host sum}, ∀ q ∈ ([] : List Response), q.Sound (made q.clt) t.executed :=
    fun q hq => absurd hq List.not_mem_nil
  cases e with
  | accept n fd time =>
    obtain ⟨r, hr, heq⟩ := Option.map_eq_some_iff.mp hstep
    obtain ⟨rfl, rfl⟩ := Prod.mk.inj heq
    have ho := step_outside (fun i ret body hne => by cases hne) hr
    refine ⟨hs.outside hM ho (fun c hc => ?_) (fun c buf sz hne => by cases hne), fun _ => id,
      fun _ => id, hnil⟩
    rw [Function.update_of_ne (Nat.ne_of_lt hc)]
  | server e =>
    unfold Host.step at hstep
    dsimp only at hstep
    split_ifs at hstep with hown
    obtain ⟨r, hr, heq⟩ := Option.map_eq_some_iff.mp hstep
    obtain ⟨rfl, rfl⟩ := Prod.mk.inj heq
    have hgo : ∀ i ret body, e ≠ .go i ret body := by
      rintro i ret body rfl
      cases hown
    refine ⟨hs.outside hM (step_outside hgo hr) (fun _ _ => rfl) (fun c buf sz hpdu => ?_),
      fun _ => id, fun _ => id, hnil⟩
    rw [hpdu] at hown
    cases hown
  | deliver k succ =>
    obtain ⟨p, hp, hstep⟩ := Option.bind_eq_some_iff.mp hstep
    obtain ⟨r, hr, heq⟩ := Option.map_eq_some_iff.mp hstep
    obtain ⟨rfl, rfl⟩ := Prod.mk.inj heq
    have ho := step_outside (fun i ret body hne => by cases hne) hr
    have hout : ({ h with rpcs := r } : Host sum).Sound made :=
      hs.outside hM ho (fun _ _ => rfl) fun c buf sz hpdu => by
        cases hpdu
        exact ⟨p.2, rfl, rfl, (hs.arriving p (List.mem_of_getElem? hp)).2⟩
    refine ⟨hout.withSent fun q hq => hout.arriving q ?_, fun _ => id, fun _ => id, hnil⟩
    split_ifs at hq
    · exact List.mem_of_mem_eraseIdx hq
    · exact hq
  | lose k =>
    obtain ⟨rfl, rfl⟩ := Prod.mk.inj (Option.some.inj hstep)
    exact ⟨hs.withSent fun q hq => hs.arriving q (List.mem_of_mem_eraseIdx hq), fun _ => id,
      fun _ => id, hnil⟩
  | go i ret body =>
    obtain ⟨d, hd, hstep⟩ := Option.bind_eq_some_iff.mp hstep
    obtain ⟨h₁, hgo, heq⟩ := Option.map_eq_some_iff.mp hstep
    obtain ⟨rfl, rfl⟩ := Prod.mk.inj heq
    obtain ⟨r, res, ho, rfl, hbind⟩ := Host.Sound.go_cases hd hgo
    exact ⟨Host.Sound.after_sound hM hs hd ho hbind, fun _ => id,
      fun _ => Host.Sound.mem_executed_after, Host.Sound.answers_sound hs hd⟩
  | restart nonce procs =>
    obtain ⟨rfl, rfl⟩ := Prod.mk.inj (Option.some.inj hstep)
    obtain ⟨hn, hnew⟩ := he nonce procs rfl
    exact ⟨hs.restart hn hnew procs, fun _ => List.mem_append_left _, fun _ => id, hnil⟩

end Host

/-- A call that fails at once has no value of a handler. -/
theorem call1_eq_error {c : Client sum} {proc value : Int32} {args : Args sum}
    (hs : c.call1 proc args = some (.error value)) : value < 0 := by
  unfold Client.call1 at hs
  split_ifs at hs with hbind hdestroy
  · obtain rfl := Except.error.inj (Option.some.inj hs)
    decide
  · obtain rfl := Except.error.inj (Option.some.inj hs)
    decide
  · obtain ⟨front, -, heq⟩ := Option.map_eq_some_iff.mp hs
    cases heq

namespace System.Sound

variable {s s' : System sum}

theorem init {nonce : UInt32} (hn : nonce ≠ 0) (procs : List Int32) (lossytest : Bool) :
    (System.init nonce procs lossytest : System sum).Sound where
  clients n := .init n lossytest
  host := .init hn procs
  replies r hr := by cases hr
  returned r hr := by cases hr

theorem ledger (h : s.Sound) : Ledger s.made s.host.instances where
  lawful n := (h.clients n).lawful
  unique n _ ha _ hb := (h.clients n).unique ha hb

/-- What happens at one client, which may pack a header more. -/
theorem withClient (h : s.Sound) {n : UInt32} {c : Client sum}
    (hc : c.Sound n s.host.instances s.host.executed)
    (hm : ∀ hd ∈ (s.clients n).made, hd ∈ c.made) : (s.setClient n c).Sound := by
  refine ⟨fun m => ?_, h.host.mono fun m hd hhd => System.mem_made_setClient hm hhd,
    fun r hr => ?_, h.returned⟩
  · rw [System.clients_setClient]
    split_ifs with hmn
    · rw [hmn]
      exact hc
    · exact h.clients m
  · obtain ⟨hd, hhd, hx, hexec⟩ := h.replies r hr
    exact ⟨hd, System.mem_made_setClient hm hhd, hx, hexec⟩

theorem withReplies (h : s.Sound) {rs : List Response}
    (hr : ∀ r ∈ rs, r.Sound (s.made r.clt) s.host.executed) :
    ({ s with replies := rs } : System sum).Sound :=
  ⟨h.clients, h.host, hr, h.returned⟩

theorem withReturned (h : s.Sound) {r : Return}
    (hr : 0 ≤ r.ret → ∃ proc, (⟨r.srv, r.clt, r.xid, proc⟩, r.ret, r.body) ∈ s.host.executed) :
    ({ s with returned := s.returned ++ [r] } : System sum).Sound := by
  refine ⟨h.clients, h.host, h.replies, fun q hq hret => ?_⟩
  obtain hq | hq := List.mem_append.mp hq
  · exact h.returned q hq hret
  · obtain rfl := List.mem_singleton.mp hq
    exact hr hret

/-- Every event, as far as it is allowed. -/
theorem step (h : s.Sound) {e : SystemEvent sum} (he : s.allowed e = true)
    (hs : s.step e = some s') : s'.Sound := by
  cases e with
  | host e =>
    obtain ⟨⟨host, rs⟩, hstep, rfl⟩ := Option.map_eq_some_iff.mp hs
    have hrestart : ∀ nonce procs, e = .restart nonce procs →
        nonce ≠ 0 ∧ nonce ∉ s.host.instances := by
      rintro nonce procs rfl
      simpa [System.allowed] using he
    obtain ⟨hhost, hinst, hexec, hrs⟩ := h.host.step h.ledger hrestart hstep
    refine ⟨fun n => (h.clients n).mono hinst hexec, hhost, fun r hr => ?_, fun r hr hret => ?_⟩
    · obtain hr | hr := List.mem_append.mp hr
      · obtain ⟨hd, hhd, hx, hold⟩ := h.replies r hr
        exact ⟨hd, hhd, hx, fun hret => hexec _ (hold hret)⟩
      · exact hrs r hr
    · obtain ⟨proc, hmem⟩ := h.returned r hr hret
      exact ⟨proc, hexec _ hmem⟩
  | call n proc args =>
    obtain ⟨res, hcall, rfl⟩ := Option.map_eq_some_iff.mp hs
    simp only [System.allowed, Bool.and_eq_true, decide_eq_true_eq] at he
    cases res with
    | error value =>
      exact h.withReturned fun hret => absurd hret (Int32.not_le.mpr (call1_eq_error hcall))
    | ok c =>
      refine h.withClient ((h.clients n).call1 he.1 he.2 hcall) fun hd hhd => ?_
      obtain ⟨front, -, -, rfl⟩ := Client.Sound.call1_eq_ok hcall
      exact List.mem_append_left _ hhd
  | transmit n xid conn =>
    unfold System.step at hs
    dsimp only at hs
    split_ifs at hs with hconn
    obtain ⟨⟨c, rs⟩, htr, rfl⟩ := Option.map_eq_some_iff.mp hs
    obtain ⟨hc, hmade, hrs⟩ := (h.clients n).transmit htr
    have h₁ := h.withClient hc fun hd hhd => hmade ▸ hhd
    refine ⟨h₁.clients, h₁.host.withSent fun p hp => ?_, h₁.replies, h₁.returned⟩
    obtain hp | hp := List.mem_append.mp hp
    · exact h₁.host.arriving p hp
    · obtain ⟨q, hq, rfl⟩ := List.mem_map.mp hp
      refine ⟨hconn.1, ?_⟩
      have hn : (s.setClient n c).host.owner conn = n := hconn.2
      rw [hn]
      change q.header ∈ (s.setClient n c).made n
      rw [System.made_setClient, if_pos rfl, hmade]
      exact hrs q hq
  | reply k =>
    obtain ⟨r, hk, hs⟩ := Option.bind_eq_some_iff.mp hs
    obtain ⟨c, hgot, rfl⟩ := Option.map_eq_some_iff.mp hs
    have hr := List.mem_of_getElem? hk
    obtain ⟨hc, hmade⟩ := (h.clients r.clt).gotPdu rfl (h.replies r hr) hgot
    have h₁ := h.withClient hc fun hd hhd => hmade ▸ hhd
    exact h₁.withReplies fun q hq => h₁.replies q (List.mem_of_mem_eraseIdx hq)
  | loseReply k =>
    obtain rfl := Option.some.inj hs
    exact h.withReplies fun q hq => h.replies q (List.mem_of_mem_eraseIdx hq)
  | finish n xid =>
    obtain ⟨c, hfin, rfl⟩ := Option.map_eq_some_iff.mp hs
    obtain ⟨hc, hmade⟩ := (h.clients n).finish hfin
    exact h.withClient hc fun hd hhd => hmade ▸ hhd
  | ret n k =>
    obtain ⟨⟨r, c⟩, hret, rfl⟩ := Option.map_eq_some_iff.mp hs
    have hbind : ∀ t v, (t, v) ∈ s.host.executed → t.proc = bindProc →
        v = (0, netBytes t.srv) ∧ t.srv ∈ s.host.instances := by
      intro t v ht hproc
      obtain ⟨hbegun, hvalue⟩ := h.host.books.executed _ ht
      exact ⟨hvalue hproc, (h.host.books.begun t hbegun).1⟩
    obtain ⟨hc, hmade, hclt, ca, -, -, hexec⟩ := (h.clients n).ret hbind hret
    have h₁ := h.withClient hc fun hd hhd => hmade ▸ hhd
    refine h₁.withReturned fun hr => ⟨ca.req.header.proc, ?_⟩
    dsimp only at hclt hr hexec ⊢
    rw [hclt]
    exact hexec hr
  | bind n k =>
    obtain ⟨c, hbind, rfl⟩ := Option.map_eq_some_iff.mp hs
    obtain ⟨hc, hmade⟩ := (h.clients n).bind hbind
    exact h.withClient hc fun hd hhd => hmade ▸ hhd
  | cancel n =>
    obtain rfl := Option.some.inj hs
    exact h.withClient (h.clients n).cancel fun hd hhd => hhd

end System.Sound

end Yfs.Rpc
