import Yfs.Rpc.AtMostOnce

/-! Which requests a server refuses because it has forgotten them. -/
namespace Yfs.Rpc
open Effect

variable {sum : Bool}

/-- A request that is neither in the list of its client nor below it leaves some xid in the list
that is at most one above a report. -/
def Host.joins (h : Host sum) (d : Dispatch) : Bool :=
  let l := h.rpcs.window d.header.cltNonce
  let xid := d.header.xid.toUInt32
  let xidRep := d.header.xidRep.toUInt32
  l.any (fun a => a.xid = xid) || isOld l xid ||
    (xid :: l.map Reply.xid).any fun y => xidRep ≤ y &&
      ((d.header.cltNonce, xidRep) :: h.received).any fun m =>
        m.1 = d.header.cltNonce && y.toNat ≤ m.2.toNat + 1

def System.joins (s : System sum) : SystemEvent sum → Bool
  | .host (.go i _ _) =>
    match s.host.rpcs.active i with
    | none => true
    | some d => d.stage ≠ .check || s.host.joins d
  | _ => true

/-- What a client reports it has done with, and no call of it waits for. -/
structure Client.Reports (c : Client sum) : Prop where
  made : ∀ h ∈ c.made, ∀ x, 1 ≤ x → x ≤ h.xidRep.toUInt32 → x ∈ c.reported
  waiting : ∀ ca ∈ c.calls, ca.done = false → ca.xid ∉ c.reported

/-- The front of a list is at most one above a report, and reports come with requests. -/
structure Host.Fronts (made : UInt32 → List ReqHeader) (h : Host sum) : Prop where
  received : ∀ p ∈ h.received, ∃ hd ∈ made p.1, hd.xidRep.toUInt32 = p.2
  front : ∀ n a, (h.rpcs.window n).head? = some a →
    ∃ m, (n, m) ∈ h.received ∧ a.xid.toNat ≤ m.toNat + 1

structure System.Reported (s : System sum) : Prop where
  sound : s.Sound
  clients : ∀ n, (s.clients n).Reports
  host : s.host.Fronts s.made

section List

variable {β : Type} {l : List (Reply β)} {a b : Reply β} {x y xid xidRep : UInt32}

theorem head_le (h : Sorted l) (hb : l.head? = some b) (ha : a ∈ l) : b.xid ≤ a.xid := by
  cases l with
  | nil => cases ha
  | cons c l =>
    obtain rfl := Option.some.inj hb
    cases ha with
    | head => exact le_rfl
    | tail _ ha => exact le_of_lt ((List.pairwise_cons.mp h).1 a ha)

/-- The front after a new request is below whatever stays. -/
theorem head_new_le (h : Sorted l) (hne : ∀ r ∈ l, r.xid ≠ xid) (hy : y = xid ∨ ∃ a ∈ l, a.xid = y)
    (hrep : xidRep ≤ y)
    (hb : ((insertReply l (.ofXid xid)).dropWhile fun r => ¬ r.xid ≥ xidRep).head? = some b) :
    b.xid ≤ y := by
  have hs : Sorted ((insertReply l (.ofXid xid)).dropWhile fun r => ¬ r.xid ≥ xidRep) :=
    sorted_new h hne
  obtain rfl | ⟨a, ha, rfl⟩ := hy
  · exact head_le hs hb (ofXid_mem_new h hne hrep)
  · exact head_le hs hb ((mem_new h hne).mpr ⟨Or.inr ha, hrep⟩)

/-- The verdict on what is below the list. -/
theorem checkList_old (h : Sorted l) (hx : isOld l xid = true) :
    (checkList l xid xidRep).1 = .forgotten := by
  obtain ⟨-, hlt⟩ := (isOld_iff h).mp hx
  unfold checkList
  rw [find_eq_none fun r hr => ne_of_gt (hlt r hr)]
  dsimp only
  rw [if_pos hx]

end List

namespace Client.Reports

variable {n : UInt32} {known : List UInt32} {executed : List (Task × Int32 × List UInt8)}
  {c c' : Client sum}

theorem init (nonce : UInt32) (lossytest : Bool) :
    (Client.init nonce lossytest : Client sum).Reports where
  made h hh := by cases hh
  waiting ca hca := by cases hca

/-- What else changes does not matter. -/
theorem of_eq (h : c.Reports) (hm : c'.made = c.made) (hr : c'.reported = c.reported)
    (hc : c'.calls = c.calls) : c'.Reports where
  made := by
    rw [hm, hr]
    exact h.made
  waiting := by
    rw [hc, hr]
    exact h.waiting

/-- The new call has a xid that nobody can have reported. -/
theorem call1 (h : c.Reports) (hs : c.Sound n known executed) (hlen : c.made.length + 1 < 2 ^ 32)
    {proc : Int32} {args : Args sum} (hcall : c.call1 proc args = some (.ok c')) : c'.Reports := by
  obtain ⟨front, hfront, -, rfl⟩ := Client.Sound.call1_eq_ok hcall
  have hxid := hs.toNat_xid hlen
  refine ⟨fun hd hhd x h1 hx => ?_, fun ca hca hdone hrep => ?_⟩
  · obtain hhd | hhd := List.mem_append.mp hhd
    · exact h.made hd hhd x h1 hx
    · rw [List.mem_singleton.mp hhd] at hx
      dsimp only at hx
      rw [UInt32.toUInt32_toInt32] at hx
      exact (front_of_reportAll hs.window hfront).1 x h1 hx
  · obtain hca | hca := List.mem_append.mp hca
    · exact h.waiting ca (List.mem_filter.mp hca).1 hdone hrep
    · rw [List.mem_singleton.mp hca] at hrep
      obtain ⟨hd, hhd, heq⟩ := hs.reported _ hrep
      have hle := hs.xid_le hhd
      rw [heq, hxid] at hle
      omega

theorem gotPdu (h : c.Reports) {r : Response} (hs : c.gotPdu r = some c') : c'.Reports := by
  unfold Client.gotPdu at hs
  obtain ⟨c₁, hc₁, rfl⟩ := Option.map_eq_some_iff.mp hs
  obtain ⟨w, -, rfl⟩ := report_eq_some hc₁
  refine ⟨fun hd hhd x h1 hx => List.mem_append_left _ (h.made hd hhd x h1 hx),
    fun ca hca hdone hrep => ?_⟩
  obtain ⟨a, ha, rfl⟩ := List.mem_map.mp hca
  unfold Client.answer at hdone hrep
  split_ifs at hdone hrep with hmatch
  obtain hrep | hrep := List.mem_append.mp hrep
  · exact h.waiting a ha hdone hrep
  · exact hmatch ⟨List.mem_singleton.mp hrep, by simp [hdone]⟩

theorem finish (h : c.Reports) {xid : UInt32} (hs : c.finish xid = some c') : c'.Reports := by
  unfold Client.finish at hs
  obtain ⟨ca, -, hs⟩ := Option.bind_eq_some_iff.mp hs
  obtain ⟨c₁, hc₁, rfl⟩ := Option.map_eq_some_iff.mp hs
  obtain ⟨w, -, rfl⟩ := report_eq_some hc₁
  refine ⟨fun hd hhd x h1 hx => List.mem_append_left _ (h.made hd hhd x h1 hx),
    fun a ha hdone hrep => ?_⟩
  obtain ⟨ha, hne⟩ := List.mem_filter.mp ha
  obtain hrep | hrep := List.mem_append.mp hrep
  · exact h.waiting a ha hdone hrep
  · exact of_decide_eq_true hne (List.mem_singleton.mp hrep)

theorem transmit (h : c.Reports) {xid : UInt32} {rs : List (Request sum)}
    (hs : c.transmit xid = some (c', rs)) : c'.Reports := by
  unfold Client.transmit at hs
  obtain ⟨ca, -, heq⟩ := Option.map_eq_some_iff.mp hs
  split at heq
  · obtain ⟨rfl, -⟩ := Prod.mk.inj heq
    exact h.of_eq rfl rfl rfl
  · obtain ⟨rfl, -⟩ := Prod.mk.inj heq
    exact h

theorem cancel (h : c.Reports) : c.cancel.Reports := by
  refine ⟨h.made, fun ca hca hdone => ?_⟩
  obtain ⟨a, -, rfl⟩ := List.mem_map.mp hca
  cases hdone

theorem ret (h : c.Reports) {k : ℕ} {r : Return} (hs : c.ret k = some (r, c')) :
    c'.Reports ∧ c'.made = c.made := by
  unfold Client.ret at hs
  obtain ⟨ca, -, hs⟩ := Option.bind_eq_some_iff.mp hs
  have h₁ : (Client.keepDup { c with leaving := c.leaving.eraseIdx k } ca).Reports ∧
      (Client.keepDup { c with leaving := c.leaving.eraseIdx k } ca).made = c.made := by
    unfold Client.keepDup
    split_ifs <;> exact ⟨h.of_eq rfl rfl rfl, rfl⟩
  generalize Client.keepDup { c with leaving := c.leaving.eraseIdx k } ca = c₁ at hs h₁
  generalize (if ca.done then ca.intret else timeoutFailure) = value at hs
  dsimp only at hs
  by_cases hproc : ca.req.header.proc = bindProc ∧ 0 ≤ value
  · rw [if_pos hproc] at hs
    obtain ⟨nonce, -, heq⟩ := Option.map_eq_some_iff.mp hs
    obtain ⟨-, rfl⟩ := Prod.mk.inj heq
    split_ifs
    · exact ⟨h₁.1.of_eq rfl rfl rfl, h₁.2⟩
    · exact h₁
  · rw [if_neg hproc] at hs
    obtain ⟨-, rfl⟩ := Prod.mk.inj (Option.some.inj hs)
    exact h₁

theorem bind (h : c.Reports) {k : ℕ} (hs : c.bind k = some c') : c'.Reports := by
  obtain ⟨nonce, -, rfl⟩ := Option.map_eq_some_iff.mp hs
  exact h.of_eq rfl rfl rfl

end Client.Reports

namespace Host

variable {h : Host sum}

/-- A new request joins when some xid that the check leaves is at most one above a report. -/
theorem joins_iff_of_new {d : Dispatch}
    (hne : ∀ r ∈ h.rpcs.window d.header.cltNonce, r.xid ≠ d.header.xid.toUInt32)
    (hnew : isOld (h.rpcs.window d.header.cltNonce) d.header.xid.toUInt32 = false) :
    h.joins d = true ↔ ∃ y m,
      (y = d.header.xid.toUInt32 ∨ ∃ a ∈ h.rpcs.window d.header.cltNonce, a.xid = y) ∧
        d.header.xidRep.toUInt32 ≤ y ∧
        (d.header.cltNonce, m) ∈
          h.received ++ [(d.header.cltNonce, d.header.xidRep.toUInt32)] ∧
        y.toNat ≤ m.toNat + 1 := by
  have hnot : (h.rpcs.window d.header.cltNonce).any
      (fun a => a.xid = d.header.xid.toUInt32) = false := by
    rw [List.any_eq_false]
    exact fun r hr heq => hne r hr (of_decide_eq_true heq)
  unfold Host.joins
  simp only [hnot, hnew, Bool.false_or, List.any_eq_true, Bool.and_eq_true, decide_eq_true_eq]
  constructor
  · rintro ⟨y, hy, hrep, ⟨n, m⟩, hm, rfl, hle⟩
    refine ⟨y, m, by simpa using hy, hrep, ?_, hle⟩
    exact (List.perm_append_singleton _ _).symm.subset hm
  · rintro ⟨y, m, hy, hrep, hm, hle⟩
    refine ⟨y, by simpa using hy, hrep, (d.header.cltNonce, m), ?_, rfl, hle⟩
    exact (List.perm_append_singleton _ _).subset hm

theorem new_of_not_joins {d : Dispatch} (hj : h.joins d = false) :
    (∀ r ∈ h.rpcs.window d.header.cltNonce, r.xid ≠ d.header.xid.toUInt32) ∧
      isOld (h.rpcs.window d.header.cltNonce) d.header.xid.toUInt32 = false := by
  simp only [Host.joins, Bool.or_eq_false_iff, List.any_eq_false, decide_eq_true_eq] at hj
  exact hj.1

end Host

namespace Host.Fronts

variable {made made' : UInt32 → List ReqHeader} {h h' : Host sum}

theorem init (nonce : UInt32) (procs : List Int32) :
    (Host.init nonce procs : Host sum).Fronts made where
  received p hp := by cases hp
  front n a ha := by cases ha

theorem mono (hf : h.Fronts made) (hm : ∀ n, ∀ hd ∈ made n, hd ∈ made' n) : h.Fronts made' where
  received p hp := by
    obtain ⟨hd, hhd, heq⟩ := hf.received p hp
    exact ⟨hd, hm _ hd hhd, heq⟩
  front := hf.front

/-- Only a check matters. -/
theorem of_eq (hf : h.Fronts made) (hw : h'.rpcs.window = h.rpcs.window)
    (hr : h'.received = h.received) : h'.Fronts made where
  received := by
    rw [hr]
    exact hf.received
  front := by
    rw [hw, hr]
    exact hf.front

/-- What a check leaves of a list. -/
theorem head_checked (hf : h.Fronts made) (hs : ∀ n, Sorted (h.rpcs.window n)) {d : Dispatch}
    (hj : h.joins d = true) {a : Reply (Int32 × List UInt8)}
    (ha : ((h.rpcs.verdict d).2 d.header.cltNonce).head? = some a) :
    ∃ m, (d.header.cltNonce, m) ∈ h.received ++
      [(d.header.cltNonce, d.header.xidRep.toUInt32)] ∧ a.xid.toNat ≤ m.toNat + 1 := by
  have hold : (h.rpcs.window d.header.cltNonce).head? = some a → ∃ m, (d.header.cltNonce, m) ∈
      h.received ++ [(d.header.cltNonce, d.header.xidRep.toUInt32)] ∧
        a.xid.toNat ≤ m.toNat + 1 := by
    intro ha
    obtain ⟨m, hm, hle⟩ := hf.front _ a ha
    exact ⟨m, List.mem_append_left _ hm, hle⟩
  unfold Rpcs.verdict checkduplicateAndUpdate at ha
  dsimp only at ha
  rw [Function.update_self] at ha
  obtain ⟨r, -, -, -, he⟩ | ⟨r, -, -, -, he⟩ | ⟨-, -, he⟩ | ⟨hne, hfront, he⟩ :=
    checkList_cases (hs d.header.cltNonce) d.header.xid.toUInt32 d.header.xidRep.toUInt32
  · rw [he] at ha
    exact hold ha
  · rw [he] at ha
    exact hold ha
  · rw [he] at ha
    exact hold ha
  · rw [he] at ha
    have hnew : isOld (h.rpcs.window d.header.cltNonce) d.header.xid.toUInt32 = false := by
      rw [Bool.eq_false_iff]
      intro hold
      obtain ⟨hl, hlt⟩ := (isOld_iff (hs _)).mp hold
      obtain ⟨b, l, hb⟩ := List.exists_cons_of_ne_nil hl
      have hb' := hfront b (by rw [hb]; rfl)
      exact lt_asymm hb' (hlt b (by rw [hb]; exact List.mem_cons_self))
    obtain ⟨y, m, hy, hrep, hm, hle⟩ := (Host.joins_iff_of_new hne hnew).mp hj
    have hay := UInt32.le_iff_toNat_le.mp (head_new_le (hs _) hne hy hrep ha)
    exact ⟨m, hm, by omega⟩

/-- A step of a dispatch. -/
theorem after (hf : h.Fronts made) (hs : h.Sound made) {i : Worker}
    {d : Dispatch} {res : Option Dispatch} {r : Rpcs} {ret : Int32} {body : List UInt8}
    (hd : h.rpcs.active i = some d) (ho : d.Outcome h.rpcs r i ret body res)
    (hj : d.stage = .check → h.joins d = true) : (h.after r d res ret body).Fronts made := by
  have hwindow : (h.after r d res ret body).rpcs.window = h.rpcs.windowAfter d ret body := ho.window
  have hsorted := hs.remembers.sorted
  by_cases hst : d.stage = .check
  · have hreceived : (h.after r d res ret body).received =
        h.received ++ [(d.header.cltNonce, d.header.xidRep.toUInt32)] := if_pos hst
    have hverdict : h.rpcs.windowAfter d ret body = (h.rpcs.verdict d).2 := by
      unfold Rpcs.windowAfter
      rw [hst]
    refine ⟨fun p hp => ?_, fun n a ha => ?_⟩
    · rw [hreceived] at hp
      obtain hp | hp := List.mem_append.mp hp
      · exact hf.received p hp
      · rw [List.mem_singleton.mp hp]
        exact ⟨d.header, (hs.running i d hd).made, rfl⟩
    · rw [hwindow, hverdict] at ha
      rw [hreceived]
      by_cases hn : n = d.header.cltNonce
      · subst hn
        exact hf.head_checked hsorted (hj hst) ha
      · unfold Rpcs.verdict checkduplicateAndUpdate at ha
        dsimp only at ha
        rw [Function.update_of_ne hn] at ha
        obtain ⟨m, hm, hle⟩ := hf.front n a ha
        exact ⟨m, List.mem_append_left _ hm, hle⟩
  · have hreceived : (h.after r d res ret body).received = h.received := if_neg hst
    refine ⟨fun p hp => hf.received p (hreceived ▸ hp), fun n a ha => ?_⟩
    rw [hwindow] at ha
    rw [hreceived]
    -- a reply that is stored keeps its xid
    have hxid : ((h.rpcs.windowAfter d ret body n).map Reply.xid).head? =
        ((h.rpcs.window n).map Reply.xid).head? := by
      unfold Rpcs.windowAfter
      cases hst' : d.stage with
      | check => exact absurd hst' hst
      | handle =>
        dsimp only
        split_ifs
        · unfold addReply
          by_cases hn : n = d.header.cltNonce
          · subst hn
            rw [Function.update_self, map_xid_storeReply]
          · rw [Function.update_of_ne hn]
        · rfl
      | _ => rfl
    rw [List.head?_map, List.head?_map, ha] at hxid
    obtain ⟨b, hb, hba⟩ := Option.map_eq_some_iff.mp hxid.symm
    obtain ⟨m, hm, hle⟩ := hf.front n b hb
    exact ⟨m, hm, hba ▸ hle⟩

theorem step (hf : h.Fronts made) (hs : h.Sound made) {e : HostEvent} {rs : List Response}
    (hj : ∀ i ret body d, e = .go i ret body → h.rpcs.active i = some d →
      d.stage = .check → h.joins d = true) (hstep : h.step e = some (h', rs)) : h'.Fronts made := by
  cases e with
  | accept n fd time =>
    obtain ⟨r, hr, heq⟩ := Option.map_eq_some_iff.mp hstep
    obtain ⟨rfl, -⟩ := Prod.mk.inj heq
    have ho := step_outside (fun i ret body hne => by cases hne) hr
    exact hf.of_eq ho.window rfl
  | server e =>
    unfold Host.step at hstep
    dsimp only at hstep
    split_ifs at hstep with hown
    obtain ⟨r, hr, heq⟩ := Option.map_eq_some_iff.mp hstep
    obtain ⟨rfl, -⟩ := Prod.mk.inj heq
    have hgo : ∀ i ret body, e ≠ .go i ret body := by
      rintro i ret body rfl
      cases hown
    exact hf.of_eq (step_outside hgo hr).window rfl
  | deliver k succ =>
    obtain ⟨p, -, hstep⟩ := Option.bind_eq_some_iff.mp hstep
    obtain ⟨r, hr, heq⟩ := Option.map_eq_some_iff.mp hstep
    obtain ⟨rfl, -⟩ := Prod.mk.inj heq
    have ho := step_outside (fun i ret body hne => by cases hne) hr
    exact hf.of_eq ho.window rfl
  | lose k =>
    obtain ⟨rfl, -⟩ := Prod.mk.inj (Option.some.inj hstep)
    exact hf.of_eq rfl rfl
  | go i ret body =>
    obtain ⟨d, hd, hstep⟩ := Option.bind_eq_some_iff.mp hstep
    obtain ⟨h₁, hgo, heq⟩ := Option.map_eq_some_iff.mp hstep
    obtain ⟨rfl, -⟩ := Prod.mk.inj heq
    obtain ⟨r, res, ho, rfl, -⟩ := Host.Sound.go_cases hd hgo
    exact hf.after hs hd ho (hj i ret body d rfl hd)
  | restart nonce procs =>
    obtain ⟨rfl, -⟩ := Prod.mk.inj (Option.some.inj hstep)
    exact ⟨fun p hp => (by cases hp), fun n a ha => (by cases ha)⟩

end Host.Fronts

namespace System.Reported

variable {s s' : System sum}

theorem init {nonce : UInt32} (hn : nonce ≠ 0) (procs : List Int32) (lossytest : Bool) :
    (System.init nonce procs lossytest : System sum).Reported where
  sound := .init hn procs lossytest
  clients n := .init n lossytest
  host := .init nonce procs

/-- What happens at one client, which may pack a header more. -/
theorem withClient (h : s.Reported) {n : UInt32} {c : Client sum} (hsound : s'.Sound)
    (hclients : s'.clients = (s.setClient n c).clients)
    (hwindow : s'.host.rpcs.window = s.host.rpcs.window)
    (hreceived : s'.host.received = s.host.received) (hc : c.Reports)
    (hm : ∀ hd ∈ (s.clients n).made, hd ∈ c.made) : s'.Reported := by
  have hmade : s'.made = (s.setClient n c).made :=
    funext fun m => congrArg Client.made (congrFun hclients m)
  refine ⟨hsound, fun m => ?_, (h.host.mono fun m hd hhd => ?_).of_eq hwindow hreceived⟩
  · rw [hclients, System.clients_setClient]
    split_ifs
    · exact hc
    · exact h.clients m
  · rw [hmade]
    exact System.mem_made_setClient hm hhd

theorem step (h : s.Reported) {e : SystemEvent sum} (he : s.allowed e = true)
    (hj : s.joins e = true) (hs : s.step e = some s') : s'.Reported := by
  have hsound := h.sound.step he hs
  cases e with
  | host e =>
    obtain ⟨⟨host, rs⟩, hstep, rfl⟩ := Option.map_eq_some_iff.mp hs
    refine ⟨hsound, h.clients, h.host.step h.sound.host (fun i ret body d hgo hd hst => ?_) hstep⟩
    subst hgo
    unfold System.joins at hj
    simpa [hd, hst] using hj
  | call n proc args =>
    obtain ⟨res, hcall, rfl⟩ := Option.map_eq_some_iff.mp hs
    simp only [System.allowed, Bool.and_eq_true, decide_eq_true_eq] at he
    cases res with
    | error value => exact ⟨hsound, h.clients, h.host⟩
    | ok c =>
      refine h.withClient hsound rfl rfl rfl
        ((h.clients n).call1 (h.sound.clients n) he.2 hcall) fun hd hhd => ?_
      obtain ⟨front, -, -, rfl⟩ := Client.Sound.call1_eq_ok hcall
      exact List.mem_append_left _ hhd
  | transmit n xid conn =>
    unfold System.step at hs
    dsimp only at hs
    split_ifs at hs
    obtain ⟨⟨c, rs⟩, htr, rfl⟩ := Option.map_eq_some_iff.mp hs
    obtain ⟨-, hmade, -⟩ := (h.sound.clients n).transmit htr
    exact h.withClient hsound rfl rfl rfl ((h.clients n).transmit htr) fun hd hhd => hmade ▸ hhd
  | reply k =>
    obtain ⟨r, hk, hs⟩ := Option.bind_eq_some_iff.mp hs
    obtain ⟨c, hgot, rfl⟩ := Option.map_eq_some_iff.mp hs
    obtain ⟨-, hmade⟩ :=
      (h.sound.clients r.clt).gotPdu rfl (h.sound.replies r (List.mem_of_getElem? hk)) hgot
    exact h.withClient hsound rfl rfl rfl ((h.clients r.clt).gotPdu hgot)
      fun hd hhd => hmade ▸ hhd
  | loseReply k =>
    obtain rfl := Option.some.inj hs
    exact ⟨hsound, h.clients, h.host⟩
  | finish n xid =>
    obtain ⟨c, hfin, rfl⟩ := Option.map_eq_some_iff.mp hs
    obtain ⟨-, hmade⟩ := (h.sound.clients n).finish hfin
    exact h.withClient hsound rfl rfl rfl ((h.clients n).finish hfin) fun hd hhd => hmade ▸ hhd
  | ret n k =>
    obtain ⟨⟨r, c⟩, hret, rfl⟩ := Option.map_eq_some_iff.mp hs
    obtain ⟨hc, hmade⟩ := (h.clients n).ret hret
    exact h.withClient hsound rfl rfl rfl hc fun hd hhd => hmade ▸ hhd
  | bind n k =>
    obtain ⟨c, hbind, rfl⟩ := Option.map_eq_some_iff.mp hs
    obtain ⟨-, hmade⟩ := (h.sound.clients n).bind hbind
    exact h.withClient hsound rfl rfl rfl ((h.clients n).bind hbind) fun hd hhd => hmade ▸ hhd
  | cancel n =>
    obtain rfl := Option.some.inj hs
    exact h.withClient hsound rfl rfl rfl (h.clients n).cancel fun hd hhd => hhd

/-- A check, and what it leaves alone. -/
theorem check_step {i : Worker} {d : Dispatch} {ret : Int32} {body : List UInt8}
    (hd : s.host.rpcs.active i = some d) (hst : d.stage = .check)
    (hs : s.step (.host (.go i ret body)) = some s') :
    s'.host.rpcs.window = (s.host.rpcs.verdict d).2 ∧
      s'.host.received =
        s.host.received ++ [(d.header.cltNonce, d.header.xidRep.toUInt32)] ∧
      (∀ j, j ≠ i → s'.host.rpcs.active j = s.host.rpcs.active j) ∧ s'.clients = s.clients := by
  obtain ⟨⟨host, rs⟩, hstep, rfl⟩ := Option.map_eq_some_iff.mp hs
  obtain ⟨d', hd', hstep⟩ := Option.bind_eq_some_iff.mp hstep
  obtain rfl := Option.some.inj (hd.symm.trans hd')
  obtain ⟨h₁, hgo, heq⟩ := Option.map_eq_some_iff.mp hstep
  obtain ⟨rfl, -⟩ := Prod.mk.inj heq
  obtain ⟨r, res, ho, rfl, -⟩ := Host.Sound.go_cases hd hgo
  refine ⟨?_, if_pos hst, fun j hj => ?_, rfl⟩
  · refine ho.window.trans ?_
    unfold Rpcs.windowAfter
    rw [hst]
  · exact (congrFun ho.active j).trans (Function.update_of_ne hj ..)

/-- What the check of a new request leaves of the list. -/
theorem verdict_new {r : Rpcs} {d : Dispatch}
    (hne : ∀ a ∈ r.window d.header.cltNonce, a.xid ≠ d.header.xid.toUInt32)
    (hnew : isOld (r.window d.header.cltNonce) d.header.xid.toUInt32 = false) :
    (r.verdict d).2 d.header.cltNonce =
      (insertReply (r.window d.header.cltNonce) (.ofXid d.header.xid.toUInt32)).dropWhile
        fun a => ¬ a.xid ≥ d.header.xidRep.toUInt32 := by
  unfold Rpcs.verdict checkduplicateAndUpdate
  dsimp only
  rw [Function.update_self]
  unfold checkList
  rw [find_eq_none hne]
  dsimp only
  rw [if_neg (by simp [hnew])]

/-- A check that leaves a gap: the client has packed a request that it has not reported, and that
the server is going to refuse. -/
theorem refuses (h : s.Reported) {i : Worker} {d : Dispatch} {ret : Int32} {body : List UInt8}
    (hd : s.host.rpcs.active i = some d) (hst : d.stage = .check) (hj : s.host.joins d = false)
    (hs : s.step (.host (.go i ret body)) = some s') :
    ∃ hd ∈ s'.made d.header.cltNonce, (checkduplicateAndUpdate s'.host.rpcs.window
        d.header.cltNonce hd.xid.toUInt32 hd.xidRep.toUInt32).1 = .forgotten ∧
      ∀ m, (d.header.cltNonce, m) ∈ s'.host.received → m < hd.xid.toUInt32 := by
  obtain ⟨hwindow, hreceived, -, hclients⟩ := check_step hd hst hs
  have hsorted := h.sound.host.remembers.sorted d.header.cltNonce
  have hclient := h.sound.clients d.header.cltNonce
  have hmade := (h.sound.host.running i d hd).made
  have hrep := (hclient.lawful _ hmade).rep
  obtain ⟨hne, hnew⟩ := Host.new_of_not_joins hj
  have hlist := verdict_new hne hnew
  rw [← hwindow] at hlist
  have hxmem := ofXid_mem_new hsorted hne (le_of_lt hrep)
  obtain ⟨b, l, hl⟩ := List.exists_cons_of_ne_nil (List.ne_nil_of_mem hxmem)
  have hsorted' : Sorted (b :: l) := by
    rw [← hl]
    exact sorted_new hsorted hne
  rw [hl] at hxmem hlist
  have hfront : ∀ r ∈ b :: l, b.xid ≤ r.xid := fun r hr => head_le hsorted' rfl hr
  obtain ⟨hb, hbrep⟩ := (mem_new hsorted hne).mp (hl ▸ List.mem_cons_self)
  have hbmem : b.xid = d.header.xid.toUInt32 ∨
      ∃ a ∈ s.host.rpcs.window d.header.cltNonce, a.xid = b.xid := by
    obtain rfl | hb := hb
    · exact Or.inl rfl
    · exact Or.inr ⟨b, hb, rfl⟩
  have hbgap : ∀ m, (d.header.cltNonce, m) ∈ s'.host.received → m.toNat + 1 < b.xid.toNat := by
    intro m hm
    rw [hreceived] at hm
    by_contra hle
    rw [(Host.joins_iff_of_new hne hnew).mpr
      ⟨b.xid, m, hbmem, hbrep, hm, Nat.le_of_not_lt hle⟩] at hj
    cases hj
  -- the request just below the new front
  have hbx := UInt32.le_iff_toNat_le.mp (hfront _ hxmem)
  have hxle := hclient.xid_le hmade
  have hrepgap := hbgap d.header.xidRep.toUInt32 (by simp [hreceived])
  have hbx' : b.xid.toNat ≤ d.header.xid.toUInt32.toNat := hbx
  obtain ⟨hd', hk⟩ : ∃ hd', (s.clients d.header.cltNonce).made[b.xid.toNat - 2]? = some hd' :=
    ⟨_, List.getElem?_eq_getElem (by omega)⟩
  have hxid := hclient.xids _ hd' hk
  have hlt : hd'.xid.toUInt32 < b.xid := UInt32.lt_iff_toNat_lt.mpr (by omega)
  refine ⟨hd', ?_, ?_, fun m hm => ?_⟩
  · unfold System.made
    rw [hclients]
    exact List.mem_of_getElem? hk
  · refine checkList_old ?_ ?_
    · rw [hlist]
      exact hsorted'
    · rw [hlist, isOld_iff hsorted']
      exact ⟨List.cons_ne_nil _ _, fun r hr => lt_of_lt_of_le hlt (hfront r hr)⟩
  · have hm' := hbgap m hm
    exact UInt32.lt_iff_toNat_lt.mpr (by omega)

end System.Reported

theorem init_valid : Marshall.Valid false (Marshall.init false fun _ _ => 0) := .init _

theorem init_ind_lt : (Marshall.init false fun _ _ => 0).ind < 2 ^ 31 := by decide

def Args.none : Args false := ⟨.init false fun _ _ => 0, init_valid, init_ind_lt⟩

end Yfs.Rpc
