import Yfs.Rpc.Site
import Mathlib.Data.List.Nodup

/-! A call with types is executed on the arguments that it was made with, and what it returns is
what its method has given. -/
namespace Yfs.Rpc
open Effect

variable {M C S : Type} {R : C → Type} {sum : Bool}

section System

variable {s t : System sum} {e : SystemEvent sum}

theorem Client.made_ret {c c' : Client sum} {k : ℕ} {r : Return} (hs : c.ret k = some (r, c')) :
    c'.made = c.made := by
  unfold Client.ret at hs
  obtain ⟨ca, -, hs⟩ := Option.bind_eq_some_iff.mp hs
  have hkeep : (Client.keepDup { c with leaving := c.leaving.eraseIdx k } ca).made = c.made := by
    unfold Client.keepDup
    split_ifs <;> rfl
  generalize Client.keepDup { c with leaving := c.leaving.eraseIdx k } ca = c₂ at hs hkeep
  dsimp only at hs
  generalize (if ca.done then ca.intret else timeoutFailure) = value at hs
  rw [← hkeep]
  by_cases hproc : ca.req.header.proc = bindProc ∧ 0 ≤ value
  · rw [if_pos hproc] at hs
    obtain ⟨nonce, -, heq⟩ := Option.map_eq_some_iff.mp hs
    rw [← (Prod.mk.inj heq).2]
    split_ifs <;> rfl
  · rw [if_neg hproc] at hs
    rw [(Prod.mk.inj (Option.some.inj hs)).2]

/-- What the events do that concern neither calls nor handlers. -/
structure System.Plain (s : System sum) (e : SystemEvent sum) (t : System sum) : Prop where
  made : ∀ n, t.made n = s.made n
  executed : t.host.executed = s.host.executed
  instances : t.host.instances = s.host.instances
  nonce : t.host.rpcs.nonce = s.host.rpcs.nonce
  active : (∀ i, e ≠ .host (.server (.take i))) ∧ t.host.rpcs.active = s.host.rpcs.active ∨
    ∃ i j q, e = .host (.server (.take i)) ∧ s.host.rpcs.queue = j :: q ∧
      s.host.rpcs.active i = none ∧ t.host.rpcs.active =
        Function.update s.host.rpcs.active i (some (.start s.host.rpcs.sum j))

theorem System.Plain.client {n : UInt32} {c : Client sum} (hm : c.made = (s.clients n).made)
    (he : ∀ i, e ≠ .host (.server (.take i))) (ht : t.clients = (s.setClient n c).clients)
    (hexec : t.host.executed = s.host.executed) (hinst : t.host.instances = s.host.instances)
    (hrpcs : t.host.rpcs = s.host.rpcs) : s.Plain e t := by
  refine ⟨fun m => ?_, hexec, hinst, congrArg Rpcs.nonce hrpcs, Or.inl ⟨he, ?_⟩⟩
  · have hmade : t.made m = (s.setClient n c).made m := congrArg Client.made (congrFun ht m)
    rw [hmade, System.made_setClient]
    split_ifs with hmn
    · rw [hmn]
      exact hm
    · rfl
  · exact congrArg Rpcs.active hrpcs

theorem System.Plain.outside {e' : RpcsEvent} (ho : s.host.rpcs.Outside e' t.host.rpcs)
    (hm : t.clients = s.clients) (hexec : t.host.executed = s.host.executed)
    (hinst : t.host.instances = s.host.instances) (htake : ∀ i, e' ≠ .take i)
    (hne : ∀ i, e ≠ .host (.server (.take i))) : s.Plain e t := by
  refine ⟨fun m => congrArg Client.made (congrFun hm m), hexec, hinst, ho.nonce, Or.inl ⟨hne, ?_⟩⟩
  obtain ⟨-, hactive⟩ | ⟨_, _, _, -, -, -, hactive⟩ | ⟨i, _, _, he, -⟩ := ho.queue
  · exact hactive
  · exact hactive
  · exact absurd he (htake i)

/-- A worker takes the first job of the queue. -/
theorem Rpcs.take_eq_some {r r' : Rpcs} {i : Worker} (hs : r.step (.take i) = some r') :
    r.active i = none ∧ ∃ j q, r.queue = j :: q ∧
      r' = { r with queue := q }.setActive i (some (.start r.sum j)) := by
  unfold Rpcs.step at hs
  dsimp only at hs
  split at hs
  · next j q hi hq => exact ⟨hi, j, q, hq, (Option.some.inj hs).symm⟩
  · cases hs

theorem System.plain_step (h : s.Sound) (he : e.plain = true) (hs : s.step e = some t) :
    s.Plain e t := by
  cases e with
  | host e =>
    obtain ⟨⟨host, rs⟩, hstep, rfl⟩ := Option.map_eq_some_iff.mp hs
    cases e with
    | accept n fd time =>
      obtain ⟨r, hr, heq⟩ := Option.map_eq_some_iff.mp hstep
      obtain ⟨rfl, rfl⟩ := Prod.mk.inj heq
      exact .outside (step_outside (fun i ret body hne => by cases hne) hr) rfl rfl rfl
        (fun i hne => by cases hne) fun i hne => by cases hne
    | server e =>
      unfold Host.step at hstep
      dsimp only at hstep
      split_ifs at hstep with hown
      obtain ⟨r, hr, heq⟩ := Option.map_eq_some_iff.mp hstep
      obtain ⟨rfl, rfl⟩ := Prod.mk.inj heq
      by_cases htake : ∃ i, e = .take i
      · obtain ⟨i, rfl⟩ := htake
        obtain ⟨hi, j, q, hq, rfl⟩ := Rpcs.take_eq_some hr
        exact ⟨fun _ => rfl, rfl, rfl, rfl, Or.inr ⟨i, j, q, rfl, hq, hi, rfl⟩⟩
      · refine .outside (step_outside (fun i ret body hne => ?_) hr) rfl rfl rfl
          (fun i hne => htake ⟨i, hne⟩) fun i hne => ?_
        · rw [hne] at hown
          cases hown
        · cases hne
          exact htake ⟨i, rfl⟩
    | deliver k succ =>
      obtain ⟨p, hp, hstep⟩ := Option.bind_eq_some_iff.mp hstep
      obtain ⟨r, hr, heq⟩ := Option.map_eq_some_iff.mp hstep
      obtain ⟨rfl, rfl⟩ := Prod.mk.inj heq
      exact .outside (step_outside (fun i ret body hne => by cases hne) hr) rfl rfl rfl
        (fun i hne => by cases hne) fun i hne => by cases hne
    | lose k =>
      obtain ⟨rfl, rfl⟩ := Prod.mk.inj (Option.some.inj hstep)
      exact ⟨fun _ => rfl, rfl, rfl, rfl, Or.inl ⟨(fun i hne => by cases hne), rfl⟩⟩
    | go i ret body => cases he
    | restart nonce procs => cases he
  | call n proc args => cases he
  | transmit n xid conn =>
    unfold System.step at hs
    dsimp only at hs
    split_ifs at hs with hconn
    obtain ⟨⟨c, rs⟩, htr, rfl⟩ := Option.map_eq_some_iff.mp hs
    exact .client ((h.clients n).transmit htr).2.1 (fun i hne => by cases hne) rfl rfl rfl rfl
  | reply k =>
    obtain ⟨r, hk, hs⟩ := Option.bind_eq_some_iff.mp hs
    obtain ⟨c, hgot, rfl⟩ := Option.map_eq_some_iff.mp hs
    have hr := h.replies r (List.mem_of_getElem? hk)
    exact .client ((h.clients r.clt).gotPdu rfl hr hgot).2 (fun i hne => by cases hne) rfl rfl rfl rfl
  | loseReply k =>
    obtain rfl := Option.some.inj hs
    exact ⟨fun _ => rfl, rfl, rfl, rfl, Or.inl ⟨(fun i hne => by cases hne), rfl⟩⟩
  | finish n xid =>
    obtain ⟨c, hfin, rfl⟩ := Option.map_eq_some_iff.mp hs
    exact .client ((h.clients n).finish hfin).2 (fun i hne => by cases hne) rfl rfl rfl rfl
  | ret n k =>
    obtain ⟨⟨r, c⟩, hret, rfl⟩ := Option.map_eq_some_iff.mp hs
    exact .client (Client.made_ret hret) (fun i hne => by cases hne) rfl rfl rfl rfl
  | bind n k =>
    obtain ⟨c, hbind, rfl⟩ := Option.map_eq_some_iff.mp hs
    exact .client ((h.clients n).bind hbind).2 (fun i hne => by cases hne) rfl rfl rfl rfl
  | cancel n =>
    obtain rfl := Option.some.inj hs
    exact .client (c := (s.clients n).cancel) rfl (fun i hne => by cases hne) rfl rfl rfl rfl

/-- What a step of a dispatch does. -/
theorem System.go_cases {i : Worker} {d : Dispatch} {ret : Int32} {body : List UInt8}
    (hd : s.host.rpcs.active i = some d) (hs : s.step (.host (.go i ret body)) = some t) :
    ∃ r res, d.Outcome s.host.rpcs r i ret body res ∧ t.host = s.host.after r d res ret body ∧
      t.clients = s.clients := by
  obtain ⟨⟨h, rs⟩, hstep, rfl⟩ := Option.map_eq_some_iff.mp hs
  obtain ⟨d', hd', hstep⟩ := Option.bind_eq_some_iff.mp hstep
  obtain rfl : d = d' := Option.some.inj (hd.symm.trans hd')
  obtain ⟨h₁, hgo, heq⟩ := Option.map_eq_some_iff.mp hstep
  obtain ⟨rfl, rfl⟩ := Prod.mk.inj heq
  obtain ⟨r, res, ho, rfl, -⟩ := Host.Sound.go_cases hd hgo
  exact ⟨r, res, ho, rfl, rfl⟩

/-- The dispatches that run after it. -/
theorem System.active_go {i j : Worker} {d d' : Dispatch} {ret : Int32} {body : List UInt8}
    (hd : s.host.rpcs.active i = some d) (hs : s.step (.host (.go i ret body)) = some t)
    (hd' : t.host.rpcs.active j = some d') :
    j = i ∧ d'.stage ∈ d.stage.next ∧ d'.header = d.header ∨
      j ≠ i ∧ s.host.rpcs.active j = some d' := by
  obtain ⟨r, res, ho, hhost, -⟩ := System.go_cases hd hs
  rw [hhost] at hd'
  change r.active j = some d' at hd'
  rw [ho.active] at hd'
  by_cases hj : j = i
  · rw [hj, Function.update_self] at hd'
    have hg := ho.goes d' hd'
    exact Or.inl ⟨hj, hg.stage, hg.kept.1⟩
  · rw [Function.update_of_ne hj] at hd'
    exact Or.inr ⟨hj, hd'⟩

/-- What a step of a dispatch leaves as it was. -/
theorem System.go_kept {i : Worker} {d : Dispatch} {ret : Int32} {body : List UInt8}
    (hd : s.host.rpcs.active i = some d) (hs : s.step (.host (.go i ret body)) = some t) :
    t.host.executed = (if d.stage = .handle then s.host.executed ++ [(s.host.task d, ret, body)]
      else s.host.executed) ∧
      t.host.instances = s.host.instances ∧ t.host.rpcs.nonce = s.host.rpcs.nonce ∧
      ∀ j, j ≠ i → t.host.rpcs.active j = s.host.rpcs.active j := by
  obtain ⟨r, res, ho, hhost, -⟩ := System.go_cases hd hs
  rw [hhost]
  refine ⟨rfl, rfl, ho.nonce, fun j hj => ?_⟩
  change r.active j = _
  rw [ho.active, Function.update_of_ne hj]

theorem System.restart_eq {nonce : UInt32} {procs : List Int32}
    (hs : s.step (.host (.restart nonce procs)) = some t) :
    { s with
      host := { s.host with
        rpcs := Rpcs.init sum nonce procs
        sent := []
        instances := s.host.instances ++ [nonce]
        received := [] } } = t := by
  rw [← Option.some.inj hs]
  exact congrArg (fun rs => ({ s with host := _, replies := rs } : System sum))
    (List.append_nil _).symm

/-- A call packs a header or none. -/
theorem System.call_cases {n : UInt32} {proc : Int32} {args : Args sum} (h : s.Sound)
    (hs : s.step (.call n proc args) = some t) :
    t.host = s.host ∧ (t.made = s.made ∨ ∃ hd : ReqHeader, hd.cltNonce = n ∧ hd.proc = proc ∧
      t.made n = s.made n ++ [hd] ∧ ∀ m ≠ n, t.made m = s.made m) := by
  obtain ⟨res, hres, rfl⟩ := Option.map_eq_some_iff.mp hs
  cases res with
  | error value => exact ⟨rfl, Or.inl rfl⟩
  | ok c =>
    obtain ⟨front, -, -, rfl⟩ := Client.Sound.call1_eq_ok hres
    refine ⟨rfl, Or.inr ⟨⟨(s.clients n).xid.toInt32, proc, (s.clients n).cltNonce,
      (s.clients n).srvNonce, front.toInt32⟩, (h.clients n).nonce, rfl, ?_, fun m hm => ?_⟩⟩
    · dsimp only
      rw [System.made_setClient, if_pos rfl]
      rfl
    · dsimp only
      rw [System.made_setClient, if_neg hm]

/-- No header is packed twice. -/
theorem System.Sound.made_nodup (h : s.Sound) (n : UInt32) : (s.made n).Nodup := by
  refine List.pairwise_iff_getElem.mpr fun i j hi hj hij heq => ?_
  have hx : (s.made n)[i].xid.toUInt32.toNat = i + 1 :=
    (h.clients n).xids i _ (List.getElem?_eq_getElem hi)
  have hy : (s.made n)[j].xid.toUInt32.toNat = j + 1 :=
    (h.clients n).xids j _ (List.getElem?_eq_getElem hj)
  rw [heq] at hx
  omega

end System

namespace Service

variable {v : Service M C R S}

/-- The handler of a call that has got its arguments. -/
def prog (nonce : UInt32) (o : Option (Op v)) (mem : M) : Program C R (Int32 × List UInt8) :=
  match o with
  | none => (rpcbind nonce).prog mem bindArgs
  | some o => o.prog mem

theorem Op.num_ne (o : Op v) : o.num ≠ bindProc := by
  intro hnum
  refine (List.nodup_cons.mp v.nodup).1 (hnum ▸ List.mem_map.mpr ⟨v.procs.get o.k, ?_, rfl⟩)
  exact List.get_mem _ _

theorem find_num (o : Op v) :
    (v.procs.find? fun p => p.1 = o.num) = some (v.procs.get o.k) := by
  refine List.find?_eq_some_iff_getElem.mpr ⟨decide_eq_true rfl, o.k, o.k.isLt, rfl, ?_⟩
  intro j hj
  have hne := List.pairwise_iff_getElem.mp (List.nodup_cons.mp v.nodup).2 j o.k
    (by rw [List.length_map]; omega) (by rw [List.length_map]; exact o.k.isLt) hj
  rw [List.getElem_map, List.getElem_map] at hne
  rw [Bool.not_eq_true', decide_eq_false_iff_not]
  exact hne

/-- The handler that is found for a call takes the arguments of the call. -/
theorem handler_handle (sum : Bool) (nonce : UInt32) (o : Option (Op v)) :
    ∃ p, v.handler nonce (num o) = some p ∧ ∀ heap mem u, u.Offers (enc o) →
      p.handle sum heap mem u = prog nonce o mem := by
  cases o with
  | none => exact ⟨rpcbind nonce, if_pos rfl, fun heap mem u hu => Proc.handle_eq _ heap mem hu⟩
  | some o =>
    refine ⟨o.proc, ?_, fun heap mem u hu => Proc.handle_eq _ heap mem hu⟩
    change v.handler nonce o.num = _
    unfold handler
    rw [if_neg (Op.num_ne o), find_num]
    rfl

end Service

/-- The task is the execution of the call. -/
def Asked.Is {v : Service M C R S} (a : Asked v) (t : Task) : Prop :=
  a.header.cltNonce = t.clt ∧ a.header.xid.toUInt32 = t.xid ∧ a.header.proc = t.proc

/-- A request of the client that is as one of the calls has made it. -/
def Asks (sum : Bool) {v : Service M C R S} (asked : List (Asked v)) (n : UInt32) (buf : ℕ → UInt8)
    (sz : ℕ) : Prop :=
  ∃ a ∈ asked, ∃ q : Request sum, q.header = a.header ∧ a.header.cltNonce = n ∧
    q.body = Service.enc a.op ∧ buf = q.buf ∧ sz = q.sz

/-- Every request and every worker has the arguments of a call, and every execution is one of the
handler of its call on these. -/
structure Site.Sound {v : Service M C R S} (s : Site v sum) : Prop where
  sys : s.sys.Sound
  times : ∀ a ∈ s.asked, a.before ≤ s.sys.host.executed.length
  asked : ∀ a ∈ s.asked, a.header ∈ s.sys.made a.header.cltNonce ∧ a.header.proc = Service.num a.op
  once : (s.asked.map Asked.header).Nodup
  carries : s.sys.Carries (Asks sum s.asked)
  reqs : ∀ i d, s.sys.host.rpcs.active i = some d →
    ∃ a ∈ s.asked, a.header = d.header ∧ (s.reqs i).Offers (Service.enc a.op)
  work : ∀ i d, s.sys.host.rpcs.active i = some d → d.stage = .handle →
    ∃ a ∈ s.asked, a.header = d.header ∧
      ∃ mem, (Service.prog s.sys.host.rpcs.nonce a.op mem).Left (s.work i)
  executed : ∀ k e, s.sys.host.executed[k]? = some e → ∃ a ∈ s.asked, a.Is e.1 ∧ a.before ≤ k ∧
    ∃ mem, (Service.prog e.1.srv a.op mem).Ends e.2

theorem Site.enter_of_ne {v : Service M C R S} {s : Site v sum} {t : System sum} {i j : Worker}
    {d : Dispatch} {heap : ℕ → ℕ → UInt8} {mem : M} (hj : j ≠ i) :
    s.enter t i d heap mem j = s.work j := by
  unfold Site.enter
  split_ifs
  · cases v.handler s.sys.host.rpcs.nonce d.header.proc with
    | none => rfl
    | some p => exact Function.update_of_ne hj _ _
  · rfl

namespace Site.Sound

variable {v : Service M C R S} {s s' : Site v sum} {t : System sum}

theorem init {nonce : UInt32} (hn : nonce ≠ 0) (lossytest : Bool) :
    (Site.init v nonce lossytest : Site v sum).Sound where
  sys := .init hn v.numbers lossytest
  times a ha := by cases ha
  asked a ha := by cases ha
  once := List.nodup_nil
  carries := .init nonce v.numbers lossytest
  reqs i d hd := by cases hd
  work i d hd := by cases hd
  executed k e he := by cases he

/-- An event that makes no call and runs no handler. -/
theorem plain (h : s.Sound) {e : SystemEvent sum} (he : e.plain = true)
    (hs : s.sys.step e = some t) (hsys : t.Sound) :
    ({ s with sys := t, reqs := s.taken e } : Site v sum).Sound := by
  have hp := System.plain_step h.sys he hs
  refine ⟨hsys, ?_, fun a ha => ?_, h.once, ?_, fun i d hd => ?_, fun i d hd hst => ?_, ?_⟩
  · dsimp only
    rw [hp.executed]
    exact h.times
  · dsimp only
    rw [hp.made]
    exact h.asked a ha
  · refine h.carries.step h.sys (fun n proc args hd heq => ?_) hs
    rw [heq] at he
    cases he
  · dsimp only at hd ⊢
    obtain ⟨hne, hactive⟩ | ⟨k, j, q, rfl, hq, -, hactive⟩ := hp.active
    · rw [hactive] at hd
      have htaken : s.taken e = s.reqs := by
        unfold Site.taken
        split
        · next i => exact absurd rfl (hne i)
        · rfl
      rw [htaken]
      exact h.reqs i d hd
    · unfold Site.taken
      dsimp only
      rw [hq]
      dsimp only
      rw [hactive] at hd
      by_cases hik : i = k
      · rw [hik, Function.update_self] at hd
        rw [hik, Function.update_self]
        obtain ⟨a, ha, r, hhd, -, hbody, hbuf, hsz⟩ := h.carries.queue j (hq ▸ List.mem_cons_self)
        obtain rfl := Option.some.inj hd
        have hstart := r.start j.conn
        rw [← hbuf, ← hsz] at hstart
        rw [h.sys.host.format, hstart]
        refine ⟨a, ha, hhd.symm, ?_⟩
        rw [hbuf, hsz, ← hbody]
        exact r.offers
      · rw [Function.update_of_ne hik] at hd
        rw [Function.update_of_ne hik]
        exact h.reqs i d hd
  · dsimp only at hd ⊢
    rw [hp.nonce]
    obtain ⟨-, hactive⟩ | ⟨k, j, q, -, -, -, hactive⟩ := hp.active
    · rw [hactive] at hd
      exact h.work i d hd hst
    · rw [hactive] at hd
      by_cases hik : i = k
      · rw [hik, Function.update_self] at hd
        obtain rfl := Option.some.inj hd
        cases hst
      · rw [Function.update_of_ne hik] at hd
        exact h.work i d hd hst
  · dsimp only
    rw [hp.executed]
    exact h.executed

/-- A call that fails at once. -/
theorem call_refused (h : s.Sound) {n : UInt32} {op : Option (Op v)} {args : Args sum}
    {proc : Int32} (hs : s.sys.step (.call n proc args) = some t) (hsys : t.Sound)
    (hhost : t.host = s.sys.host) (hmade : t.made = s.sys.made) :
    ({ s with sys := t, asked := s.ask op ((t.made n).drop (s.sys.made n).length) } :
      Site v sum).Sound := by
  have hnone : s.ask op ((t.made n).drop (s.sys.made n).length) = s.asked := by
    unfold Site.ask
    rw [hmade, List.drop_length, List.map_nil, List.append_nil]
  rw [hnone]
  refine ⟨hsys, ?_, fun a ha => ?_, h.once, ?_, ?_, ?_, ?_⟩
  · exact hhost ▸ h.times
  · dsimp only
    rw [hmade]
    exact h.asked a ha
  · refine h.carries.step h.sys (fun n' proc args hd heq hnew => ?_) hs
    rw [hmade] at hnew
    have hlen := congrArg List.length hnew
    rw [List.length_append, List.length_singleton] at hlen
    omega
  · exact hhost ▸ h.reqs
  · exact hhost ▸ h.work
  · exact hhost ▸ h.executed

/-- A call that packs a header is written down with it. -/
theorem call_asked (h : s.Sound) {n : UInt32} {op : Option (Op v)} {heap : ℕ → ℕ → UInt8}
    {small : rpcHeaderSz sum + (Service.enc op).length < 2 ^ 31}
    (hs : s.sys.step (.call n (Service.num op) (Service.args sum heap op small)) = some t)
    (hsys : t.Sound) (hhost : t.host = s.sys.host) {hd : ReqHeader} (hclt : hd.cltNonce = n)
    (hproc : hd.proc = Service.num op) (hmade : t.made n = s.sys.made n ++ [hd])
    (hother : ∀ m, m ≠ n → t.made m = s.sys.made m) :
    ({ s with sys := t, asked := s.ask op ((t.made n).drop (s.sys.made n).length) } :
      Site v sum).Sound := by
  have hone : s.ask op ((t.made n).drop (s.sys.made n).length) =
      s.asked ++ [⟨hd, op, s.sys.host.executed.length⟩] := by
    unfold Site.ask
    rw [hmade, List.drop_left]
    rfl
  rw [hone]
  have hmem : ∀ {a : Asked v}, a ∈ s.asked →
      a ∈ s.asked ++ [⟨hd, op, s.sys.host.executed.length⟩] := List.mem_append_left _
  have hself : (⟨hd, op, s.sys.host.executed.length⟩ : Asked v) ∈
      s.asked ++ [⟨hd, op, s.sys.host.executed.length⟩] := List.mem_append_right _ List.mem_cons_self
  have hkeep : ∀ m, ∀ x ∈ s.sys.made m, x ∈ t.made m := by
    intro m x hx
    by_cases hm : m = n
    · rw [hm] at hx ⊢
      rw [hmade]
      exact List.mem_append_left _ hx
    · rwa [hother m hm]
  refine ⟨hsys, fun a ha => ?_, fun a ha => ?_, ?_, ?_, fun i d hd' => ?_, fun i d hd' hst => ?_,
    fun k e he => ?_⟩
  · dsimp only
    rw [hhost]
    obtain ha | ha := List.mem_append.mp ha
    · exact h.times a ha
    · rw [List.mem_singleton.mp ha]
  · obtain ha | ha := List.mem_append.mp ha
    · exact ⟨hkeep _ _ (h.asked a ha).1, (h.asked a ha).2⟩
    · rw [List.mem_singleton.mp ha]
      refine ⟨?_, hproc⟩
      dsimp only
      rw [hclt, hmade]
      exact List.mem_append_right _ List.mem_cons_self
  · -- the new header was not there
    have hnodup := hsys.made_nodup n
    rw [hmade] at hnodup
    rw [List.map_append, List.map_singleton]
    refine List.nodup_append.mpr ⟨h.once, List.pairwise_singleton _ _, fun x hx y hy hxy => ?_⟩
    rw [List.mem_singleton.mp hy] at hxy
    obtain ⟨a, ha, rfl⟩ := List.mem_map.mp hx
    have hold := (h.asked a ha).1
    rw [hxy, hclt] at hold
    exact (List.nodup_append.mp hnodup).2.2 hd hold hd List.mem_cons_self rfl
  · have hold : s.sys.Carries (Asks sum (s.asked ++ [⟨hd, op, s.sys.host.executed.length⟩])) := by
      refine h.carries.mono fun m buf sz hasks => ?_
      obtain ⟨a, ha, rest⟩ := hasks
      exact ⟨a, hmem ha, rest⟩
    refine hold.step h.sys (fun n' proc args hd' heq hnew => ?_) hs
    cases heq
    rw [hmade] at hnew
    obtain rfl := List.singleton_inj.mp (List.append_cancel_left hnew)
    refine ⟨_, hself, (Service.args sum heap op small).pack hd, rfl, hclt, ?_, rfl, rfl⟩
    cases op with
    | none => exact bindArgs.body_pack heap small hd
    | some o => exact o.args.body_pack heap small hd
  · dsimp only at hd'
    rw [hhost] at hd'
    obtain ⟨a, ha, rest⟩ := h.reqs i d hd'
    exact ⟨a, hmem ha, rest⟩
  · dsimp only at hd' ⊢
    rw [hhost] at hd' ⊢
    obtain ⟨a, ha, rest⟩ := h.work i d hd' hst
    exact ⟨a, hmem ha, rest⟩
  · dsimp only at he
    rw [hhost] at he
    obtain ⟨a, ha, rest⟩ := h.executed k e he
    exact ⟨a, hmem ha, rest⟩

theorem call (h : s.Sound) {n : UInt32} {op : Option (Op v)} {heap : ℕ → ℕ → UInt8}
    {small : rpcHeaderSz sum + (Service.enc op).length < 2 ^ 31}
    (hs : s.sys.step (.call n (Service.num op) (Service.args sum heap op small)) = some t)
    (hsys : t.Sound) :
    ({ s with sys := t, asked := s.ask op ((t.made n).drop (s.sys.made n).length) } :
      Site v sum).Sound := by
  obtain ⟨hhost, hmade | ⟨hd, hclt, hproc, hmade, hother⟩⟩ := System.call_cases h.sys hs
  · exact h.call_refused hs hsys hhost hmade
  · exact h.call_asked hs hsys hhost hclt hproc hmade hother

/-- A handler issues a command. -/
theorem command (h : s.Sound) {i : Worker} {c : C} {k : R c → Program C R (Int32 × List UInt8)}
    (hw : s.work i = .call c k) :
    ({ s with
      work := Function.update s.work i (k (v.exec c s.store).1)
      inside := Function.update s.inside i true
      store := (v.exec c s.store).2 } : Site v sum).Sound := by
  refine ⟨h.sys, h.times, h.asked, h.once, h.carries, h.reqs, fun j d hd hst => ?_, h.executed⟩
  obtain ⟨a, ha, hhd, mem, hleft⟩ := h.work j d hd hst
  refine ⟨a, ha, hhd, mem, ?_⟩
  dsimp only
  by_cases hj : j = i
  · rw [hj, Function.update_self]
    rw [hj, hw] at hleft
    exact hleft.reply _
  · rwa [Function.update_of_ne hj]

theorem reqs_go (h : s.Sound) {i : Worker} {d : Dispatch} {ret : Int32} {body : List UInt8}
    (hd : s.sys.host.rpcs.active i = some d) (hs : s.sys.step (.host (.go i ret body)) = some t) :
    ∀ j d', t.host.rpcs.active j = some d' →
      ∃ a ∈ s.asked, a.header = d'.header ∧ (s.reqs j).Offers (Service.enc a.op) := by
  intro j d' hd'
  obtain ⟨hj, -, hhd⟩ | ⟨-, hold⟩ := System.active_go hd hs hd'
  · rw [hhd, hj]
    exact h.reqs i d hd
  · exact h.reqs j d' hold

theorem made_go (h : s.Sound) {i : Worker} {d : Dispatch} {ret : Int32} {body : List UInt8}
    (hd : s.sys.host.rpcs.active i = some d) (hs : s.sys.step (.host (.go i ret body)) = some t) :
    (∀ a ∈ s.asked, a.header ∈ t.made a.header.cltNonce ∧ a.header.proc = Service.num a.op) ∧
      t.Carries (Asks sum s.asked) ∧ t.host.rpcs.nonce = s.sys.host.rpcs.nonce := by
  obtain ⟨-, -, -, -, hclients⟩ := System.go_cases hd hs
  refine ⟨fun a ha => ?_, ?_, (System.go_kept hd hs).2.2.1⟩
  · have hmade : t.made = s.sys.made := funext fun n => congrArg Client.made (congrFun hclients n)
    rw [hmade]
    exact h.asked a ha
  · exact h.carries.step h.sys (fun n proc args hd heq => by cases heq) hs

/-- A handler has come to its end, and its result is written down. -/
theorem finish (h : s.Sound) {i : Worker} {d : Dispatch} {b : Int32 × List UInt8}
    (hd : s.sys.host.rpcs.active i = some d) (hst : d.stage = .handle) (hw : s.work i = .pure b)
    (hs : s.sys.step (.host (.go i b.1 b.2)) = some t) (hsys : t.Sound) :
    ({ s with sys := t, inside := Function.update s.inside i false } : Site v sum).Sound := by
  obtain ⟨hasked, hcarries, hnonce⟩ := h.made_go hd hs
  have hexec : t.host.executed = s.sys.host.executed ++ [(s.sys.host.task d, b)] := by
    rw [(System.go_kept hd hs).1, if_pos hst]
  refine ⟨hsys, fun a ha => ?_, hasked, h.once, hcarries, h.reqs_go hd hs, fun j d' hd' hst' => ?_,
    fun k e he => ?_⟩
  · dsimp only
    rw [hexec, List.length_append]
    exact (h.times a ha).trans (Nat.le_add_right _ _)
  · dsimp only at hd' ⊢
    rw [hnonce]
    obtain ⟨-, hnext, -⟩ | ⟨-, hold⟩ := System.active_go hd hs hd'
    · rw [hst', hst] at hnext
      exact absurd hnext (by decide)
    · exact h.work j d' hold hst'
  · dsimp only at he
    rw [hexec, List.getElem?_append] at he
    split_ifs at he with hlt
    · exact h.executed k e he
    · obtain ⟨a, ha, hhd, mem, hleft⟩ := h.work i d hd hst
      have hlen := h.times a ha
      obtain ⟨hk, rfl⟩ : k - s.sys.host.executed.length = 0 ∧ (s.sys.host.task d, b) = e := by
        have hbound := (List.getElem?_eq_some_iff.mp he).1
        rw [List.length_singleton] at hbound
        have hzero : k - s.sys.host.executed.length = 0 := by omega
        rw [hzero] at he
        exact ⟨hzero, Option.some.inj he⟩
      rw [hw] at hleft
      refine ⟨a, ha, ?_, by omega, mem, hleft⟩
      rw [Asked.Is, hhd]
      exact ⟨rfl, rfl, rfl⟩

/-- A handler that is entered gets the arguments of the call. -/
theorem enter_self (h : s.Sound) {i : Worker} {d d' : Dispatch} (hd : s.sys.host.rpcs.active i = some d)
    (hd' : t.host.rpcs.active i = some d') (hst : d'.stage = .handle) (heap : ℕ → ℕ → UInt8)
    (mem : M) : ∃ a ∈ s.asked, a.header = d.header ∧
      s.enter t i d heap mem i = Service.prog s.sys.host.rpcs.nonce a.op mem := by
  obtain ⟨a, ha, hhd, hoffers⟩ := h.reqs i d hd
  obtain ⟨p, hp, hhandle⟩ := Service.handler_handle sum s.sys.host.rpcs.nonce a.op
  refine ⟨a, ha, hhd, ?_⟩
  have hproc : d.header.proc = Service.num a.op := by
    rw [← hhd]
    exact (h.asked a ha).2
  unfold Site.enter
  rw [hd', Option.map_some, hst, if_pos rfl, hproc, hp]
  dsimp only
  rw [Function.update_self, hhandle heap mem _ hoffers]

/-- A dispatch goes on, maybe to its handler. -/
theorem forward (h : s.Sound) {i : Worker} {d : Dispatch} {heap : ℕ → ℕ → UInt8} {mem : M}
    (hd : s.sys.host.rpcs.active i = some d) (hst : d.stage ≠ .handle)
    (hs : s.sys.step (.host (.go i 0 [])) = some t) (hsys : t.Sound) :
    ({ s with sys := t, work := s.enter t i d heap mem } : Site v sum).Sound := by
  obtain ⟨hasked, hcarries, hnonce⟩ := h.made_go hd hs
  have hexec : t.host.executed = s.sys.host.executed := by
    rw [(System.go_kept hd hs).1, if_neg hst]
  refine ⟨hsys, ?_, hasked, h.once, hcarries, h.reqs_go hd hs, fun j d' hd' hst' => ?_, ?_⟩
  · dsimp only
    rw [hexec]
    exact h.times
  · dsimp only at hd' ⊢
    rw [hnonce]
    obtain ⟨rfl, -, hhd⟩ | ⟨hj, hold⟩ := System.active_go hd hs hd'
    · obtain ⟨a, ha, hhd', hwork⟩ := h.enter_self hd hd' hst' heap mem
      rw [hwork]
      exact ⟨a, ha, hhd'.trans hhd.symm, mem, .refl⟩
    · rw [Site.enter_of_ne hj]
      exact h.work j d' hold hst'
  · dsimp only
    rw [hexec]
    exact h.executed

/-- A new instance has no workers that run. -/
theorem restart (h : s.Sound) {nonce : UInt32}
    (hs : s.sys.step (.host (.restart nonce v.numbers)) = some t) (hsys : t.Sound) :
    ({ s with sys := t, inside := fun _ => false, store := v.store } : Site v sum).Sound := by
  have hcarries := h.carries.step h.sys (fun n proc args hd heq => by cases heq) hs
  obtain rfl := System.restart_eq hs
  exact ⟨hsys, h.times, h.asked, h.once, hcarries, (fun i d hd => by cases hd),
    (fun i d hd => by cases hd), h.executed⟩

theorem step (h : s.Sound) {e : SiteEvent v sum} (he : s.allowed e = true)
    (hs : s.step e = some s') : s'.Sound := by
  have hturn := Site.turn_of_step hs
  have hsys := hturn.sys_sound he h.sys
  cases hturn with
  | plain hplain ht => exact h.plain hplain ht hsys
  | call ht => exact h.call ht hsys
  | command hd hst hw => exact h.command hw
  | finish hd hst hw ht => exact h.finish hd hst hw ht hsys
  | forward hd hst ht => exact h.forward hd hst ht hsys
  | restart ht => exact h.restart ht hsys

/-- A client and a xid tell which call it is. -/
theorem asked_unique (h : s.Sound) {a b : Asked v} (ha : a ∈ s.asked) (hb : b ∈ s.asked)
    (hclt : a.header.cltNonce = b.header.cltNonce)
    (hxid : a.header.xid.toUInt32 = b.header.xid.toUInt32) : a = b := by
  have hma := (h.asked a ha).1
  rw [hclt] at hma
  have hheader := h.sys.ledger.unique _ _ hma _ (h.asked b hb).1 (int_of_word hxid)
  exact List.inj_on_of_nodup_map h.once ha hb hheader

/-- What a call has returned was given by the handler of the call, on its arguments. -/
theorem returned (h : s.Sound) {r : Return} (hr : r ∈ s.sys.returned) (hret : 0 ≤ r.ret) :
    ∃ k e, s.sys.host.executed[k]? = some e ∧ e.1.key = (r.srv, r.clt, r.xid) ∧
      e.2 = (r.ret, r.body) ∧ ∃ a ∈ s.asked, a.Is e.1 ∧ a.before ≤ k ∧
        ∃ mem, (Service.prog r.srv a.op mem).Ends (r.ret, r.body) := by
  obtain ⟨proc, he⟩ := h.sys.returned r hr hret
  obtain ⟨k, hk⟩ := List.mem_iff_getElem?.mp he
  obtain ⟨a, ha, his, hbefore, hends⟩ := h.executed k _ hk
  exact ⟨k, _, hk, rfl, rfl, a, ha, his, hbefore, hends⟩

end Site.Sound

/-- The call that has returned, and what its method has given for its arguments. A reply that fits
into an int is read back as it was given. -/
structure Site.Answers {v : Service M C R S} (s : Site v sum) (r : Return) (a : Asked v) : Prop where
  asked : a ∈ s.asked
  clt : a.header.cltNonce = r.clt
  xid : a.header.xid.toUInt32 = r.xid
  given : ∀ o, a.op = some o → ∃ b, o.proc.Gives o.args b ∧ b.1 = r.ret ∧
    (rpcHeaderSz sum + r.body.length < 2 ^ 31 →
      ∀ d, callM sum o.proc.res d r = some (r.ret, o.proc.res.onto d b.2))

/-- A call that has returned no failure has its answer. -/
theorem Site.Sound.answers {v : Service M C R S} {s : Site v sum} (h : s.Sound) {r : Return}
    (hr : r ∈ s.sys.returned) (hret : 0 ≤ r.ret) : ∃ a, s.Answers r a := by
  obtain ⟨k, e, -, hkey, -, a, ha, ⟨hclt, hxid, -⟩, -, mem, hends⟩ := h.returned hr hret
  obtain ⟨-, hclt', hxid'⟩ : e.1.srv = r.srv ∧ e.1.clt = r.clt ∧ e.1.xid = r.xid := by
    simpa [Task.key] using hkey
  refine ⟨a, ha, hclt.trans hclt', hxid.trans hxid', fun o ho => ?_⟩
  rw [ho] at hends
  obtain ⟨b, hb, heq⟩ := Program.Ends.of_bind_pure hends
  obtain ⟨hval, hbody⟩ := Prod.mk.inj heq
  exact ⟨b, ⟨mem, hb⟩, hval.symm, fun hsmall d => callM_eq d hret hbody hsmall⟩

end Yfs.Rpc
