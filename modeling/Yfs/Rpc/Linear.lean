import Yfs.Effect.Object
import Yfs.Rpc.Typed

/-! The handlers of an instance as operations on its store. In the order in which they return they
are done one after the other, and this is an order that clients can see. -/
namespace Yfs.Rpc
open Effect

variable {M C S : Type} {R : C → Type} {sum : Bool} {v : Service M C R S}

namespace Site

/-- The method that is called with this xid, if it is no `bind`. -/
def opOf (s : Site v sum) (clt xid : UInt32) : Option (Op v) :=
  (s.asked.find? fun a => a.header.cltNonce = clt ∧ a.header.xid.toUInt32 = xid).bind Asked.op

/-- The methods that an instance has executed among these, with what they have given. -/
def row (s : Site v sum) (srv : UInt32) (es : List (Task × Int32 × List UInt8)) :
    List (Op v × Int32 × List UInt8) :=
  es.filterMap fun e =>
    if e.1.srv = srv then (s.opOf e.1.clt e.1.xid).map fun o => (o, e.2) else none

def log (s : Site v sum) (srv : UInt32) : List (Op v × Int32 × List UInt8) :=
  s.row srv s.sys.host.executed

def doing (s : Site v sum) (i : Worker) : Option (Doing (Op v) C R (Int32 × List UInt8)) :=
  (s.sys.host.rpcs.active i).bind fun d =>
    if d.stage = .handle then
      (s.opOf d.header.cltNonce d.header.xid.toUInt32).map fun o => ⟨o, s.work i, s.inside i⟩
    else none

/-- The store of the running instance, with the handlers that use it. -/
def object (s : Site v sum) : Object Worker (Op v) C R (Int32 × List UInt8) S where
  doing := s.doing
  store := s.store
  log := s.log s.sys.host.rpcs.nonce

/-- What an event is to the store. -/
def objectEvent (s : Site v sum) : SiteEvent v sum → Option (ObjectEvent Worker (Op v) M)
  | .go i _ mem => (s.sys.host.rpcs.active i).bind fun d =>
    (s.opOf d.header.cltNonce d.header.xid.toUInt32).bind fun o =>
      if d.stage = .handle then
        some (if (s.work i).pending.isSome then .command i else .leave i)
      else if ((s.sys.step (.host (.go i 0 []))).bind fun t => t.host.rpcs.active i).map
          Dispatch.stage = some .handle then
        some (.enter i o mem)
      else none
  | _ => none

/-- What `P` says of the handlers. -/
def Handlers (P : Object Worker (Op v) C R (Int32 × List UInt8) S →
    ObjectEvent Worker (Op v) M → Prop) (s : Site v sum) (e : SiteEvent v sum) : Prop :=
  s.allowed e = true ∧ ∀ o, s.objectEvent e = some o → P s.object o

/-- What an event that is no restart does to the stores. -/
structure Follows (s : Site v sum) (e : SiteEvent v sum) (s' : Site v sum) : Prop where
  nonce : s'.sys.host.rpcs.nonce = s.sys.host.rpcs.nonce
  instances : s'.sys.host.instances = s.sys.host.instances
  others : ∀ srv, srv ≠ s.sys.host.rpcs.nonce → s'.log srv = s.log srv
  object : (s.objectEvent e).elim (s'.object = s.object) fun o =>
    Object.step Op.prog v.exec s.object o = some s'.object

variable {s s' : Site v sum} {t : System sum}

theorem Sound.opOf_eq (h : s.Sound) {a : Asked v} (ha : a ∈ s.asked) :
    s.opOf a.header.cltNonce a.header.xid.toUInt32 = a.op := by
  unfold opOf
  cases hf : s.asked.find? fun b =>
      b.header.cltNonce = a.header.cltNonce ∧ b.header.xid.toUInt32 = a.header.xid.toUInt32 with
  | none =>
    have hnone := List.find?_eq_none.mp hf a ha
    exact absurd (decide_eq_true ⟨rfl, rfl⟩) hnone
  | some b =>
    have hkey := List.find?_some hf
    rw [decide_eq_true_eq] at hkey
    rw [h.asked_unique (List.mem_of_find?_eq_some hf) ha hkey.1 hkey.2]
    rfl

/-- A handler belongs to a call; that of `bind` issues no commands. -/
theorem Sound.doing_cases (h : s.Sound) {i : Worker} {d : Dispatch}
    (hd : s.sys.host.rpcs.active i = some d) (hst : d.stage = .handle) :
    (∃ o, s.opOf d.header.cltNonce d.header.xid.toUInt32 = some o ∧
      s.doing i = some ⟨o, s.work i, s.inside i⟩) ∨
    s.opOf d.header.cltNonce d.header.xid.toUInt32 = none ∧ s.doing i = none ∧
      (s.work i).pending = none := by
  obtain ⟨a, ha, hhd, mem, hleft⟩ := h.work i d hd hst
  have hop := h.opOf_eq ha
  rw [hhd] at hop
  unfold doing
  rw [hd, Option.bind_some, if_pos hst, hop]
  cases ho : a.op with
  | some o => exact Or.inl ⟨o, rfl, rfl⟩
  | none =>
    rw [ho] at hleft
    rw [Program.Left.of_pure hleft]
    exact Or.inr ⟨rfl, rfl, rfl⟩

theorem doing_of_ne {i : Worker} {d : Dispatch} (hd : s.sys.host.rpcs.active i = some d)
    (hst : d.stage ≠ .handle) : s.doing i = none := by
  unfold doing
  rw [hd, Option.bind_some, if_neg hst]

theorem doing_of_none {i : Worker} (hi : s.sys.host.rpcs.active i = none) : s.doing i = none := by
  unfold doing
  rw [hi, Option.bind_none]

theorem doing_of_handle {i : Worker} {d : Dispatch} {o : Op v}
    (hd : s.sys.host.rpcs.active i = some d) (hst : d.stage = .handle)
    (ho : s.opOf d.header.cltNonce d.header.xid.toUInt32 = some o) :
    s.doing i = some ⟨o, s.work i, s.inside i⟩ := by
  unfold doing
  rw [hd, Option.bind_some, if_pos hst, ho]
  rfl

/-- What concerns one worker only. -/
theorem object_update {i : Worker} (hasked : s'.asked = s.asked)
    (hactive : ∀ j, j ≠ i → s'.sys.host.rpcs.active j = s.sys.host.rpcs.active j)
    (hwork : ∀ j, j ≠ i → s'.work j = s.work j) (hinside : ∀ j, j ≠ i → s'.inside j = s.inside j) :
    s'.object = { s.object.setDoing i (s'.doing i) with
      store := s'.store
      log := s'.log s'.sys.host.rpcs.nonce } := by
  have hdoing : s'.doing = Function.update s.doing i (s'.doing i) := by
    funext j
    by_cases hj : j = i
    · rw [hj, Function.update_self]
    · rw [Function.update_of_ne hj]
      unfold doing opOf
      rw [hactive j hj, hwork j hj, hinside j hj, hasked]
  unfold Site.object Object.setDoing
  dsimp only
  rw [← hdoing]

/-- Calls that are made later do not change what the earlier ones are. -/
theorem opOf_append {more : List (Asked v)} {clt xid : UInt32}
    (hask : ∃ a ∈ s.asked, a.header.cltNonce = clt ∧ a.header.xid.toUInt32 = xid)
    (hs' : s'.asked = s.asked ++ more) : s'.opOf clt xid = s.opOf clt xid := by
  obtain ⟨a, ha, hkey⟩ := hask
  unfold opOf
  rw [hs', List.find?_append]
  cases hf : s.asked.find? fun a => a.header.cltNonce = clt ∧ a.header.xid.toUInt32 = xid with
  | none => exact absurd (decide_eq_true hkey) (List.find?_eq_none.mp hf a ha)
  | some b => rfl

theorem Sound.log_append (h : s.Sound) {more : List (Asked v)}
    (hs' : s'.asked = s.asked ++ more) (hexec : s'.sys.host.executed = s.sys.host.executed)
    (srv : UInt32) : s'.log srv = s.log srv := by
  unfold log row
  rw [hexec]
  refine List.filterMap_congr fun e he => ?_
  obtain ⟨k, hk⟩ := List.mem_iff_getElem?.mp he
  obtain ⟨a, ha, his, -⟩ := h.executed k e hk
  rw [opOf_append ⟨a, ha, his.1, his.2.1⟩ hs']

/-- Events that leave the calls and the handlers as they are. -/
theorem Follows.of_eq (hasked : s'.asked = s.asked)
    (hexec : s'.sys.host.executed = s.sys.host.executed)
    (hnonce : s'.sys.host.rpcs.nonce = s.sys.host.rpcs.nonce)
    (hinst : s'.sys.host.instances = s.sys.host.instances) (hstore : s'.store = s.store)
    (hdoing : s'.doing = s.doing) {e : SiteEvent v sum} (he : s.objectEvent e = none) :
    s.Follows e s' := by
  have hlog : ∀ srv, s'.log srv = s.log srv := by
    intro srv
    unfold log row opOf
    rw [hasked, hexec]
  refine ⟨hnonce, hinst, fun srv _ => hlog srv, ?_⟩
  rw [he]
  change s'.object = s.object
  unfold Site.object
  rw [hdoing, hstore, hnonce, hlog]

theorem Sound.follows_plain (h : s.Sound) {e : SystemEvent sum} (he : e.plain = true)
    (hs : s.sys.step e = some t) :
    s.Follows (.sys e) { s with sys := t, reqs := s.taken e } := by
  have hp := System.plain_step h.sys he hs
  refine Follows.of_eq (by rfl) hp.executed hp.nonce hp.instances (by rfl)
    (funext fun i => ?_) (by rfl)
  unfold doing
  dsimp only
  obtain ⟨-, hactive⟩ | ⟨k, j, q, -, -, hk, hactive⟩ := hp.active
  · rw [hactive]
    rfl
  · rw [hactive]
    by_cases hik : i = k
    · rw [hik, Function.update_self, hk]
      rfl
    · rw [Function.update_of_ne hik]
      rfl

theorem Sound.follows_call (h : s.Sound) {n : UInt32} {op : Option (Op v)} {heap : ℕ → ℕ → UInt8}
    {small : rpcHeaderSz sum + (Service.enc op).length < 2 ^ 31} {made : List ReqHeader}
    (hhost : t.host = s.sys.host) :
    s.Follows (.call n op heap small) { s with sys := t, asked := s.ask op made } := by
  have hexec := congrArg Host.executed hhost
  have hlog : ∀ srv, ({ s with sys := t, asked := s.ask op made } : Site v sum).log srv =
      s.log srv := h.log_append rfl hexec
  refine ⟨congrArg (fun x => x.rpcs.nonce) hhost, congrArg Host.instances hhost,
    fun srv _ => hlog srv, ?_⟩
  change ({ s with sys := t, asked := s.ask op made } : Site v sum).object = s.object
  have hdoing : ({ s with sys := t, asked := s.ask op made } : Site v sum).doing = s.doing := by
    funext i
    unfold doing
    dsimp only
    rw [hhost]
    cases hd : s.sys.host.rpcs.active i with
    | none => rfl
    | some d =>
      obtain ⟨a, ha, hhd, -⟩ := h.reqs i d hd
      rw [Option.bind_some, Option.bind_some, opOf_append (s := s) ⟨a, ha, hhd ▸ rfl, hhd ▸ rfl⟩ rfl]
  unfold Site.object
  rw [hdoing, hlog]
  dsimp only
  rw [hhost]

theorem Sound.follows_command (h : s.Sound) {i : Worker} {heap : ℕ → ℕ → UInt8} {mem : M}
    {d : Dispatch} {c : C} {k : R c → Program C R (Int32 × List UInt8)}
    (hd : s.sys.host.rpcs.active i = some d) (hst : d.stage = .handle) (hw : s.work i = .call c k) :
    s.Follows (.go i heap mem) { s with
      work := Function.update s.work i (k (v.exec c s.store).1)
      inside := Function.update s.inside i true
      store := (v.exec c s.store).2 } := by
  refine ⟨rfl, rfl, fun srv _ => rfl, ?_⟩
  obtain ⟨o, ho, hdoing⟩ | ⟨-, -, hpure⟩ := h.doing_cases hd hst
  · have hevent : s.objectEvent (.go i heap mem) = some (.command i) := by
      unfold objectEvent
      dsimp only
      rw [hd, Option.bind_some, ho, Option.bind_some, if_pos hst, hw]
      rfl
    rw [hevent]
    change Object.step Op.prog v.exec s.object (.command i) = _
    have hmine : s.object.doing i = some ⟨o, s.work i, s.inside i⟩ := hdoing
    refine Eq.trans ?_ (congrArg some (object_update (s := s) (i := i) (by rfl)
      (fun _ _ => by rfl) (fun j hj => by exact Function.update_of_ne hj _ _)
      fun j hj => by exact Function.update_of_ne hj _ _).symm)
    rw [doing_of_handle (s := { s with
      work := Function.update s.work i (k (v.exec c s.store).1)
      inside := Function.update s.inside i true
      store := (v.exec c s.store).2 }) hd hst ho]
    unfold Object.step
    dsimp only
    rw [hmine, Option.bind_some, hw, Function.update_self, Function.update_self]
    rfl
  · rw [hw] at hpure
    cases hpure

/-- No handler has issued a command before it is entered. -/
def Tidy (s : Site v sum) : Prop :=
  ∀ i, s.inside i = true → ∃ d, s.sys.host.rpcs.active i = some d ∧ d.stage = .handle

theorem not_handle_of_go {i : Worker} {d d' : Dispatch} {b : Int32 × List UInt8}
    (hd : s.sys.host.rpcs.active i = some d) (hst : d.stage = .handle)
    (hs : s.sys.step (.host (.go i b.1 b.2)) = some t) (hd' : t.host.rpcs.active i = some d') :
    d'.stage ≠ .handle := by
  obtain ⟨-, hnext, -⟩ | ⟨hi, -⟩ := System.active_go hd hs hd'
  · intro hst'
    rw [hst', hst] at hnext
    exact absurd hnext (by decide)
  · exact absurd rfl hi

theorem Sound.follows_finish (h : s.Sound) {i : Worker} {heap : ℕ → ℕ → UInt8} {mem : M}
    {d : Dispatch} {b : Int32 × List UInt8} (hd : s.sys.host.rpcs.active i = some d)
    (hst : d.stage = .handle) (hw : s.work i = .pure b)
    (hs : s.sys.step (.host (.go i b.1 b.2)) = some t) :
    s.Follows (.go i heap mem) { s with sys := t, inside := Function.update s.inside i false } := by
  obtain ⟨hexec, hinst, hnonce, hactive⟩ := System.go_kept hd hs
  rw [if_pos hst] at hexec
  generalize hs' : { s with sys := t, inside := Function.update s.inside i false } = s'
  have hsys : s'.sys = t := by rw [← hs']
  have hlog : ∀ srv, s'.log srv = s.log srv ++ (if s.sys.host.rpcs.nonce = srv then
      (s.opOf d.header.cltNonce d.header.xid.toUInt32).map fun o => (o, b) else none).toList := by
    intro srv
    unfold log row
    rw [hsys, hexec, List.filterMap_append, ← hs']
    refine congrArg _ ?_
    cases hone : (if s.sys.host.rpcs.nonce = srv then
      (s.opOf d.header.cltNonce d.header.xid.toUInt32).map fun o => (o, b) else none) with
    | none => exact List.filterMap_cons_none hone
    | some x => exact List.filterMap_cons_some hone
  have hnone : s'.doing i = none := by
    cases hd' : t.host.rpcs.active i with
    | none => exact doing_of_none (hsys ▸ hd')
    | some d' => exact doing_of_ne (hsys ▸ hd') (not_handle_of_go hd hst hs hd')
  have hobject : s'.object = { s.object.setDoing i (s'.doing i) with
      store := s'.store
      log := s'.log s'.sys.host.rpcs.nonce } := object_update (by rw [← hs'])
    (fun j hj => hsys ▸ hactive j hj) (fun j hj => by rw [← hs'])
    (fun j hj => by rw [← hs']; exact Function.update_of_ne hj _ _)
  have hstore : s'.store = s.store := by rw [← hs']
  rw [hnone, hstore, hsys, hnonce, hlog, if_pos rfl] at hobject
  refine ⟨hsys ▸ hnonce, hsys ▸ hinst, fun srv hsrv => ?_, ?_⟩
  · rw [hlog, if_neg hsrv.symm]
    exact List.append_nil _
  · obtain ⟨o, ho, hdoing⟩ | ⟨ho, hdoing, -⟩ := h.doing_cases hd hst
    · have hevent : s.objectEvent (.go i heap mem) = some (.leave i) := by
        unfold objectEvent
        dsimp only
        rw [hd, Option.bind_some, ho, Option.bind_some, if_pos hst, hw]
        rfl
      have hmine : s.object.doing i = some ⟨o, s.work i, s.inside i⟩ := hdoing
      rw [hevent, hobject, ho]
      change Object.step Op.prog v.exec s.object (.leave i) = _
      unfold Object.step
      dsimp only
      rw [hmine, Option.bind_some, hw]
      rfl
    · have hevent : s.objectEvent (.go i heap mem) = none := by
        unfold objectEvent
        dsimp only
        rw [hd, Option.bind_some, ho, Option.bind_none]
      rw [hevent, hobject, ho]
      change _ = s.object
      unfold Object.setDoing
      have hsame : Function.update s.object.doing i none = s.object.doing := by
        rw [← hdoing]
        exact Function.update_eq_self i s.doing
      rw [hsame]
      exact congrArg (fun l => (⟨s.object.doing, s.store, l⟩ : Object ..)) (List.append_nil _)

/-- What the object sees of a step before the handler. -/
theorem objectEvent_forward {i : Worker} {d : Dispatch} (hd : s.sys.host.rpcs.active i = some d)
    (hst : d.stage ≠ .handle) (hs : s.sys.step (.host (.go i 0 [])) = some t)
    (heap : ℕ → ℕ → UInt8) (mem : M) :
    s.objectEvent (.go i heap mem) =
      if (t.host.rpcs.active i).map Dispatch.stage = some .handle then
        (s.opOf d.header.cltNonce d.header.xid.toUInt32).map fun o => .enter i o mem
      else none := by
  unfold objectEvent
  dsimp only
  rw [hd, Option.bind_some]
  cases s.opOf d.header.cltNonce d.header.xid.toUInt32 with
  | none => rw [Option.bind_none, Option.map_none, ite_self]
  | some o => rw [Option.bind_some, if_neg hst, hs, Option.bind_some, Option.map_some]

theorem Sound.follows_forward (h : s.Sound) (htidy : s.Tidy) {i : Worker} {heap : ℕ → ℕ → UInt8}
    {mem : M} {d : Dispatch} (hd : s.sys.host.rpcs.active i = some d) (hst : d.stage ≠ .handle)
    (hs : s.sys.step (.host (.go i 0 [])) = some t) :
    s.Follows (.go i heap mem) { s with sys := t, work := s.enter t i d heap mem } := by
  obtain ⟨hexec, hinst, hnonce, hactive⟩ := System.go_kept hd hs
  rw [if_neg hst] at hexec
  generalize hs' : { s with sys := t, work := s.enter t i d heap mem } = s'
  have hsys : s'.sys = t := by rw [← hs']
  have hasked : s'.asked = s.asked := by rw [← hs']
  have hstore : s'.store = s.store := by rw [← hs']
  have hlog : ∀ srv, s'.log srv = s.log srv :=
    h.log_append (hasked.trans (List.append_nil s.asked).symm) (hsys ▸ hexec)
  have hobject : s'.object = { s.object.setDoing i (s'.doing i) with
      store := s'.store
      log := s'.log s'.sys.host.rpcs.nonce } := object_update hasked
    (fun j hj => hsys ▸ hactive j hj) (fun j hj => by rw [← hs']; exact Site.enter_of_ne hj)
    (fun j hj => by rw [← hs'])
  rw [hstore, hsys, hnonce, hlog] at hobject
  have hdoing : s.doing i = none := doing_of_ne hd hst
  refine ⟨hsys ▸ hnonce, hsys ▸ hinst, fun srv _ => hlog srv, ?_⟩
  -- unless the handler of a method is entered, the store sees nothing of this
  have hquiet : s.objectEvent (.go i heap mem) = none → s'.doing i = none →
      (s.objectEvent (.go i heap mem)).elim (s'.object = s.object) fun o =>
        Object.step Op.prog v.exec s.object o = some s'.object := by
    intro hevent hnone
    have hsame : Function.update s.object.doing i none = s.object.doing := by
      rw [← hdoing]
      exact Function.update_eq_self i s.doing
    rw [hevent, hobject, hnone]
    change _ = s.object
    unfold Object.setDoing
    rw [hsame]
    rfl
  have hevent := objectEvent_forward hd hst hs heap mem
  cases hd' : t.host.rpcs.active i with
  | none =>
    refine hquiet ?_ (doing_of_none (hsys ▸ hd'))
    rw [hevent, hd']
    exact if_neg (Option.some_ne_none _).symm
  | some d' =>
    by_cases hst' : d'.stage = .handle
    · obtain ⟨a, ha, hhd, hwork⟩ := h.enter_self hd hd' hst' heap mem
      have hop := h.opOf_eq ha
      rw [hhd] at hop
      obtain ⟨-, -, hhd'⟩ | ⟨hi, -⟩ := System.active_go hd hs hd'
      · have hop' : s'.opOf d'.header.cltNonce d'.header.xid.toUInt32 = a.op := by
          rw [hhd', ← hop]
          unfold opOf
          rw [hasked]
        rw [hd', Option.map_some, hst', if_pos rfl, hop] at hevent
        cases ho : a.op with
        | none =>
          rw [ho] at hevent hop'
          refine hquiet hevent ?_
          unfold doing
          rw [hsys, hd', Option.bind_some, if_pos hst', hop']
          rfl
        | some o =>
          have hinside : s.inside i = false := by
            rw [← Bool.not_eq_true]
            intro hin
            obtain ⟨e, he, hest⟩ := htidy i hin
            rw [hd] at he
            rw [← Option.some.inj he] at hest
            exact hst hest
          have hnew : s'.doing i = some ⟨o, o.prog mem, false⟩ := by
            rw [doing_of_handle (hsys ▸ hd') hst' (hop'.trans ho), ← hinside, ← hs']
            dsimp only
            rw [hwork, ho]
            rfl
          rw [ho] at hevent
          rw [hevent, hobject, hnew]
          change Object.step Op.prog v.exec s.object (.enter i o mem) = _
          unfold Object.step
          have hmine : s.object.doing i = none := hdoing
          dsimp only
          rw [hmine]
          rfl
      · exact absurd rfl hi
    · refine hquiet ?_ (doing_of_ne (hsys ▸ hd') hst')
      rw [hevent, hd', Option.map_some, if_neg]
      rw [Option.some_inj]
      exact hst'

theorem Sound.follows (h : s.Sound) (htidy : s.Tidy) {e : SiteEvent v sum}
    (he : ∀ nonce, e ≠ .restart nonce) (hs : s.step e = some s') : s.Follows e s' := by
  cases turn_of_step hs with
  | plain hplain ht => exact h.follows_plain hplain ht
  | call ht => exact h.follows_call (System.call_cases h.sys ht).1
  | command hd hst hw => exact h.follows_command hd hst hw
  | finish hd hst hw ht => exact h.follows_finish hd hst hw ht
  | forward hd hst ht => exact h.follows_forward htidy hd hst ht
  | restart ht => exact absurd rfl (he _)

/-- A new instance has a store of its own, and has executed nothing. -/
theorem Sound.follows_restart (h : s.Sound) {nonce : UInt32}
    (hnew : nonce ∉ s.sys.host.instances) (hs : s.step (.restart nonce) = some s') :
    s'.sys.host.rpcs.nonce = nonce ∧ s'.sys.host.instances = s.sys.host.instances ++ [nonce] ∧
      (∀ srv, s'.log srv = s.log srv) ∧ s'.object = Object.start v.store := by
  unfold Site.step at hs
  obtain ⟨t, ht, rfl⟩ := Option.map_eq_some_iff.mp hs
  obtain rfl := System.restart_eq ht
  refine ⟨rfl, rfl, fun srv => rfl, ?_⟩
  have hlog : s.log nonce = [] := by
    refine List.filterMap_eq_nil_iff.mpr fun e he => if_neg fun hsrv => hnew ?_
    have hbooks := h.sys.host.books
    rw [← hsrv]
    exact (hbooks.begun e.1 (hbooks.executed e he).1).1
  exact congrArg (fun l => (⟨fun _ => none, v.store, l⟩ : Object ..)) hlog

variable {P : Object Worker (Op v) C R (Int32 × List UInt8) S → ObjectEvent Worker (Op v) M → Prop}

/-- What an instance has executed has come about in a run of operations on its store. -/
def Ran (P : Object Worker (Op v) C R (Int32 × List UInt8) S → ObjectEvent Worker (Op v) M → Prop)
    (s : Site v sum) (srv : UInt32) : Prop :=
  ∃ os x, Meets (Object.step Op.prog v.exec) P os (Object.start v.store) ∧
    runs (Object.step Op.prog v.exec) os (Object.start v.store) = some x ∧ x.log = s.log srv ∧
    (srv = s.sys.host.rpcs.nonce → x = s.object)

theorem Ran.step (h : s.Sound) (htidy : s.Tidy) {e : SiteEvent v sum} (he : s.Handlers P e)
    (hs : s.step e = some s') (hran : ∀ srv ∈ s.sys.host.instances, s.Ran P srv) :
    ∀ srv ∈ s'.sys.host.instances, s'.Ran P srv := by
  intro srv hsrv
  by_cases hrestart : ∃ nonce, e = .restart nonce
  · obtain ⟨nonce, rfl⟩ := hrestart
    have hnew : nonce ∉ s.sys.host.instances := by
      have hallowed : (nonce ≠ 0 && nonce ∉ s.sys.host.instances) = true := he.1
      rw [Bool.and_eq_true, decide_eq_true_eq, decide_eq_true_eq] at hallowed
      exact hallowed.2
    obtain ⟨hnonce, hinst, hlog, hobject⟩ := h.follows_restart hnew hs
    rw [hinst] at hsrv
    obtain hsrv | hsrv := List.mem_append.mp hsrv
    · obtain ⟨os, x, hm, hr, hx, -⟩ := hran srv hsrv
      refine ⟨os, x, hm, hr, hx.trans (hlog srv).symm, fun heq => absurd ?_ hnew⟩
      rwa [← hnonce, ← heq]
    · have heq : srv = s'.sys.host.rpcs.nonce := (List.mem_singleton.mp hsrv).trans hnonce.symm
      refine ⟨[], _, trivial, rfl, ?_, fun _ => hobject.symm⟩
      rw [heq, ← hobject]
      rfl
  · have hf := h.follows htidy (fun nonce heq => hrestart ⟨nonce, heq⟩) hs
    rw [hf.instances] at hsrv
    obtain ⟨os, x, hm, hr, hx, hcur⟩ := hran srv hsrv
    by_cases heq : srv = s.sys.host.rpcs.nonce
    · obtain rfl := hcur heq
      have hlog : s'.object.log = s'.log srv := by
        rw [heq, ← hf.nonce]
        rfl
      have hobject := hf.object
      cases hevent : s.objectEvent e with
      | none =>
        rw [hevent] at hobject
        have hsame : s'.object = s.object := hobject
        exact ⟨os, s.object, hm, hr, hsame ▸ hlog, fun _ => hsame.symm⟩
      | some o =>
        rw [hevent] at hobject
        refine ⟨os ++ [o], s'.object, hm.snoc _ hr (he.2 o hevent), ?_, hlog, fun _ => rfl⟩
        exact (runs_append_eq_some _).mpr ⟨s.object, hr, (runs_singleton _ _ _).trans hobject⟩
    · refine ⟨os, x, hm, hr, hx.trans (hf.others srv heq).symm, fun h' => absurd ?_ heq⟩
      rwa [hf.nonce] at h'

/-- What a call has returned is what this execution has given. -/
def Place (s : Site v sum) (r : Return) (k : ℕ) : Prop :=
  ∃ proc, s.sys.host.executed[k]? = some (⟨r.srv, r.clt, r.xid, proc⟩, r.ret, r.body)

/-- A call is executed at one place only. -/
theorem Sound.place_unique (h : s.Sound) {r : Return} {k k' : ℕ} (hk : s.Place r k)
    (hk' : s.Place r k') : k = k' := by
  obtain ⟨proc, hk⟩ := hk
  obtain ⟨proc', hk'⟩ := hk'
  obtain ⟨hlt, hk⟩ := List.getElem?_eq_some_iff.mp hk
  obtain ⟨hlt', hk'⟩ := List.getElem?_eq_some_iff.mp hk'
  have hi : k < (s.sys.host.executed.map fun e => e.1.key).length := by rwa [List.length_map]
  have hi' : k' < (s.sys.host.executed.map fun e => e.1.key).length := by rwa [List.length_map]
  have heq : (s.sys.host.executed.map fun e => e.1.key)[k] =
      (s.sys.host.executed.map fun e => e.1.key)[k'] := by
    rw [List.getElem_map, List.getElem_map, hk, hk']
    rfl
  exact h.sys.host.books.executedOnce.getElem_inj_iff.mp heq

theorem Sound.placed (h : s.Sound) {r : Return} {k : ℕ} (hk : s.Place r k) :
    ∃ a ∈ s.asked, a.header.cltNonce = r.clt ∧ a.header.xid.toUInt32 = r.xid ∧ a.before ≤ k ∧
      ∀ o, a.op = some o → s.log r.srv = s.row r.srv (s.sys.host.executed.take k) ++
        (o, r.ret, r.body) :: s.row r.srv (s.sys.host.executed.drop (k + 1)) := by
  obtain ⟨proc, hk⟩ := hk
  obtain ⟨a, ha, ⟨hclt, hxid, -⟩, hbefore, -⟩ := h.executed k _ hk
  refine ⟨a, ha, hclt, hxid, hbefore, fun o ho => ?_⟩
  have hop := h.opOf_eq ha
  rw [hclt, hxid, ho] at hop
  obtain ⟨hlt, hk⟩ := List.getElem?_eq_some_iff.mp hk
  have hsplit : s.sys.host.executed = s.sys.host.executed.take k ++
      (⟨r.srv, r.clt, r.xid, proc⟩, r.ret, r.body) :: s.sys.host.executed.drop (k + 1) := by
    rw [← hk, List.getElem_cons_drop, List.take_append_drop]
  unfold log
  nth_rewrite 1 [hsplit]
  unfold row
  rw [List.filterMap_append, List.filterMap_cons_some]
  rw [if_pos rfl, hop]
  rfl

/-- What happens from one state to a later one. -/
structure Later (s s' : Site v sum) : Prop where
  executed : s.sys.host.executed <+: s'.sys.host.executed
  asked : ∀ a ∈ s'.asked, a ∈ s.asked ∨ s.sys.host.executed.length ≤ a.before

theorem Later.step {s₀ : Site v sum} (hl : s₀.Later s) (h : s.Sound) {e : SiteEvent v sum}
    (hs : s.step e = some s') : s₀.Later s' := by
  cases turn_of_step hs with
  | plain he ht => exact ⟨(System.plain_step h.sys he ht).executed ▸ hl.executed, hl.asked⟩
  | @call n op heap small t ht =>
    refine ⟨(System.call_cases h.sys ht).1 ▸ hl.executed, fun a ha => ?_⟩
    obtain ha | ha := List.mem_append.mp ha
    · exact hl.asked a ha
    · obtain ⟨hd, -, rfl⟩ := List.mem_map.mp ha
      exact Or.inr hl.executed.length_le
  | command hd hst hw => exact ⟨hl.executed, hl.asked⟩
  | finish hd hst hw ht =>
    refine ⟨?_, hl.asked⟩
    dsimp only
    rw [(System.go_kept hd ht).1, if_pos hst]
    exact hl.executed.trans (List.prefix_append _ _)
  | forward hd hst ht =>
    have hexec := (System.go_kept hd ht).1.trans (if_neg hst)
    exact ⟨hexec ▸ hl.executed, hl.asked⟩
  | restart ht =>
    obtain rfl := System.restart_eq ht
    exact ⟨hl.executed, hl.asked⟩

end Site

end Yfs.Rpc
