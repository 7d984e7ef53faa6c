import Mathlib
import Yfs.Server.TestService

/-! What clients can rely on, whatever becomes of their messages and of the server. -/
namespace Yfs.Server
open Effect Rpc

section Runs

variable {M C S : Type} {R : C → Type} {v : Service M C R S}

/-- Client 1 has a connection. -/
def connected : List (SiteEvent v false) := [.sys (.host (.accept 1 3 0)), .sys (.host (.server .insert))]

/-- It makes a call, and a worker takes so many steps with its request. -/
def served (op : Option (Op v)) (xid : UInt32) (mem : M)
    (small : rpcHeaderSz false + (Service.enc op).length < 2 ^ 31) (steps : ℕ) :
    List (SiteEvent v false) :=
  [.call 1 op (fun _ _ => 0) small, .sys (.transmit 1 xid 0), .sys (.host (.deliver 0 true)),
    .sys (.host (.server .returned)), .sys (.host (.server (.take 0)))] ++
  .replicate steps (.go 0 (fun _ _ => 0) mem)

/-- The reply arrives, and the call returns. -/
def collected (xid : UInt32) : List (SiteEvent v false) :=
  [.sys (.reply 0), .sys (.finish 1 xid), .sys (.ret 1 0)]

theorem bind_small : rpcHeaderSz false + (Service.enc (none : Option (Op v))).length < 2 ^ 31 := by
  have hlen : (Service.enc (none : Option (Op v))).length = 4 := rfl
  rw [hlen]
  decide

/-- It binds. -/
def bound (mem : M) : List (SiteEvent v false) :=
  connected ++ served none 1 mem bind_small 7 ++ collected 1 ++ [.sys (.bind 1 0)]

end Runs

theorem handleFast_lt : 1 < srv.procs.length := by decide

/-- `handle_fast` of 41 -/
def fast41 : Op srv := ⟨⟨1, handleFast_lt⟩, ((41 : Int32), ())⟩

theorem fast41_small : rpcHeaderSz false + (Service.enc (some fast41)).length < 2 ^ 31 := by decide

/-- Once it has bound it calls `handle_fast`. -/
def fastRun : List (SiteEvent srv false) := served (some fast41) 2 () fast41_small 7 ++ collected 2

theorem bound_checked :
    (runs (checked Site.step Site.allowed) (bound ()) (Site.init srv 5 false)).map
      (fun s => s.sys.returned.map fun r => (r.clt, r.xid, r.ret)) = some [(1, 1, 0)] := by
  decide_cbv

theorem fastRun_checked :
    (runs (checked Site.step Site.allowed) (bound () ++ fastRun) (Site.init srv 5 false)).map
      (fun s => s.sys.returned.map fun r => (r.ret, r.body)) =
        some [(0, netBytes 5), (0, netBytes 42)] := by
  decide_cbv

section Calls

variable {M C S : Type} {R : C → Type} {sum : Bool} {v : Service M C R S}

/-- A call that is made after another has returned is executed after it. -/
theorem returned_before_asked {nonce : UInt32} (hn : nonce ≠ 0) (lossytest : Bool)
    {es es' : List (SiteEvent v sum)} {s s' : Site v sum}
    (hm : Meets Site.step (fun s e => s.allowed e = true) (es ++ es') (Site.init v nonce lossytest))
    (hr : runs Site.step es (Site.init v nonce lossytest) = some s)
    (hr' : runs Site.step es' s = some s') :
    ∀ r ∈ s.sys.returned, 0 ≤ r.ret → ∀ a ∈ s'.asked, a ∉ s.asked → ∀ r', r'.clt = a.header.cltNonce →
      r'.xid = a.header.xid.toUInt32 → ∀ k k', s'.Place r k → s'.Place r' k' → k < k' := by
  intro r hreturned hret a ha hnew r' hclt hxid k k' hk hk'
  obtain ⟨hmeets, hmeets'⟩ := hm.of_append _ hr
  have h : s.Sound := hmeets.invariant Site.step (fun s e s' h he hs => h.step he hs)
    (.init hn lossytest) hr
  have hstep : ∀ (t : Site v sum) e t', t.Sound ∧ s.Later t → t.allowed e = true →
      t.step e = some t' → t'.Sound ∧ s.Later t' := by
    intro t e t' ht he hs
    exact ⟨ht.1.step he hs, ht.2.step ht.1 hs⟩
  obtain ⟨h', hl⟩ := hmeets'.invariant Site.step hstep ⟨h, List.prefix_rfl, fun a => Or.inl⟩ hr'
  -- the execution of the call that has returned was there when the other call was made
  obtain ⟨proc, he⟩ := h.sys.returned r hreturned hret
  obtain ⟨k₀, hk₀⟩ := List.mem_iff_getElem?.mp he
  have hlt := (List.getElem?_eq_some_iff.mp hk₀).1
  have hplace : s'.Place r k₀ := by
    obtain ⟨more, hmore⟩ := hl.executed
    refine ⟨proc, ?_⟩
    rw [← hmore, List.getElem?_append_left hlt]
    exact hk₀
  obtain rfl := h'.place_unique hk hplace
  obtain ⟨b, hb, hclt', hxid', hbefore, -⟩ := h'.placed hk'
  obtain rfl := h'.asked_unique hb ha (hclt'.trans hclt) (hxid'.trans hxid)
  obtain hold | hlater := hl.asked b hb
  · exact absurd hold hnew
  · omega

theorem returned_before_asked_example : ∃ s s' : Site srv false,
    s.sys.returned.map (fun r => (r.clt, r.xid, r.ret)) = [(1, 1, 0)] ∧
      s'.sys.returned.map (fun r => (r.ret, r.body)) = [(0, netBytes 5), (0, netBytes 42)] ∧
      ∀ r ∈ s.sys.returned, 0 ≤ r.ret → ∀ a ∈ s'.asked, a ∉ s.asked →
        ∀ r', r'.clt = a.header.cltNonce → r'.xid = a.header.xid.toUInt32 →
          ∀ k k', s'.Place r k → s'.Place r' k' → k < k' := by
  obtain ⟨s', hs', hret'⟩ := Option.map_eq_some_iff.mp fastRun_checked
  obtain ⟨hm, hr'⟩ := meets_of_checked Site.step hs'
  obtain ⟨s, hr, hr'⟩ := (runs_append_eq_some Site.step).mp hr'
  obtain ⟨s₁, hs, hret⟩ := Option.map_eq_some_iff.mp bound_checked
  obtain rfl := Option.some.inj ((meets_of_checked Site.step hs).2.symm.trans hr)
  exact ⟨s₁, s', hret, hret', returned_before_asked (by decide) false hm hr hr'⟩

end Calls

end Yfs.Server
