import Yfs.Effect.CondVar
import Yfs.Rpc.Forgotten
import Mathlib.Data.List.Nodup

/-! `rpcc::cancel`: the calls that it ends, and the threads that wait until no call is left. -/
namespace Yfs.Rpc
open Effect

/-- A client, its callers that sleep in `pthread_cond_timedwait`, and the threads that are inside
`cancel`. Those in `destroyWaitC` are blocked. -/
structure Pending (sum : Bool) where
  client : Client sum
  asleep : List UInt32
  inside : List ℕ
  destroyWaitC : CondVar ℕ
  returned : List Return

/-- The sections of the threads of a client. A caller that sleeps can wake up at any time: its
deadline has passed. Where a section signals, `w` may be the thread that is woken. -/
inductive PendingEvent (sum : Bool) where
  | call (proc : Int32) (args : Args sum)
  | transmit (xid : UInt32)
  | sleep (xid : UInt32)
  | wake (xid : UInt32)
  | gotPdu (r : Response)
  | finish (xid : UInt32) (w : ℕ)
  | ret (k : ℕ)
  | bind (k : ℕ)
  | cancel (t : ℕ)
  | resume (t : ℕ)
  | spurious (t : ℕ)

namespace Pending

variable {sum : Bool}

def init (nonce : UInt32) (lossytest : Bool) : Pending sum where
  client := .init nonce lossytest
  asleep := []
  inside := []
  destroyWaitC := []
  returned := []

/-- The loop of `cancel`. -/
def await (s : Pending sum) (t : ℕ) : Pending sum :=
  if s.client.calls = [] then { s with inside := s.inside.erase t }
  else { s with
    client := { s.client with destroyWait := true }
    destroyWaitC := s.destroyWaitC.block t }

/-- The start of `cancel`, which wakes every caller. -/
def cancel (s : Pending sum) (t : ℕ) : Pending sum :=
  let s := { s with
    client := { s.client with
      calls := s.client.calls.map fun (ca : Caller sum) =>
        { ca with done := true, intret := cancelFailure } }
    asleep := s.asleep.filter fun xid => s.client.calls.all fun ca => ca.xid ≠ xid
    inside := t :: s.inside }
  s.await t

def step (s : Pending sum) : PendingEvent sum → Option (Pending sum)
  | .call proc args => (s.client.call1 proc args).map fun
    | .error value => { s with returned := s.returned ++ [⟨s.client.cltNonce, 0, value, [], 0⟩] }
    | .ok c => { s with client := c }
  | .transmit xid =>
    if s.asleep.contains xid then none
    else (s.client.transmit xid).map fun r => { s with client := r.1 }
  | .sleep xid =>
    if ∃ ca ∈ s.client.calls, ca.xid = xid ∧ ca.done = false then
      some { s with asleep := xid :: s.asleep }
    else none
  | .wake xid => some { s with asleep := s.asleep.filter fun x => x ≠ xid }
  | .gotPdu r => (s.client.gotPdu r).map fun c =>
    { s with client := c, asleep := s.asleep.filter fun x => x ≠ r.header.xid.toUInt32 }
  | .finish xid w =>
    if s.asleep.contains xid then none
    else (s.client.finish xid).map fun c =>
      { s with
        client := c
        destroyWaitC := if c.destroyWait then s.destroyWaitC.signal w else s.destroyWaitC }
  | .ret k => (s.client.ret k).map fun r =>
    { s with client := r.2, returned := s.returned ++ [r.1] }
  | .bind k => (s.client.bind k).map fun c => { s with client := c }
  | .cancel t => if t ∈ s.inside then none else some (s.cancel t)
  | .resume t => if t ∈ s.inside ∧ t ∉ s.destroyWaitC then some (s.await t) else none
  | .spurious t => some { s with destroyWaitC := s.destroyWaitC.stir t }

end Pending

namespace Client

variable {sum : Bool} {c c' : Client sum}

theorem call1_destroyWait {proc : Int32} {args : Args sum}
    (hs : c.call1 proc args = some (.ok c')) : c.destroyWait = false := by
  unfold call1 at hs
  split_ifs at hs with hbind hdestroy
  · cases Option.some.inj hs
  · cases Option.some.inj hs
  · simpa using hdestroy

theorem call1_error {proc : Int32} {args : Args sum} {value : Int32}
    (hs : c.call1 proc args = some (.error value)) :
    value = cancelFailure ∨ value = bindFailure := by
  unfold call1 at hs
  split_ifs at hs with hbind hdestroy
  · exact Or.inr (Except.error.inj (Option.some.inj hs)).symm
  · exact Or.inl (Except.error.inj (Option.some.inj hs)).symm
  · obtain ⟨front, -, heq⟩ := Option.map_eq_some_iff.mp hs
    cases heq

/-- The calls, the flag and the window are as they were. -/
structure Frame (c c' : Client sum) : Prop where
  calls : c'.calls = c.calls
  destroyWait : c'.destroyWait = c.destroyWait
  window : c'.xidRepWindow = c.xidRepWindow
  reported : c'.reported = c.reported

theorem transmit_frame {xid : UInt32} {r : Client sum × List (Request sum)}
    (hs : c.transmit xid = some r) : c.Frame r.1 ∧ r.1.leaving = c.leaving := by
  unfold transmit at hs
  obtain ⟨ca, -, rfl⟩ := Option.map_eq_some_iff.mp hs
  split
  · exact ⟨⟨rfl, rfl, rfl, rfl⟩, rfl⟩
  · exact ⟨⟨rfl, rfl, rfl, rfl⟩, rfl⟩

theorem bind_frame {k : ℕ} (hs : c.bind k = some c') :
    c.Frame c' ∧ c'.leaving = c.leaving := by
  obtain ⟨nonce, -, rfl⟩ := Option.map_eq_some_iff.mp hs
  exact ⟨⟨rfl, rfl, rfl, rfl⟩, rfl⟩

/-- A call returns what its caller has. -/
theorem ret_frame {k : ℕ} {r : Return × Client sum} (hs : c.ret k = some r) :
    c.Frame r.2 ∧ r.2.leaving = c.leaving.eraseIdx k ∧
      ∃ ca ∈ c.leaving, r.1.xid = ca.xid ∧
        r.1.ret = if ca.done then ca.intret else timeoutFailure := by
  unfold ret at hs
  obtain ⟨ca, hk, hs⟩ := Option.bind_eq_some_iff.mp hs
  have hkeep : c.Frame (keepDup { c with leaving := c.leaving.eraseIdx k } ca) ∧
      (keepDup { c with leaving := c.leaving.eraseIdx k } ca).leaving = c.leaving.eraseIdx k := by
    unfold keepDup
    split_ifs <;> exact ⟨⟨rfl, rfl, rfl, rfl⟩, rfl⟩
  generalize keepDup { c with leaving := c.leaving.eraseIdx k } ca = c₁ at hs hkeep
  generalize hvalue : (if ca.done then ca.intret else timeoutFailure) = value at hs
  dsimp only at hs
  by_cases hproc : ca.req.header.proc = bindProc ∧ 0 ≤ value
  · rw [if_pos hproc] at hs
    obtain ⟨nonce, -, rfl⟩ := Option.map_eq_some_iff.mp hs
    refine ⟨?_, ?_, ca, List.mem_of_getElem? hk, rfl, hvalue.symm⟩
    · dsimp only
      split_ifs
      · exact ⟨hkeep.1.calls, hkeep.1.destroyWait, hkeep.1.window, hkeep.1.reported⟩
      · exact hkeep.1
    · dsimp only
      split_ifs <;> exact hkeep.2
  · rw [if_neg hproc] at hs
    obtain rfl := Option.some.inj hs
    exact ⟨hkeep.1, hkeep.2, ca, List.mem_of_getElem? hk, rfl, hvalue.symm⟩

theorem gotPdu_eq {r : Response} (hs : c.gotPdu r = some c') :
    ∃ w, updateXidRep c.xidRepWindow r.header.xid.toUInt32 = some w ∧
      c' = { c with
        xidRepWindow := w
        reported := c.reported ++ [r.header.xid.toUInt32]
        calls := c.calls.map (answer r) } := by
  unfold gotPdu at hs
  obtain ⟨c₁, hc₁, rfl⟩ := Option.map_eq_some_iff.mp hs
  obtain ⟨w, hw, rfl⟩ := report_eq_some hc₁
  exact ⟨w, hw, rfl⟩

theorem map_xid_answer (r : Response) (calls : List (Caller sum)) :
    (calls.map (answer r)).map Caller.xid = calls.map Caller.xid := by
  rw [List.map_map]
  refine List.map_congr_left fun ca _ => ?_
  unfold answer
  dsimp only [Function.comp_apply]
  split_ifs <;> rfl

theorem finish_eq {xid : UInt32} (hs : c.finish xid = some c') :
    ∃ ca ∈ c.calls, ca.xid = xid ∧ ∃ w, updateXidRep c.xidRepWindow xid = some w ∧
      c' = { c with
        xidRepWindow := w
        reported := c.reported ++ [xid]
        calls := c.calls.filter fun a => a.xid ≠ xid
        leaving := c.leaving ++ [ca] } := by
  unfold finish at hs
  obtain ⟨ca, hfind, hs⟩ := Option.bind_eq_some_iff.mp hs
  obtain ⟨c₁, hc₁, rfl⟩ := Option.map_eq_some_iff.mp hs
  obtain ⟨w, hw, rfl⟩ := report_eq_some hc₁
  have hxid : ca.xid = xid := by simpa using List.find?_some hfind
  subst hxid
  exact ⟨ca, List.mem_of_find?_eq_some hfind, rfl, w, hw, rfl⟩

/-- The window is the one of the xids that have been reported. -/
def Windowed (c : Client sum) : Prop := reportAll c.reported = some c.xidRepWindow

theorem Windowed.report (h : c.Windowed) (xid : UInt32) :
    ∃ w, updateXidRep c.xidRepWindow xid = some w ∧
      reportAll (c.reported ++ [xid]) = some w := by
  obtain ⟨f, w, hw, -⟩ := reportAll_tracks (c.reported ++ [xid])
  refine ⟨f :: w, ?_, hw⟩
  have hlast := hw
  rw [reportAll, List.foldlM_append, ← reportAll, h] at hlast
  simpa using hlast

end Client

namespace Pending

variable {sum : Bool} {s s' : Pending sum}

/-- What the sections do. -/
inductive Turns (s : Pending sum) : PendingEvent sum → Pending sum → Prop where
  | refused {proc : Int32} {args : Args sum} {r : Return}
    (hr : r.ret = cancelFailure ∨ r.ret = bindFailure) :
    Turns s (.call proc args) { s with returned := s.returned ++ [r] }
  | called {proc : Int32} {args : Args sum} {c : Client sum}
    (hc : s.client.call1 proc args = some (.ok c)) :
    Turns s (.call proc args) { s with client := c }
  | transmit {xid : UInt32} {c : Client sum} (hf : s.client.Frame c)
    (hl : c.leaving = s.client.leaving) : Turns s (.transmit xid) { s with client := c }
  | sleep {xid : UInt32} (hex : ∃ ca ∈ s.client.calls, ca.xid = xid ∧ ca.done = false) :
    Turns s (.sleep xid) { s with asleep := xid :: s.asleep }
  | wake {xid : UInt32} : Turns s (.wake xid) { s with asleep := s.asleep.filter fun x => x ≠ xid }
  | gotPdu {r : Response} {w : List UInt32}
    (hw : updateXidRep s.client.xidRepWindow r.header.xid.toUInt32 = some w) :
    Turns s (.gotPdu r)
      { s with
        client := { s.client with
          xidRepWindow := w
          reported := s.client.reported ++ [r.header.xid.toUInt32]
          calls := s.client.calls.map (Client.answer r) }
        asleep := s.asleep.filter fun x => x ≠ r.header.xid.toUInt32 }
  | finish {ca : Caller sum} {t : ℕ} {w : List UInt32} (hca : ca ∈ s.client.calls)
    (hw : updateXidRep s.client.xidRepWindow ca.xid = some w) :
    Turns s (.finish ca.xid t)
      { s with
        client := { s.client with
          xidRepWindow := w
          reported := s.client.reported ++ [ca.xid]
          calls := s.client.calls.filter fun a => a.xid ≠ ca.xid
          leaving := s.client.leaving ++ [ca] }
        destroyWaitC := if s.client.destroyWait then s.destroyWaitC.signal t else s.destroyWaitC }
  | ret {k : ℕ} {r : Return} {c : Client sum} {ca : Caller sum} (hf : s.client.Frame c)
    (hl : c.leaving = s.client.leaving.eraseIdx k) (hca : ca ∈ s.client.leaving)
    (hxid : r.xid = ca.xid) (hr : r.ret = if ca.done then ca.intret else timeoutFailure) :
    Turns s (.ret k) { s with client := c, returned := s.returned ++ [r] }
  | bind {k : ℕ} {c : Client sum} (hf : s.client.Frame c) (hl : c.leaving = s.client.leaving) :
    Turns s (.bind k) { s with client := c }
  | cancel {t : ℕ} (ht : t ∉ s.inside) : Turns s (.cancel t) (s.cancel t)
  | resume {t : ℕ} (ht : t ∈ s.inside) (hfree : t ∉ s.destroyWaitC) :
    Turns s (.resume t) (s.await t)
  | spurious {t : ℕ} : Turns s (.spurious t) { s with destroyWaitC := s.destroyWaitC.stir t }

theorem turns_of_step {e : PendingEvent sum} (hs : s.step e = some s') : s.Turns e s' := by
  cases e with
  | call proc args =>
    obtain ⟨r, hr, rfl⟩ := Option.map_eq_some_iff.mp hs
    cases r with
    | error value => exact .refused (Client.call1_error hr)
    | ok c => exact .called hr
  | transmit xid =>
    simp only [step] at hs
    split_ifs at hs
    obtain ⟨r, hr, rfl⟩ := Option.map_eq_some_iff.mp hs
    exact .transmit (Client.transmit_frame hr).1 (Client.transmit_frame hr).2
  | sleep xid =>
    simp only [step] at hs
    split_ifs at hs with hex
    rw [← Option.some.inj hs]
    exact .sleep hex
  | wake xid =>
    rw [← Option.some.inj hs]
    exact .wake
  | gotPdu r =>
    obtain ⟨c, hc, rfl⟩ := Option.map_eq_some_iff.mp hs
    obtain ⟨w, hw, rfl⟩ := Client.gotPdu_eq hc
    exact .gotPdu hw
  | finish xid w =>
    simp only [step] at hs
    split_ifs at hs
    obtain ⟨c, hc, rfl⟩ := Option.map_eq_some_iff.mp hs
    obtain ⟨ca, hca, rfl, w, hw, rfl⟩ := Client.finish_eq hc
    exact .finish hca hw
  | ret k =>
    obtain ⟨r, hr, rfl⟩ := Option.map_eq_some_iff.mp hs
    obtain ⟨hf, hl, ca, hca, hxid, hval⟩ := Client.ret_frame hr
    exact .ret hf hl hca hxid hval
  | bind k =>
    obtain ⟨c, hc, rfl⟩ := Option.map_eq_some_iff.mp hs
    exact .bind (Client.bind_frame hc).1 (Client.bind_frame hc).2
  | cancel t =>
    simp only [step] at hs
    split_ifs at hs with ht
    rw [← Option.some.inj hs]
    exact .cancel ht
  | resume t =>
    simp only [step] at hs
    split_ifs at hs with ht
    rw [← Option.some.inj hs]
    exact .resume ht.1 ht.2
  | spurious t =>
    rw [← Option.some.inj hs]
    exact .spurious

/-- What holds whatever the threads do. -/
structure Sound (s : Pending sum) : Prop where
  window : s.client.Windowed
  distinct : (s.client.calls.map Caller.xid).Nodup
  waking : ∀ ca ∈ s.client.calls, ca.xid ∈ s.asleep → ca.done = false
  ended : s.client.destroyWait = true →
    ∀ ca ∈ s.client.calls, ca.done = true ∧ ca.intret = cancelFailure
  waits : s.inside ≠ [] → s.client.destroyWait = true
  blocked : s.destroyWaitC ⊆ s.inside

theorem Sound.init (nonce : UInt32) (lossytest : Bool) :
    (Pending.init nonce lossytest : Pending sum).Sound where
  window := rfl
  distinct := List.nodup_nil
  waking ca hca := by cases hca
  ended h := by cases h
  waits h := absurd rfl h
  blocked := List.nil_subset _

/-- A client whose calls, flag and window are as they were. -/
theorem Sound.frame (h : s.Sound) {c : Client sum} (hc : s.client.Frame c) (rs : List Return) :
    ({ s with client := c, returned := rs } : Pending sum).Sound where
  window := by
    change reportAll c.reported = some c.xidRepWindow
    rw [hc.reported, hc.window]
    exact h.window
  distinct := by
    change (c.calls.map Caller.xid).Nodup
    rw [hc.calls]
    exact h.distinct
  waking ca hca := h.waking ca (hc.calls ▸ hca)
  ended hset ca hca := h.ended (hc.destroyWait ▸ hset) ca (hc.calls ▸ hca)
  waits hne := hc.destroyWait.trans (h.waits hne)
  blocked := h.blocked

theorem Sound.call (h : s.Sound) {proc : Int32} {args : Args sum} {c : Client sum}
    (hs : s.client.call1 proc args = some (.ok c)) :
    ({ s with client := c } : Pending sum).Sound := by
  have hset := Client.call1_destroyWait hs
  obtain ⟨front, -, -, rfl⟩ := Client.Sound.call1_eq_ok hs
  refine ⟨h.window, ?_, fun ca hca hsleep => ?_, fun hw => ?_, h.waits, h.blocked⟩
  · unfold Client.insert
    dsimp only
    rw [List.map_append, List.nodup_append]
    refine ⟨h.distinct.sublist (List.filter_sublist.map _), List.nodup_singleton _, ?_⟩
    intro x hx y hy
    obtain ⟨ca, hca, rfl⟩ := List.mem_map.mp hx
    rw [List.mem_singleton.mp hy]
    exact of_decide_eq_true (List.mem_filter.mp hca).2
  · obtain hca | hca := List.mem_append.mp hca
    · exact h.waking ca (List.mem_filter.mp hca).1 hsleep
    · rw [List.mem_singleton.mp hca]
  · exact absurd (hset.symm.trans hw) Bool.false_ne_true

theorem Sound.sleep (h : s.Sound) {xid : UInt32}
    (hex : ∃ ca ∈ s.client.calls, ca.xid = xid ∧ ca.done = false) :
    ({ s with asleep := xid :: s.asleep } : Pending sum).Sound := by
  refine ⟨h.window, h.distinct, fun ca hca hsleep => ?_, h.ended, h.waits, h.blocked⟩
  obtain rfl | hsleep := List.mem_cons.mp hsleep
  · obtain ⟨a, ha, hxid, hdone⟩ := hex
    rw [← List.inj_on_of_nodup_map h.distinct ha hca hxid]
    exact hdone
  · exact h.waking ca hca hsleep

/-- Fewer callers sleep. -/
theorem Sound.wake (h : s.Sound) {asleep : List UInt32} (hsub : asleep ⊆ s.asleep) :
    ({ s with asleep := asleep } : Pending sum).Sound :=
  ⟨h.window, h.distinct, fun ca hca hsleep => h.waking ca hca (hsub hsleep), h.ended, h.waits,
    h.blocked⟩

/-- Fewer threads are blocked. -/
theorem Sound.signal (h : s.Sound) {c : CondVar ℕ} (hsub : c ⊆ s.destroyWaitC) :
    ({ s with destroyWaitC := c } : Pending sum).Sound :=
  ⟨h.window, h.distinct, h.waking, h.ended, h.waits, fun _ hu => h.blocked (hsub hu)⟩

theorem Sound.gotPdu (h : s.Sound) {r : Response} {w : List UInt32}
    (hw : updateXidRep s.client.xidRepWindow r.header.xid.toUInt32 = some w) :
    ({ s with
      client := { s.client with
        xidRepWindow := w
        reported := s.client.reported ++ [r.header.xid.toUInt32]
        calls := s.client.calls.map (Client.answer r) }
      asleep := s.asleep.filter fun x => x ≠ r.header.xid.toUInt32 } : Pending sum).Sound := by
  refine ⟨reportAll_append h.window hw, ?_, fun ca hca hsleep => ?_, fun hset ca hca => ?_,
    h.waits, h.blocked⟩
  · dsimp only
    rw [Client.map_xid_answer]
    exact h.distinct
  · obtain ⟨a, ha, rfl⟩ := List.mem_map.mp hca
    obtain ⟨hsleep, hne⟩ := List.mem_filter.mp hsleep
    have hne := of_decide_eq_true hne
    unfold Client.answer at hsleep hne ⊢
    split_ifs at hsleep hne ⊢ with hmatch
    · exact absurd hmatch.1 hne
    · exact h.waking a ha hsleep
  · obtain ⟨a, ha, rfl⟩ := List.mem_map.mp hca
    obtain ⟨hdone, hret⟩ := h.ended hset a ha
    unfold Client.answer
    rw [if_neg fun hmatch => hmatch.2 hdone]
    exact ⟨hdone, hret⟩

theorem Sound.finish (h : s.Sound) {ca : Caller sum} {w : List UInt32}
    (hw : updateXidRep s.client.xidRepWindow ca.xid = some w) :
    ({ s with
      client := { s.client with
        xidRepWindow := w
        reported := s.client.reported ++ [ca.xid]
        calls := s.client.calls.filter fun a => a.xid ≠ ca.xid
        leaving := s.client.leaving ++ [ca] } } : Pending sum).Sound :=
  ⟨reportAll_append h.window hw, h.distinct.sublist (List.filter_sublist.map _),
    fun a ha => h.waking a (List.mem_filter.mp ha).1,
    fun hset a ha => h.ended hset a (List.mem_filter.mp ha).1, h.waits, h.blocked⟩

/-- Every caller is woken, with a failure. -/
theorem Sound.mark (h : s.Sound) :
    ({ s with
      client := { s.client with
        calls := s.client.calls.map fun (ca : Caller sum) =>
          { ca with done := true, intret := cancelFailure } }
      asleep := s.asleep.filter fun xid => s.client.calls.all fun ca => ca.xid ≠ xid } :
      Pending sum).Sound := by
  refine ⟨h.window, ?_, fun ca hca hsleep => ?_, fun _ ca hca => ?_, h.waits, h.blocked⟩
  · dsimp only
    rw [List.map_map]
    exact h.distinct
  · obtain ⟨a, ha, rfl⟩ := List.mem_map.mp hca
    have hnot := List.all_eq_true.mp (List.mem_filter.mp hsleep).2 a ha
    exact absurd rfl (of_decide_eq_true hnot)
  · obtain ⟨a, -, rfl⟩ := List.mem_map.mp hca
    exact ⟨rfl, rfl⟩

theorem Sound.leave (h : s.Sound) {t : ℕ} (hfree : t ∉ s.destroyWaitC) :
    ({ s with inside := s.inside.erase t } : Pending sum).Sound := by
  refine ⟨h.window, h.distinct, h.waking, h.ended,
    fun hne => h.waits fun hnil => hne (by rw [hnil]; rfl), fun u hu => ?_⟩
  have hne : u ≠ t := fun he => hfree (he ▸ hu)
  exact (List.mem_erase_of_ne hne).mpr (h.blocked hu)

theorem Sound.await {t : ℕ} (h : ({ s with inside := s.inside.erase t } : Pending sum).Sound)
    (ht : t ∈ s.inside)
    (hended : ∀ ca ∈ s.client.calls, ca.done = true ∧ ca.intret = cancelFailure) :
    (s.await t).Sound := by
  unfold Pending.await
  split_ifs
  · exact h
  · refine ⟨h.window, h.distinct, h.waking, fun _ => hended, fun _ => rfl, fun u hu => ?_⟩
    obtain rfl | hu := List.mem_cons.mp hu
    · exact ht
    · exact List.mem_of_mem_erase (h.blocked hu)

theorem Sound.cancel (h : s.Sound) (t : ℕ) : (s.cancel t).Sound := by
  unfold Pending.cancel
  refine Sound.await ?_ List.mem_cons_self fun ca hca => ?_
  · dsimp only
    rw [List.erase_cons_head]
    exact h.mark
  · obtain ⟨a, -, rfl⟩ := List.mem_map.mp hca
    exact ⟨rfl, rfl⟩

theorem Sound.resume (h : s.Sound) {t : ℕ} (ht : t ∈ s.inside) (hfree : t ∉ s.destroyWaitC) :
    (s.await t).Sound :=
  (h.leave hfree).await ht (h.ended (h.waits (List.ne_nil_of_mem ht)))

theorem Sound.step (h : s.Sound) {e : PendingEvent sum} (hs : s.step e = some s') : s'.Sound := by
  cases turns_of_step hs with
  | refused hr => exact h.frame ⟨rfl, rfl, rfl, rfl⟩ _
  | called hc => exact h.call hc
  | transmit hf hl => exact h.frame hf _
  | sleep hex => exact h.sleep hex
  | wake => exact h.wake (List.filter_subset_self _)
  | gotPdu hw => exact h.gotPdu hw
  | finish hca hw =>
    refine (h.finish hw).signal ?_
    split_ifs
    · exact (CondVar.signal_sublist _ _).subset
    · exact List.Subset.refl _
  | ret hf hl hca hxid hr => exact h.frame hf _
  | bind hf hl => exact h.frame hf _
  | cancel ht => exact h.cancel _
  | resume ht hfree => exact h.resume ht hfree
  | spurious => exact h.signal (CondVar.stir_sublist _ _).subset

theorem calls_await (s : Pending sum) (t : ℕ) : (s.await t).client.calls = s.client.calls := by
  unfold await
  split_ifs <;> rfl

theorem cancel_client (s : Pending sum) (t : ℕ) : (s.cancel t).client = s.client.cancel := by
  unfold cancel await Client.cancel
  by_cases h : s.client.calls = []
  · simp [h]
  · simp [h]

/-- What a client does after `destroy_wait_` has been set: no call begins, and the calls that have
not left `calls_` fail. -/
structure Refuses (s s' : Pending sum) : Prop where
  destroyWait : s'.client.destroyWait = true
  calls : List.Sublist (s'.client.calls.map Caller.xid) (s.client.calls.map Caller.xid)
  leaving : ∀ ca ∈ s'.client.leaving,
    ca ∈ s.client.leaving ∨ ca.done = true ∧ ca.intret = cancelFailure
  returned : ∃ rs, s'.returned = s.returned ++ rs ∧ ∀ r ∈ rs,
    (∃ ca ∈ s.client.leaving, r.xid = ca.xid ∧
      r.ret = if ca.done then ca.intret else timeoutFailure) ∨
    r.ret = cancelFailure ∨ r.ret = bindFailure

theorem Refuses.refl (hset : s.client.destroyWait = true) : s.Refuses s :=
  ⟨hset, List.Sublist.refl _, fun _ hca => Or.inl hca, [], (List.append_nil _).symm,
    fun _ hr => absurd hr List.not_mem_nil⟩

theorem Refuses.trans {m : Pending sum} (h : s.Refuses m) (h' : m.Refuses s') : s.Refuses s' := by
  refine ⟨h'.destroyWait, h'.calls.trans h.calls, fun ca hca => ?_, ?_⟩
  · obtain hca | hca := h'.leaving ca hca
    · exact h.leaving ca hca
    · exact Or.inr hca
  · obtain ⟨rs, hrs, hr⟩ := h.returned
    obtain ⟨rs', hrs', hr'⟩ := h'.returned
    refine ⟨rs ++ rs', by rw [hrs', hrs, List.append_assoc], fun r hmem => ?_⟩
    obtain hmem | hmem := List.mem_append.mp hmem
    · exact hr r hmem
    · obtain ⟨ca, hca, hxid, hret⟩ | hfail := hr' r hmem
      · obtain hca | ⟨hdone, hval⟩ := h.leaving ca hca
        · exact Or.inl ⟨ca, hca, hxid, hret⟩
        · rw [if_pos hdone] at hret
          exact Or.inr (Or.inl (hret.trans hval))
      · exact Or.inr hfail

/-- An event that no call begins, leaves or returns with. -/
theorem Refuses.of_eq (hset : s'.client.destroyWait = true)
    (hcalls : s'.client.calls.map Caller.xid = s.client.calls.map Caller.xid)
    (hleaving : s'.client.leaving = s.client.leaving) (hret : s'.returned = s.returned) :
    s.Refuses s' :=
  ⟨hset, hcalls ▸ List.Sublist.refl _, fun _ hca => Or.inl (hleaving ▸ hca), [],
    hret.trans (List.append_nil _).symm, fun _ hr => absurd hr List.not_mem_nil⟩

theorem Refuses.await (s : Pending sum) (t : ℕ) (hset : s.client.destroyWait = true) :
    s.Refuses (s.await t) := by
  unfold Pending.await
  split_ifs
  · exact .of_eq hset rfl rfl rfl
  · exact .of_eq rfl rfl rfl rfl

theorem Sound.refuses (h : s.Sound) (hset : s.client.destroyWait = true) {e : PendingEvent sum}
    (hs : s.step e = some s') : s.Refuses s' := by
  cases turns_of_step hs with
  | refused hr =>
    refine ⟨hset, List.Sublist.refl _, fun _ hca => Or.inl hca, _, rfl, fun r hmem => ?_⟩
    rw [List.mem_singleton.mp hmem]
    exact Or.inr hr
  | called hc => exact absurd (hset.symm.trans (Client.call1_destroyWait hc)) (by decide)
  | transmit hf hl => exact .of_eq (hf.destroyWait.trans hset) (congrArg _ hf.calls) hl rfl
  | sleep => exact .of_eq hset rfl rfl rfl
  | wake => exact .of_eq hset rfl rfl rfl
  | gotPdu => exact .of_eq hset (Client.map_xid_answer ..) rfl rfl
  | @finish ca t w hca =>
    refine ⟨hset, List.filter_sublist.map _, fun a ha => ?_, [], (List.append_nil _).symm,
      fun _ hr => absurd hr List.not_mem_nil⟩
    obtain ha | ha := List.mem_append.mp ha
    · exact Or.inl ha
    · rw [List.mem_singleton.mp ha]
      exact Or.inr (h.ended hset ca hca)
  | @ret k r c ca hf hl hca hxid hr =>
    refine ⟨hf.destroyWait.trans hset, hf.calls ▸ List.Sublist.refl _,
      fun a ha => Or.inl (List.mem_of_mem_eraseIdx (hl ▸ ha)), _, rfl, fun x hx => ?_⟩
    rw [List.mem_singleton.mp hx]
    exact Or.inl ⟨ca, hca, hxid, hr⟩
  | bind hf hl => exact .of_eq (hf.destroyWait.trans hset) (congrArg _ hf.calls) hl rfl
  | @cancel t =>
    refine Refuses.trans ?_ (Refuses.await _ t ?_)
    · exact .of_eq hset (List.map_map ..) rfl rfl
    · exact hset
  | @resume t => exact .await s t hset
  | spurious => exact .of_eq hset rfl rfl rfl

theorem Refuses.run (h : s.Sound) (hset : s.client.destroyWait = true)
    {events : List (PendingEvent sum)} (hrun : runs step events s = some s') : s.Refuses s' :=
  (runs_invariant (I := fun m => m.Sound ∧ s.Refuses m) step
    (fun _ _ _ hm hs => ⟨hm.1.step hs, hm.2.trans (hm.1.refuses hm.2.destroyWait hs)⟩)
    ⟨h, .refl hset⟩ hrun).2

/-- A caller leaves. -/
def finishes : PendingEvent sum → Bool
  | .finish .. => true
  | _ => false

/-- A caller that leaves is one less, and no other event changes their number. -/
theorem Sound.length_step (h : s.Sound) (hset : s.client.destroyWait = true)
    {e : PendingEvent sum} (hs : s.step e = some s') :
    s'.client.calls.length + (if finishes e then 1 else 0) = s.client.calls.length := by
  cases turns_of_step hs with
  | called hc => exact absurd (hset.symm.trans (Client.call1_destroyWait hc)) (by decide)
  | transmit hf => exact congrArg List.length hf.calls
  | gotPdu => exact List.length_map _
  | @finish ca t w hca =>
    have herase : (s.client.calls.filter fun a => a.xid ≠ ca.xid).map Caller.xid =
        (s.client.calls.map Caller.xid).erase ca.xid := by
      rw [h.distinct.erase_eq_filter, List.filter_map]
      exact congrArg _ (List.filter_congr fun a _ => Bool.eq_iff_iff.mpr (by simp))
    have hlen := congrArg List.length herase
    rw [List.length_erase_of_mem (List.mem_map_of_mem hca), List.length_map, List.length_map]
      at hlen
    have hpos := List.length_pos_of_mem hca
    simp only [finishes, if_true]
    omega
  | ret hf => exact congrArg List.length hf.calls
  | bind hf => exact congrArg List.length hf.calls
  | @cancel t =>
    rw [cancel_client]
    exact List.length_map _
  | @resume t => exact congrArg List.length (s.calls_await t)
  | refused | sleep | wake | spurious => rfl

theorem Sound.length_run (h : s.Sound) (hset : s.client.destroyWait = true)
    {events : List (PendingEvent sum)} (hrun : runs Pending.step events s = some s') :
    s'.client.calls.length + events.countP finishes = s.client.calls.length := by
  induction events generalizing s with
  | nil =>
    cases hrun
    rfl
  | cons e events ih =>
    obtain ⟨m, hs, hrun⟩ := (runs_cons_eq_some Pending.step).mp hrun
    have hlen := ih (h.step hs) (h.refuses hset hs).destroyWait hrun
    rw [← h.length_step hset hs, List.countP_cons, ← add_assoc, hlen]

/-- A caller whose call has been ended can leave at once. -/
theorem Sound.leaves (h : s.Sound) (hset : s.client.destroyWait = true) {ca : Caller sum}
    (hca : ca ∈ s.client.calls) (w : ℕ) : ∃ s', s.step (.finish ca.xid w) = some s' := by
  have hawake : ca.xid ∉ s.asleep := fun hsleep =>
    absurd ((h.ended hset ca hca).1.symm.trans (h.waking ca hca hsleep)) (by decide)
  have hfound : ∃ a, (s.client.calls.find? fun a => a.xid = ca.xid) = some a := by
    rw [← Option.isSome_iff_exists, List.find?_isSome]
    exact ⟨ca, hca, decide_eq_true rfl⟩
  obtain ⟨a, ha⟩ := hfound
  obtain ⟨x, hx, -⟩ := h.window.report a.xid
  simp [Pending.step, hawake, Client.finish, ha, Client.report, hx]

def cancels : PendingEvent sum → Bool
  | .cancel _ => true
  | _ => false

/-- `cancel` is called by one thread at a time. -/
def Alone (s : Pending sum) (e : PendingEvent sum) : Prop := cancels e = true → s.inside = []

instance (s : Pending sum) (e : PendingEvent sum) : Decidable (s.Alone e) :=
  inferInstanceAs (Decidable (_ → _))

/-- One thread at most is inside `cancel`, and if it is blocked a call is left. -/
structure Single (s : Pending sum) : Prop where
  inside : s.inside.length ≤ 1
  blocked : s.destroyWaitC.length ≤ 1
  called : s.destroyWaitC ≠ [] → s.client.calls ≠ []

/-- A thread at the loop of `cancel` when nobody is blocked. -/
theorem Single.await {t : ℕ} (hlen : s.inside.length ≤ 1) (hnil : s.destroyWaitC = []) :
    (s.await t).Single := by
  unfold Pending.await
  split_ifs with hnone
  · refine ⟨(List.length_erase_le).trans hlen, ?_, fun hne => absurd hnil hne⟩
    rw [hnil]
    exact Nat.zero_le _
  · refine ⟨hlen, ?_, fun _ => hnone⟩
    rw [hnil]
    exact le_rfl

theorem Single.step (hi : s.Single) (h : s.Sound) {e : PendingEvent sum} (ha : Alone s e)
    (hs : s.step e = some s') : s'.Single := by
  -- where nobody is inside, nobody is blocked
  have hnone : s.inside = [] → s.destroyWaitC = [] := fun hnil =>
    List.eq_nil_of_subset_nil (hnil ▸ h.blocked)
  cases turns_of_step hs with
  | called hc =>
    refine ⟨hi.inside, hi.blocked, fun hne => absurd (hnone ?_) hne⟩
    by_contra hin
    exact absurd ((h.waits hin).symm.trans (Client.call1_destroyWait hc)) (by decide)
  | transmit hf => exact ⟨hi.inside, hi.blocked, fun hne => hf.calls ▸ hi.called hne⟩
  | gotPdu =>
    exact ⟨hi.inside, hi.blocked,
      fun hne hnil => hi.called hne (List.map_eq_nil_iff.mp hnil)⟩
  | @finish ca t w =>
    -- the caller that leaves wakes the thread that is blocked
    have hnil : (if s.client.destroyWait = true then s.destroyWaitC.signal t
        else s.destroyWaitC) = [] := by
      split_ifs with hset
      · exact CondVar.signal_eq_nil hi.blocked t
      · refine hnone ?_
        by_contra hin
        exact hset (h.waits hin)
    refine ⟨hi.inside, ?_, fun hne => absurd hnil hne⟩
    dsimp only
    rw [hnil]
    exact Nat.zero_le _
  | ret hf => exact ⟨hi.inside, hi.blocked, fun hne => hf.calls ▸ hi.called hne⟩
  | bind hf => exact ⟨hi.inside, hi.blocked, fun hne => hf.calls ▸ hi.called hne⟩
  | cancel =>
    refine Single.await ?_ (hnone (ha rfl))
    dsimp only
    rw [ha rfl]
    exact le_rfl
  | @resume t ht hfree =>
    obtain ⟨u, hu⟩ := List.length_eq_one_iff.mp (hi.inside.antisymm (List.length_pos_of_mem ht))
    have hself : ∀ x ∈ s.inside, x = t := by
      intro x hx
      rw [hu] at hx ht
      rw [List.mem_singleton.mp hx, List.mem_singleton.mp ht]
    refine Single.await hi.inside (List.eq_nil_iff_forall_not_mem.mpr fun x hx => ?_)
    exact hfree (hself x (h.blocked hx) ▸ hx)
  | spurious =>
    exact ⟨hi.inside, (CondVar.length_stir_le _ _).trans hi.blocked,
      fun hne => hi.called (CondVar.ne_nil_of_stir hne)⟩
  | refused | sleep | wake => exact ⟨hi.inside, hi.blocked, hi.called⟩

theorem mem_destroyWaitC_await {u : ℕ} (hu : u ∈ s.destroyWaitC) (t : ℕ) :
    u ∈ (s.await t).destroyWaitC := by
  unfold Pending.await
  split_ifs
  · exact hu
  · exact List.mem_cons_of_mem _ hu

/-- Without calls nobody signals. -/
theorem stays_blocked (hnone : s.client.calls = []) {u : ℕ} (hu : u ∈ s.destroyWaitC)
    {e : PendingEvent sum} (hne : e ≠ .spurious u) (hs : s.step e = some s') :
    u ∈ s'.destroyWaitC := by
  cases turns_of_step hs with
  | finish hca => exact absurd (hnone ▸ hca) List.not_mem_nil
  | @cancel t =>
    refine mem_destroyWaitC_await ?_ t
    exact hu
  | @resume t => exact mem_destroyWaitC_await hu t
  | @spurious t =>
    have htu : u ≠ t := fun he => hne (he ▸ rfl)
    exact (List.mem_erase_of_ne htu).mpr hu
  | _ => exact hu

end Pending

section Runs

variable {sum : Bool} {s s' : Pending sum} {events more : List (PendingEvent sum)}

/-- A thread that is alone inside `cancel` gets out. Once it has sent its request, every call that
is left ends at once, without waiting for its reply or its deadline, and each caller that leaves is
one less; when all of them have left, the thread is not blocked, and at its next step it is out. -/
theorem cancel_ends (nonce : UInt32) (lossytest : Bool)
    (hrun : runs Pending.step events (.init nonce lossytest) = some s)
    (halone : Meets Pending.step Pending.Alone events (.init nonce lossytest)) {t : ℕ}
    (ht : t ∈ s.inside) :
    (∀ ca ∈ s.client.calls, ∀ w, ∃ s', s.step (.finish ca.xid w) = some s') ∧
      (∀ more s', runs Pending.step more s = some s' →
        s'.client.calls.length + more.countP Pending.finishes = s.client.calls.length) ∧
      (s.client.calls = [] → ∃ s', s.step (.resume t) = some s' ∧ s'.inside = []) := by
  obtain ⟨h, hi⟩ := halone.invariant Pending.step (I := fun s => s.Sound ∧ s.Single)
    (fun _ _ _ hm ha hs => ⟨hm.1.step hs, hm.2.step hm.1 ha hs⟩)
    ⟨.init nonce lossytest, ⟨Nat.zero_le _, Nat.zero_le _, fun hne => absurd rfl hne⟩⟩ hrun
  have hset := h.waits (List.ne_nil_of_mem ht)
  refine ⟨fun ca hca w => h.leaves hset hca w, fun _ _ hmore => h.length_run hset hmore,
    fun hnone => ?_⟩
  have hfree : s.destroyWaitC = [] := by
    by_contra hne
    exact hi.called hne hnone
  have hlen : (s.inside.erase t).length = 0 := by
    rw [List.length_erase_of_mem ht]
    have := hi.inside
    omega
  refine ⟨{ s with inside := s.inside.erase t }, ?_, List.length_eq_zero_iff.mp hlen⟩
  simp [Pending.step, Pending.await, ht, hfree, hnone]

/-- Once a thread has had to wait in `cancel`, no call begins any more, and the calls that were left
then return with `cancel_failure`. In particular `calls_` stays empty when it has become so, as the
destructor asserts. -/
theorem cancel_refuses (nonce : UInt32) (lossytest : Bool)
    (hrun : runs Pending.step events (.init nonce lossytest) = some s) {t : ℕ}
    (ht : t ∈ s.inside) (hmore : runs Pending.step more s = some s') :
    List.Sublist (s'.client.calls.map Caller.xid) (s.client.calls.map Caller.xid) ∧
      ∃ rs, s'.returned = s.returned ++ rs ∧ ∀ r ∈ rs,
        (∃ ca ∈ s.client.leaving, r.xid = ca.xid ∧
          r.ret = if ca.done then ca.intret else timeoutFailure) ∨
        r.ret = cancelFailure ∨ r.ret = bindFailure := by
  have h := runs_invariant Pending.step (fun _ _ _ h hs => Pending.Sound.step h hs)
    (Pending.Sound.init nonce lossytest) hrun
  have hrefuses := Pending.Refuses.run h (h.waits (List.ne_nil_of_mem ht)) hmore
  exact ⟨hrefuses.calls, hrefuses.returned⟩

/-- A thread that is blocked in `cancel` when no call is left stays so for good: only callers that
leave signal. -/
theorem cancel_stranded (nonce : UInt32) (lossytest : Bool)
    (hrun : runs Pending.step events (.init nonce lossytest) = some s) {u : ℕ}
    (hu : u ∈ s.destroyWaitC) (hnone : s.client.calls = [])
    (hmore : runs Pending.step more s = some s') (hne : ∀ e ∈ more, e ≠ .spurious u) :
    u ∈ s'.destroyWaitC := by
  have h := runs_invariant Pending.step (fun _ _ _ h hs => Pending.Sound.step h hs)
    (Pending.Sound.init nonce lossytest) hrun
  have hkept := runs_invariant_of (P := fun e => e ≠ .spurious u)
    (I := fun s : Pending sum => s.Sound ∧ s.client.calls = [] ∧ u ∈ s.destroyWaitC) Pending.step
    (fun m e m' hm he hs => ⟨hm.1.step hs, ?_, Pending.stays_blocked hm.2.1 hm.2.2 he hs⟩)
    hne ⟨h, hnone, hu⟩ hmore
  · exact hkept.2.2
  · have hset := hm.1.waits (List.ne_nil_of_mem (hm.1.blocked hm.2.2))
    have hsub := (hm.1.refuses hset hs).calls
    rw [hm.2.1] at hsub
    exact List.map_eq_nil_iff.mp (List.sublist_nil.mp hsub)

end Runs

/-- A call of `bind` sleeps when a thread calls `cancel`. -/
def bindCancelled : List (PendingEvent false) :=
  [.call bindProc .none, .transmit 1, .sleep 1, .cancel 0]

/-- Another thread calls `cancel`, too, and one of them is woken. -/
def cancelledTwice : List (PendingEvent false) :=
  bindCancelled ++ [.cancel 1, .finish 1 0, .resume 0]

theorem cancel_ends_example :
    ∃ s, runs Pending.step bindCancelled (.init 1 false) = some s ∧ s.destroyWaitC = [0] ∧
      s.client.calls.length = 1 ∧
      ∀ ca ∈ s.client.calls, ∀ w, ∃ s', s.step (.finish ca.xid w) = some s' := by
  have hrun : ∃ s, runs Pending.step bindCancelled (.init 1 false) = some s ∧
      s.destroyWaitC = [0] ∧ s.client.calls.length = 1 ∧ s.inside = [0] :=
    ⟨_, rfl, rfl, rfl, rfl⟩
  obtain ⟨s, hs, hblocked, hlen, hin⟩ := hrun
  exact ⟨s, hs, hblocked, hlen,
    (cancel_ends 1 false hs (by decide) (hin ▸ List.mem_singleton_self 0)).1⟩

theorem cancel_refuses_example :
    ∃ s s', runs Pending.step bindCancelled (.init 1 false) = some s ∧
      runs Pending.step [.finish 1 0, .call bindProc .none, .ret 0] s = some s' ∧
      s'.returned.map Return.ret = [cancelFailure, cancelFailure] ∧
      List.Sublist (s'.client.calls.map Caller.xid) (s.client.calls.map Caller.xid) := by
  have hrun : ∃ s s', runs Pending.step bindCancelled (.init 1 false) = some s ∧
      runs Pending.step [.finish 1 0, .call bindProc .none, .ret 0] s = some s' ∧
      s'.returned.map Return.ret = [cancelFailure, cancelFailure] ∧ s.inside = [0] :=
    ⟨_, _, rfl, rfl, rfl, rfl⟩
  obtain ⟨s, s', hs, hs', hret, hin⟩ := hrun
  exact ⟨s, s', hs, hs', hret,
    (cancel_refuses 1 false hs (hin ▸ List.mem_singleton_self 0) hs').1⟩

theorem cancel_stranded_example :
    ∃ s, runs Pending.step cancelledTwice (.init 1 false) = some s ∧ s.inside = [1] ∧
      1 ∈ s.destroyWaitC := by
  have hrun : ∃ s s',
      runs Pending.step (bindCancelled ++ [.cancel 1, .finish 1 0]) (.init 1 false) = some s ∧
      runs Pending.step [.resume 0] s = some s' ∧
      runs Pending.step cancelledTwice (.init 1 false) = some s' ∧ s.destroyWaitC = [1] ∧
      s.client.calls.length = 0 ∧ s'.inside = [1] :=
    ⟨_, _, rfl, rfl, rfl, rfl, rfl, rfl⟩
  obtain ⟨s, s', hs, hmore, hs', hblocked, hlen, hin⟩ := hrun
  refine ⟨s', hs', hin, ?_⟩
  exact cancel_stranded 1 false hs (hblocked ▸ List.mem_singleton_self 1)
    (List.length_eq_zero_iff.mp hlen) hmore (by simp)

end Yfs.Rpc
