import Yfs.Rpc.Dispatch

/-! What a step of the server can do. -/
namespace Yfs.Rpc

open Effect

/-- The stages that a dispatch goes on to. -/
def Stage.next : Stage → List Stage
  | .header => [.oldServer, .record, .handle]
  | .oldServer => []
  | .record => [.check]
  | .check => [.handle, .reply, .release]
  | .handle => [.choose]
  | .choose => [.reply]
  | .reply => [.release]
  | .release => []

namespace Rpcs

/-- What only the connections change. -/
structure Kept (s s' : Rpcs) : Prop where
  sum : s'.sum = s.sum
  nonce : s'.nonce = s.nonce
  made : s'.made = s.made
  queue : s'.queue = s.queue

/-- Nothing but the connections and `conns_` changes. -/
structure Same (s s' : Rpcs) : Prop extends Kept s s' where
  window : s'.window = s.window
  active : s'.active = s.active

/-- The verdict on the request of a dispatch. -/
def verdict (s : Rpcs) (d : Dispatch) : Verdict (Int32 × List UInt8) × ReplyWindow (Int32 × List UInt8) :=
  checkduplicateAndUpdate s.window d.header.cltNonce d.header.xid.toUInt32
    d.header.xidRep.toUInt32

/-- The reply windows after a step of a dispatch. -/
def windowAfter (s : Rpcs) (d : Dispatch) (ret : Int32) (body : List UInt8) :
    ReplyWindow (Int32 × List UInt8) :=
  match d.stage with
  | .check => (s.verdict d).2
  | .handle =>
    if d.header.cltNonce > 0 then
      addReply s.window d.header.cltNonce d.header.xid.toUInt32 (ret, body)
        (Int32.ofNat body.length)
    else s.window
  | _ => s.window

/-- The reply that a dispatch has after a step to a stage. -/
def replyAfter (s : Rpcs) (d : Dispatch) (ret : Int32) (body : List UInt8) (st : Stage) :
    Option (Int32 × List UInt8) :=
  match d.stage with
  | .header => if st = .oldServer then some (oldsrvFailure, []) else d.rep
  | .check => verdictReply (s.verdict d).1
  | .handle => some (ret, body)
  | _ => d.rep

end Rpcs

/-- How a dispatch goes on. Only where it chooses its connection can that become another. -/
structure Dispatch.Goes (s s' : Rpcs) (d : Dispatch) (ret : Int32) (body : List UInt8)
    (d' : Dispatch) : Prop where
  stage : d'.stage ∈ d.stage.next
  kept : d'.header = d.header ∧ d'.arrived = d.arrived ∧ d'.ok = d.ok
  rep : d'.rep = s.replyAfter d ret body d'.stage
  old : d.stage = .header →
    d.ok = true ∧ (d'.stage = .oldServer ↔ s.isOldServer d.header = true)
  handed : d.stage = .header → d'.stage = .handle → d.header.cltNonce = 0
  recorded : d.stage = .record → s'.conns.find d.header.cltNonce ≠ none
  judged : d.stage = .check → d'.stage = Rpcs.verdictStage (s.verdict d).1
  value : d.stage = .handle → 0 ≤ ret
  same : d.stage ≠ .choose → d'.conn = d.conn ∧ d'.found = d.found
  chosen : d.stage = .choose → d'.found = (s'.conns.find d.header.cltNonce).join ∧
    (d'.conn = d.conn ∨ d'.conn = d'.found ∧ ∃ c, d.conn = some c ∧ (s.conn c).dead = true)

/-- What a step of the dispatch of worker `i` does, which ends it or makes another of it. -/
structure Dispatch.Outcome (s s' : Rpcs) (i : Worker) (d : Dispatch) (ret : Int32)
    (body : List UInt8) (r : Option Dispatch) : Prop extends Rpcs.Kept s s' where
  active : s'.active = Function.update s.active i r
  window : s'.window = s.windowAfter d ret body
  conns : s'.conns = s.conns ∨
    (d.stage = .record ∧ ∃ c, d.conn = some c ∧
      s'.conns = s.conns.assign d.header.cltNonce (some c)) ∨
    d.stage = .choose ∧ s'.conns = (s.touch d.header.cltNonce).conns
  goes : ∀ d', r = some d' → d.Goes s s' ret body d'

section Sections

variable {s s' : Rpcs} {n : UInt32} {c : ℕ}

theorem Rpcs.Same.rfl : s.Same s := ⟨⟨Eq.refl _, Eq.refl _, Eq.refl _, Eq.refl _⟩, Eq.refl _, Eq.refl _⟩

/-- What giving a reference back does. -/
theorem decref_eq_some (h : s.decref c = some s') :
    1 ≤ (s.conn c).refno ∧ s' = s.setPeer c (s.conn c).decref := by
  unfold Rpcs.decref at h
  by_cases hpos : (s.conn c).decref.refno ≥ 0
  · rw [if_pos hpos] at h
    have hone : (s.conn c).decref.refno = (s.conn c).refno - 1 := Eq.refl _
    exact ⟨by omega, (Option.some.inj h).symm⟩
  · rw [if_neg hpos] at h
    cases h

theorem decref_same (h : s.decref c = some s') : s.Same s' ∧ s'.conns = s.conns := by
  obtain ⟨-, rfl⟩ := decref_eq_some h
  exact ⟨⟨⟨rfl, rfl, rfl, rfl⟩, rfl, rfl⟩, rfl⟩

theorem record_same (hr : s.record n c = some s') :
    s.Same s' ∧ (s'.conns = s.conns ∨ s'.conns = s.conns.assign n (some c)) ∧
      s'.conns.find n ≠ none := by
  unfold Rpcs.record at hr
  have hassign : (s.conns.assign n (some c)).find n ≠ none := by
    rw [SortedMap.find_assign, if_pos rfl]
    exact Option.some_ne_none _
  cases hfind : s.conns.find n with
  | none =>
    rw [hfind] at hr
    obtain rfl := Option.some.inj hr
    exact ⟨⟨⟨rfl, rfl, rfl, rfl⟩, rfl, rfl⟩, Or.inr rfl, hassign⟩
  | some p =>
    rw [hfind] at hr
    cases p with
    | none => cases hr
    | some old =>
      dsimp only at hr
      split_ifs at hr
      · obtain ⟨s₁, hs₁, rfl⟩ := Option.map_eq_some_iff.mp hr
        obtain ⟨-, rfl⟩ := decref_eq_some hs₁
        exact ⟨⟨⟨rfl, rfl, rfl, rfl⟩, rfl, rfl⟩, Or.inr rfl, hassign⟩
      · obtain rfl := Option.some.inj hr
        refine ⟨.rfl, Or.inl rfl, ?_⟩
        rw [hfind]
        exact Option.some_ne_none _

theorem touch_of_find (hn : s.conns.find n ≠ none) : (s.touch n).conns = s.conns := by
  unfold Rpcs.touch
  cases hfind : s.conns.find n with
  | none => exact absurd hfind hn
  | some p => rfl

theorem touch_find (m : UInt32) :
    (s.touch n).conns.find m = s.conns.find m ∨ m = n ∧ (s.touch n).conns.find m = some none := by
  unfold Rpcs.touch
  cases hfind : s.conns.find n with
  | none =>
    dsimp only
    rw [SortedMap.find_assign]
    split_ifs with hm
    · exact Or.inr ⟨hm.symm, rfl⟩
    · exact Or.inl rfl
  | some p => exact Or.inl rfl

theorem touch_same : s.Same (s.touch n) := by
  unfold Rpcs.touch
  cases s.conns.find n with
  | none => exact ⟨⟨rfl, rfl, rfl, rfl⟩, rfl, rfl⟩
  | some p => exact .rfl

theorem choose_same {r : Option ℕ × Rpcs} (hr : s.choose n c = some r) :
    s.Same r.2 ∧ (r.2.conns = s.conns ∨ r.2.conns = (s.touch n).conns) ∧
      (r.1 = some c ∨ r.1 = (r.2.conns.find n).join ∧ (s.conn c).dead = true) := by
  unfold Rpcs.choose at hr
  split_ifs at hr with hdead
  · dsimp only at hr
    have ht : s.Same (s.touch n) := touch_same
    split_ifs at hr with hp
    · obtain rfl := Option.some.inj hr
      exact ⟨ht, Or.inr rfl, Or.inl hp⟩
    · obtain ⟨s₁, hs₁, rfl⟩ := Option.map_eq_some_iff.mp hr
      obtain ⟨-, rfl⟩ := decref_eq_some hs₁
      cases hpc : ((s.touch n).conns.find n).join with
      | none => exact ⟨⟨⟨ht.sum, ht.nonce, ht.made, ht.queue⟩, ht.window, ht.active⟩, Or.inr rfl,
          Or.inr ⟨hpc.symm, hdead⟩⟩
      | some c' => exact ⟨⟨⟨ht.sum, ht.nonce, ht.made, ht.queue⟩, ht.window, ht.active⟩, Or.inr rfl,
          Or.inr ⟨hpc.symm, hdead⟩⟩
  · obtain rfl := Option.some.inj hr
    exact ⟨.rfl, Or.inl rfl, Or.inl rfl⟩

theorem verdictStage_mem (v : Verdict (Int32 × List UInt8)) :
    Rpcs.verdictStage v ∈ Stage.next .check := by
  cases v with
  | new => decide
  | inProgress => decide
  | done buf sz => exact List.mem_cons_of_mem _ List.mem_cons_self
  | forgotten => decide

end Sections

section Step

variable {s s' : Rpcs} {e : RpcsEvent} {i : Worker} {d d' : Dispatch}

/-- The last `decref` of a dispatch. -/
theorem release_outcome {ret : Int32} {body : List UInt8} (hw : s.windowAfter d ret body = s.window)
    (hs : (s.decrefPtr d.conn).map (fun s => s.leave i) = some s') :
    ∃ r, d.Outcome s s' i ret body r := by
  obtain ⟨s₁, hs₁, rfl⟩ := Option.map_eq_some_iff.mp hs
  cases hc : d.conn with
  | none =>
    rw [hc] at hs₁
    cases hs₁
  | some c =>
    rw [hc] at hs₁
    obtain ⟨hsame, hconns⟩ := decref_same hs₁
    refine ⟨none, ⟨hsame.sum, hsame.nonce, hsame.made, hsame.queue⟩, ?_, hsame.window.trans hw.symm,
      Or.inl hconns, fun d' hd' => by cases hd'⟩
    rw [← hsame.active]
    rfl

/-- A dispatch goes on, and nothing else changes but perhaps the reply windows. -/
theorem enter_outcome {ret : Int32} {body : List UInt8}
    {w : ReplyWindow (Int32 × List UInt8)} (hw : w = s.windowAfter d ret body)
    (hg : d.Goes s (({ s with window := w } : Rpcs).setActive i (some d')) ret body d') :
    ∃ r, d.Outcome s (({ s with window := w } : Rpcs).setActive i (some d')) i ret body r := by
  refine ⟨some d', ⟨rfl, rfl, rfl, rfl⟩, rfl, hw, Or.inl rfl, fun d'' hd'' => ?_⟩
  obtain rfl := Option.some.inj hd''
  exact hg

/-- Every step of a dispatch. -/
theorem dispatch_outcome {ret : Int32} {body : List UInt8}
    (hs : s.dispatch i d ret body = some s') : ∃ r, d.Outcome s s' i ret body r := by
  unfold Rpcs.dispatch at hs
  cases hst : d.stage with
  | header =>
    rw [hst] at hs
    dsimp only at hs
    have hw : s.windowAfter d ret body = s.window := by
      unfold Rpcs.windowAfter
      rw [hst]
    split_ifs at hs with hok hold hproc hclt
    · obtain rfl := Option.some.inj hs
      apply enter_outcome hw.symm
      constructor <;> simp [hst, Stage.next, hok, hold, Rpcs.replyAfter]
    · obtain rfl := Option.some.inj hs
      apply enter_outcome hw.symm
      constructor <;> simp [hst, Stage.next, hok, hold, Rpcs.replyAfter]
    · obtain rfl := Option.some.inj hs
      apply enter_outcome hw.symm
      constructor <;> simp [hst, Stage.next, hok, hold, not_not.mp hclt, Rpcs.replyAfter]
    · exact release_outcome hw hs
  | oldServer =>
    rw [hst] at hs
    obtain rfl := Option.some.inj hs
    refine ⟨none, ⟨rfl, rfl, rfl, rfl⟩, rfl, ?_, Or.inl rfl, fun d' hd' => by cases hd'⟩
    unfold Rpcs.windowAfter
    rw [hst]
    rfl
  | record =>
    rw [hst] at hs
    obtain ⟨c, hc, hs⟩ := Option.bind_eq_some_iff.mp hs
    obtain ⟨s₁, hs₁, rfl⟩ := Option.map_eq_some_iff.mp hs
    obtain ⟨hsame, hconns, hfind⟩ := record_same hs₁
    refine ⟨some { d with stage := .check }, ⟨hsame.sum, hsame.nonce, hsame.made, hsame.queue⟩, ?_,
      ?_, ?_, fun d' hd' => ?_⟩
    · rw [← hsame.active]
      rfl
    · unfold Rpcs.windowAfter
      rw [hst]
      exact hsame.window
    · exact hconns.imp id fun hassign => Or.inl ⟨hst, c, hc, hassign⟩
    · obtain rfl := Option.some.inj hd'
      have hfind' : (s₁.enter i d .check).conns.find d.header.cltNonce ≠ none := hfind
      constructor <;> simp [hst, Stage.next, hfind', Rpcs.replyAfter]
  | check =>
    rw [hst] at hs
    obtain rfl := Option.some.inj hs
    apply enter_outcome
    · unfold Rpcs.windowAfter
      rw [hst]
      rfl
    · have hmem := verdictStage_mem (s.verdict d).1
      constructor
      case stage =>
        rw [hst]
        exact hmem
      case judged => exact fun _ => rfl
      case rep =>
        unfold Rpcs.replyAfter
        rw [hst]
        rfl
      all_goals simp [hst]
  | handle =>
    rw [hst] at hs
    dsimp only at hs
    split_ifs at hs with hret hclt
    · obtain rfl := Option.some.inj hs
      apply enter_outcome
      · unfold Rpcs.windowAfter
        rw [hst]
        exact (if_pos hclt).symm
      · constructor <;> simp [hst, Stage.next, Rpcs.replyAfter, Int32.not_lt.mp hret]
    · obtain rfl := Option.some.inj hs
      apply enter_outcome
      · unfold Rpcs.windowAfter
        rw [hst]
        exact (if_neg hclt).symm
      · constructor <;> simp [hst, Stage.next, Rpcs.replyAfter, Int32.not_lt.mp hret]
  | choose =>
    rw [hst] at hs
    obtain ⟨c, hc, hs⟩ := Option.bind_eq_some_iff.mp hs
    obtain ⟨r, hr, rfl⟩ := Option.map_eq_some_iff.mp hs
    obtain ⟨hsame, hconns, hwhich⟩ := choose_same hr
    refine ⟨some { d with
      conn := r.1
      found := (r.2.conns.find d.header.cltNonce).join
      stage := .reply }, ⟨hsame.sum, hsame.nonce, hsame.made, hsame.queue⟩, ?_, ?_, ?_,
      fun d' hd' => ?_⟩
    · rw [← hsame.active]
      rfl
    · unfold Rpcs.windowAfter
      rw [hst]
      exact hsame.window
    · exact hconns.imp id fun htouch => Or.inr ⟨hst, htouch⟩
    · obtain rfl := Option.some.inj hd'
      constructor
      case chosen =>
        intro
        obtain hkept | ⟨hfound, hdead⟩ := hwhich
        · exact ⟨rfl, Or.inl (hkept.trans hc.symm)⟩
        · exact ⟨rfl, Or.inr ⟨hfound, c, hc, hdead⟩⟩
      all_goals simp [hst, Stage.next, Rpcs.replyAfter]
  | reply =>
    rw [hst] at hs
    obtain ⟨c, hc, rfl⟩ := Option.map_eq_some_iff.mp hs
    have hw : s.window = s.windowAfter d ret body := by
      unfold Rpcs.windowAfter
      rw [hst]
    apply enter_outcome hw
    constructor <;> simp [hst, Stage.next, Rpcs.replyAfter]
  | release =>
    rw [hst] at hs
    apply release_outcome _ hs
    unfold Rpcs.windowAfter
    rw [hst]

/-- What an event that is no step of a dispatch does. -/
structure Rpcs.Outside (s : Rpcs) (e : RpcsEvent) (s' : Rpcs) : Prop where
  sum : s'.sum = s.sum
  nonce : s'.nonce = s.nonce
  conns : s'.conns = s.conns
  window : s'.window = s.window
  made : s'.made = s.made ∨ (∃ fd time, e = .accept fd time) ∧ s'.made = s.made + 1
  queue : s'.queue = s.queue ∧ s'.active = s.active ∨
    (∃ c buf sz, e = .gotPdu c buf sz true ∧ c < s.made ∧ s'.queue = s.queue ++ [⟨c, buf, sz⟩] ∧
      s'.active = s.active) ∨
    ∃ i j q, e = .take i ∧ s.active i = none ∧ s.queue = j :: q ∧ s'.queue = q ∧
      s'.active = Function.update s.active i (some (.start s.sum j))

theorem step_outside (he : ∀ i ret body, e ≠ .go i ret body) (hs : s.step e = some s') :
    s.Outside e s' := by
  have hsame : ∀ {t}, s.Same t → t.conns = s.conns → s.Outside e t := fun hsame hconns =>
    ⟨hsame.sum, hsame.nonce, hconns, hsame.window, Or.inl hsame.made,
      Or.inl ⟨hsame.queue, hsame.active⟩⟩
  cases e with
  | accept fd time =>
    unfold Rpcs.step at hs
    dsimp only at hs
    split_ifs at hs
    obtain rfl := Option.some.inj hs
    exact ⟨rfl, rfl, rfl, rfl, Or.inr ⟨⟨fd, time, rfl⟩, rfl⟩, Or.inl ⟨rfl, rfl⟩⟩
  | examine fd =>
    unfold Rpcs.step at hs
    dsimp only at hs
    split at hs
    · split_ifs at hs
      obtain rfl := Option.some.inj hs
      exact hsame ⟨⟨rfl, rfl, rfl, rfl⟩, rfl, rfl⟩ rfl
    · cases hs
  | collect =>
    obtain ⟨n, -, hs⟩ := Option.bind_eq_some_iff.mp hs
    obtain ⟨c, -, hs⟩ := Option.bind_eq_some_iff.mp hs
    obtain ⟨s₁, hs₁, rfl⟩ := Option.map_eq_some_iff.mp hs
    obtain ⟨h, hconns⟩ := decref_same hs₁
    exact hsame ⟨⟨h.sum, h.nonce, h.made, h.queue⟩, h.window, h.active⟩ hconns
  | insert =>
    unfold Rpcs.step at hs
    dsimp only at hs
    split at hs
    · obtain rfl := Option.some.inj hs
      exact hsame ⟨⟨rfl, rfl, rfl, rfl⟩, rfl, rfl⟩ rfl
    · cases hs
  | die c =>
    unfold Rpcs.step at hs
    dsimp only at hs
    split_ifs at hs
    obtain rfl := Option.some.inj hs
    exact hsame ⟨⟨rfl, rfl, rfl, rfl⟩, rfl, rfl⟩ rfl
  | setReachable b =>
    obtain rfl := Option.some.inj hs
    exact hsame ⟨⟨rfl, rfl, rfl, rfl⟩, rfl, rfl⟩ rfl
  | gotPdu c buf sz succ =>
    unfold Rpcs.step at hs
    dsimp only at hs
    split_ifs at hs with hguard hreach hsucc
    · obtain rfl := Option.some.inj hs
      refine ⟨rfl, rfl, rfl, rfl, Or.inl rfl, Or.inr (Or.inl ⟨c, buf, sz, ?_, hguard.2.1, rfl, rfl⟩)⟩
      rw [hsucc]
    · obtain rfl := Option.some.inj hs
      exact hsame ⟨⟨rfl, rfl, rfl, rfl⟩, rfl, rfl⟩ rfl
    · obtain rfl := Option.some.inj hs
      exact hsame .rfl rfl
  | returned =>
    obtain ⟨p, -, hs⟩ := Option.bind_eq_some_iff.mp hs
    obtain ⟨s₁, hs₁, rfl⟩ := Option.map_eq_some_iff.mp hs
    split_ifs at hs₁
    · obtain ⟨h, hconns⟩ := decref_same hs₁
      exact hsame ⟨⟨h.sum, h.nonce, h.made, h.queue⟩, h.window, h.active⟩ hconns
    · obtain rfl := Option.some.inj hs₁
      exact hsame ⟨⟨rfl, rfl, rfl, rfl⟩, rfl, rfl⟩ rfl
  | take i =>
    unfold Rpcs.step at hs
    dsimp only at hs
    split at hs
    · next j q hi hq =>
      obtain rfl := Option.some.inj hs
      exact ⟨rfl, rfl, rfl, rfl, Or.inl rfl, Or.inr (Or.inr ⟨i, j, q, rfl, hi, hq, rfl, rfl⟩)⟩
    · cases hs
  | go i ret body => exact absurd rfl (he i ret body)

/-- What a step does to the dispatches. -/
theorem step_active (hs : s.step e = some s') (hd' : s'.active i = some d') :
    s.active i = some d' ∨ (e = .take i ∧ ∃ j ∈ s.queue, d' = .start s.sum j) ∨
      ∃ ret body d, e = .go i ret body ∧ s.active i = some d ∧ d.Goes s s' ret body d' := by
  by_cases he : ∀ i ret body, e ≠ .go i ret body
  · obtain ⟨-, hactive⟩ | ⟨c, buf, sz, -, -, -, hactive⟩ | ⟨k, j, q, rfl, -, hq, -, hactive⟩ :=
      (step_outside he hs).queue
    · rw [hactive] at hd'
      exact Or.inl hd'
    · rw [hactive] at hd'
      exact Or.inl hd'
    · rw [hactive] at hd'
      by_cases hik : i = k
      · subst hik
        rw [Function.update_self] at hd'
        refine Or.inr (Or.inl ⟨rfl, j, ?_, (Option.some.inj hd').symm⟩)
        rw [hq]
        exact List.mem_cons_self
      · rw [Function.update_of_ne hik] at hd'
        exact Or.inl hd'
  · push Not at he
    obtain ⟨k, ret, body, rfl⟩ := he
    obtain ⟨d, hd, hs⟩ := Option.bind_eq_some_iff.mp hs
    obtain ⟨r, hr⟩ := dispatch_outcome hs
    rw [hr.active] at hd'
    by_cases hik : i = k
    · subst hik
      rw [Function.update_self] at hd'
      exact Or.inr (Or.inr ⟨ret, body, d, rfl, hd, hr.goes d' hd'⟩)
    · rw [Function.update_of_ne hik] at hd'
      exact Or.inl hd'

/-- What a step writes into `conns_`. -/
theorem step_conns (hs : s.step e = some s') :
    s'.conns = s.conns ∨ ∃ i ret body d, e = .go i ret body ∧ s.active i = some d ∧
      ((∃ c, d.conn = some c ∧ s'.conns = s.conns.assign d.header.cltNonce (some c)) ∨
        d.stage = .choose ∧ s'.conns = (s.touch d.header.cltNonce).conns) := by
  by_cases he : ∀ i ret body, e ≠ .go i ret body
  · exact Or.inl (step_outside he hs).conns
  · push Not at he
    obtain ⟨i, ret, body, rfl⟩ := he
    obtain ⟨d, hd, hs⟩ := Option.bind_eq_some_iff.mp hs
    obtain ⟨r, hr⟩ := dispatch_outcome hs
    obtain hkept | ⟨-, hassign⟩ | htouch := hr.conns
    · exact Or.inl hkept
    · exact Or.inr ⟨i, ret, body, d, rfl, hd, Or.inl hassign⟩
    · exact Or.inr ⟨i, ret, body, d, rfl, hd, Or.inr htouch⟩

end Step

end Yfs.Rpc
