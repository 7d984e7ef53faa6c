import Yfs.Rpc.References

/-! The connection that a reply is sent on. -/
namespace Yfs.Rpc

open Effect

/-- Every dispatch has a connection with a reference of its own, either that of its request or the
one recorded for its client. -/
def Rpcs.Replies (s : Rpcs) : Prop :=
  ∀ i d, s.active i = some d → ∃ c, d.conn = some c ∧
    (c = d.arrived ∨ d.header.cltNonce ≠ 0 ∧ d.found = some c) ∧
    1 ≤ s.jobs c ∧ (s.holders c : ℤ) ≤ (s.conn c).refno ∧ (s.conn c).freed = false

/-- No connection is dead when the reply to a request without a client nonce is about to be sent. -/
def Rpcs.arrives (s : Rpcs) : RpcsEvent → Bool
  | .go i _ _ =>
    match s.active i with
    | some d => !(d.stage = .choose && d.header.cltNonce = 0 &&
        d.conn.elim false fun c => (s.conn c).dead)
    | none => true
  | _ => true

/-- The stages in which `conns_` has the client of an at-most-once request. -/
def Stage.isRecorded : Stage → Bool
  | .check | .handle | .choose => true
  | _ => false

/-- The stages up to the choice of the connection. -/
def Stage.isEarly : Stage → Bool
  | .reply | .release => false
  | _ => true

section Conns

variable {s s' : Rpcs} {e : RpcsEvent} {i : Worker} {d d' : Dispatch} {n : UInt32} {c : ℕ}

/-- A client that `conns_` has stays there. -/
theorem step_find (hs : s.step e = some s') (hn : s.conns.find n ≠ none) :
    s'.conns.find n ≠ none := by
  obtain hkept | ⟨i, ret, body, d, -, -, ⟨c, -, hassign⟩ | ⟨-, htouch⟩⟩ := step_conns hs
  · rwa [hkept]
  · rw [hassign, SortedMap.find_assign]
    split_ifs
    · exact Option.some_ne_none _
    · exact hn
  · rw [htouch]
    obtain hsame | ⟨-, hnull⟩ := touch_find (s := s) (n := d.header.cltNonce) n
    · rwa [hsame]
    · rw [hnull]
      exact Option.some_ne_none _

end Conns

/-- What holds between two events of a run in which no reply to a request without a client nonce
finds its connection dead. -/
structure Rpcs.Directed (s : Rpcs) : Prop where
  sound : s.Sound
  filled : ∀ n, n ≠ 0 → s.conns.find n ≠ some none
  known : ∀ i d, s.active i = some d → d.header.cltNonce ≠ 0 → d.stage.isRecorded = true →
    s.conns.find d.header.cltNonce ≠ none
  early : ∀ i d, s.active i = some d → d.stage.isEarly = true → d.conn = some d.arrived
  sent : ∀ i d, s.active i = some d → ∃ c, d.conn = some c ∧
    (c = d.arrived ∨ d.header.cltNonce ≠ 0 ∧ d.found = some c)

section Run

variable {s s' : Rpcs} {e : RpcsEvent}

theorem directed_init (sum : Bool) (nonce : UInt32) (procs : List Int32) :
    (Rpcs.init sum nonce procs).Directed := by
  refine ⟨sound_init sum nonce procs, ?_, ?_, ?_, ?_⟩
  · intro n _ hn
    cases hn
  · intro i d hd
    cases hd
  · intro i d hd
    cases hd
  · intro i d hd
    cases hd

theorem Rpcs.Directed.filled_step (h : s.Directed) (hs : s.step e = some s') :
    ∀ n, n ≠ 0 → s'.conns.find n ≠ some none := by
  intro n hn
  obtain hkept | ⟨i, ret, body, d, -, hd, ⟨c, -, hassign⟩ | ⟨hst, htouch⟩⟩ := step_conns hs
  · rw [hkept]
    exact h.filled n hn
  · rw [hassign, SortedMap.find_assign]
    split_ifs
    · simp
    · exact h.filled n hn
  · by_cases hclt : d.header.cltNonce = 0
    · rw [htouch]
      obtain hsame | ⟨heq, -⟩ := touch_find (s := s) (n := d.header.cltNonce) n
      · rw [hsame]
        exact h.filled n hn
      · exact absurd (heq.trans hclt) hn
    · -- the lookup is for a client that has been recorded
      rw [htouch, touch_of_find (h.known i d hd hclt (by rw [hst]; rfl))]
      exact h.filled n hn

theorem Rpcs.Directed.known_step (h : s.Directed) (hs : s.step e = some s') :
    ∀ i d, s'.active i = some d → d.header.cltNonce ≠ 0 → d.stage.isRecorded = true →
      s'.conns.find d.header.cltNonce ≠ none := by
  intro i d' hd' hclt hrec
  obtain hd | ⟨rfl, j, -, rfl⟩ | ⟨ret, body, d, rfl, hd, hgoes⟩ := step_active hs hd'
  · exact step_find hs (h.known i d' hd hclt hrec)
  · cases hrec
  · rw [hgoes.kept.1] at hclt ⊢
    have hnext := hgoes.stage
    cases hst : d.stage with
    | header =>
      have hhandle : d'.stage = .handle := by
        rw [hst] at hnext
        simp only [Stage.next, List.mem_cons, List.not_mem_nil, or_false] at hnext
        obtain hold | hrecord | hhandle := hnext
        · rw [hold] at hrec
          cases hrec
        · rw [hrecord] at hrec
          cases hrec
        · exact hhandle
      exact absurd (hgoes.handed hst hhandle) hclt
    | record => exact hgoes.recorded hst
    | check => exact step_find hs (h.known i d hd hclt (by rw [hst]; rfl))
    | handle => exact step_find hs (h.known i d hd hclt (by rw [hst]; rfl))
    | choose =>
      rw [hst] at hnext
      rw [List.mem_singleton.mp hnext] at hrec
      cases hrec
    | reply =>
      rw [hst] at hnext
      rw [List.mem_singleton.mp hnext] at hrec
      cases hrec
    | oldServer | release =>
      rw [hst] at hnext
      cases hnext

theorem Rpcs.Directed.early_step (h : s.Directed) (hs : s.step e = some s') :
    ∀ i d, s'.active i = some d → d.stage.isEarly = true → d.conn = some d.arrived := by
  intro i d' hd' hearly
  obtain hd | ⟨rfl, j, -, rfl⟩ | ⟨ret, body, d, rfl, hd, hgoes⟩ := step_active hs hd'
  · exact h.early i d' hd hearly
  · rfl
  · have hnext := hgoes.stage
    have hne : d.stage ≠ .choose ∧ d.stage.isEarly = true := by
      cases hst : d.stage with
      | choose | reply =>
        rw [hst] at hnext
        rw [List.mem_singleton.mp hnext] at hearly
        cases hearly
      | release =>
        rw [hst] at hnext
        cases hnext
      | _ => exact ⟨by decide, rfl⟩
    rw [(hgoes.same hne.1).1, hgoes.kept.2.1]
    exact h.early i d hd hne.2

theorem Rpcs.Directed.sent_step (h : s.Directed) (ha : s.arrives e = true)
    (hs : s.step e = some s') :
    ∀ i d, s'.active i = some d → ∃ c, d.conn = some c ∧
      (c = d.arrived ∨ d.header.cltNonce ≠ 0 ∧ d.found = some c) := by
  intro i d' hd'
  obtain hd | ⟨rfl, j, -, rfl⟩ | ⟨ret, body, d, rfl, hd, hgoes⟩ := step_active hs hd'
  · exact h.sent i d' hd
  · exact ⟨j.conn, rfl, Or.inl rfl⟩
  · by_cases hst : d.stage = .choose
    · have hconn := h.early i d hd (by rw [hst]; rfl)
      obtain ⟨hfound, hkept | ⟨hother, c, hc, hdead⟩⟩ := hgoes.chosen hst
      · exact ⟨d.arrived, hkept.trans hconn, Or.inl hgoes.kept.2.1.symm⟩
      · have hclt : d.header.cltNonce ≠ 0 := by
          intro hclt
          unfold Rpcs.arrives at ha
          dsimp only at ha
          rw [hd] at ha
          simp [hst, hclt, hc, hdead] at ha
        have hsome := step_find hs (h.known i d hd hclt (by rw [hst]; rfl))
        have hfilled := h.filled_step hs d.header.cltNonce hclt
        -- `conns_` has the client, and not with a null connection
        cases hfind : s'.conns.find d.header.cltNonce with
        | none => exact absurd hfind hsome
        | some p =>
          cases p with
          | none => exact absurd hfind hfilled
          | some c' =>
            rw [hfind] at hfound
            refine ⟨c', hother.trans hfound, Or.inr ⟨?_, hfound⟩⟩
            rw [hgoes.kept.1]
            exact hclt
    · obtain ⟨c, hc, hwhich⟩ := h.sent i d hd
      rw [(hgoes.same hst).1, (hgoes.same hst).2, hgoes.kept.1, hgoes.kept.2.1]
      exact ⟨c, hc, hwhich⟩

theorem Rpcs.Directed.step (h : s.Directed) (hk : s.keeps e = true ∧ s.arrives e = true)
    (hs : s.step e = some s') : s'.Directed where
  sound := step_sound h.sound hk.1 hs
  filled := h.filled_step hs
  known := h.known_step hs
  early := h.early_step hs
  sent := h.sent_step hk.2 hs

theorem Rpcs.Directed.holds (h : s.Directed) : s.Replies := by
  intro i d hd
  obtain ⟨c, hc, hwhich⟩ := h.sent i d hd
  obtain ⟨-, -, hlive⟩ := h.sound.held (holders_of_active hd hc)
  have hbelow := h.sound.below c
  unfold Rpcs.excess at hbelow
  exact ⟨c, hc, hwhich, jobs_of_active hd hc, by omega, hlive⟩

/-- In such a run every reply has a connection to be sent on. -/
theorem replies_held (sum : Bool) (nonce : UInt32) (procs : List Int32) {es : List RpcsEvent}
    (hm : Meets Rpcs.step (fun s e => s.keeps e = true ∧ s.arrives e = true) es
      (Rpcs.init sum nonce procs))
    (hr : runs Rpcs.step es (Rpcs.init sum nonce procs) = some s) : s.Replies := by
  have h : s.Directed := hm.invariant Rpcs.step (fun s e s' h hk hs => h.step hk hs)
    (directed_init sum nonce procs) hr
  exact h.holds

/-- The client sends its request again on a new connection while the handler runs, and the old one
dies. -/
def movedRequest : List RpcsEvent :=
  oneRequest 9 5 ++ [.go 0 0 [], .go 0 0 [], .accept 4 1, .insert,
    .gotPdu 1 (requestBytes 9 5) 24 true, .returned, .take 1, .go 1 0 [], .go 1 0 [], .die 0,
    .go 0 0 [], .go 0 0 [], .go 0 0 []]

theorem replies_held_example :
    ∃ s, runs Rpcs.step movedRequest (Rpcs.init false 5 [0]) = some s ∧
      (s.active 0).bind (fun d => d.conn) = some 1 ∧ s.Replies := by
  have hr : (runs Rpcs.step movedRequest (Rpcs.init false 5 [0])).map
      (fun s => (s.active 0).bind fun d => d.conn) = some (some 1) := by decide
  obtain ⟨s, hs, hconn⟩ := Option.map_eq_some_iff.mp hr
  have hm : Meets Rpcs.step (fun s e => s.keeps e = true ∧ s.arrives e = true) movedRequest
      (Rpcs.init false 5 [0]) := by decide
  exact ⟨s, hs, hconn, replies_held false 5 [0] hm hs⟩

/-- The connection of a request without a client nonce dies while the handler runs. -/
theorem reply_on_null :
    ∃ es s, runs Rpcs.step es (Rpcs.init false 5 [0]) = some s ∧ ¬ s.Replies := by
  have hr : (runs Rpcs.step (oneRequest 0 5 ++ [.go 0 0 [], .go 0 0 [], .die 0, .go 0 0 []])
      (Rpcs.init false 5 [0])).map (fun s => (s.active 0).map fun d => d.conn) =
        some (some none) := by decide
  obtain ⟨s, hs, hconn⟩ := Option.map_eq_some_iff.mp hr
  obtain ⟨d, hd, hnone⟩ := Option.map_eq_some_iff.mp hconn
  refine ⟨_, s, hs, fun h => ?_⟩
  obtain ⟨c, hc, -⟩ := h 0 d hd
  rw [hnone] at hc
  cases hc

end Run

end Yfs.Rpc
