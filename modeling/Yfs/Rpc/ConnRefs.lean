import Yfs.Rpc.Refconn

/-! The references to a client's connections: which pointers count, and how the counts follow when
one thread moves. -/
namespace Yfs.Rpc

open Effect
open scoped BigOperators

/-- The `ch` of a call has a reference, except while `get_refconn` exchanges it. -/
def Call1.counted (c : ℕ) : Option Call1 → ℕ
  | none => 0
  | some a => if a.ch = some c ∧ a.stage ≠ .assign ∧ a.stage ≠ .incref then 1 else 0

/-- What `get_refconn` has found out when it comes to a stage. -/
def Call1.Placed (a : Call1) (chan : Option ℕ) (conn : ℕ → Peer) : Prop :=
  match a.stage with
  | .drop => ∃ c, chan = some c ∧ (conn c).dead = true
  | .connect => ∀ c, chan = some c → (conn c).dead = true
  | .release => a.ch ≠ none ∧ chan ≠ none
  | .assign => chan ≠ none
  | .incref => a.ch = chan ∧ chan ≠ none
  | _ => True

theorem Call1.placed_of_not_inside {a : Call1} {chan : Option ℕ} {conn : ℕ → Peer}
    (h : ¬ a.stage.Inside) : a.Placed chan conn := by
  cases a with
  | mk ch stage => cases stage <;> first | trivial | exact absurd trivial h

theorem Call1.Placed.mono {a : Call1} {chan : Option ℕ} {conn conn' : ℕ → Peer}
    (h : a.Placed chan conn) (hdead : ∀ c, (conn c).dead = true → (conn' c).dead = true) :
    a.Placed chan conn' := by
  cases a with
  | mk ch stage =>
    cases stage with
    | drop =>
      obtain ⟨c, hc, hd⟩ := h
      exact ⟨c, hc, hdead c hd⟩
    | connect => exact fun c hc => hdead c (h c hc)
    | _ => exact h

namespace Rpcc

variable {k : ℕ} {s s' : Rpcc k} {t : Fin k} {a : Call1} {v : Option Call1} {c c₀ : ℕ}

/-- The reference of `chan_`, which is given back before `chan_` is changed. -/
def chanRef (s : Rpcc k) (c : ℕ) : ℕ := if s.chan = some c ∧ s.inside ≠ some .connect then 1 else 0

/-- The references to a connection. -/
def refs (s : Rpcc k) (c : ℕ) : ℕ := s.chanRef c + ∑ t, Call1.counted c (s.calls t)

/-- One thread at a time is in `get_refconn`. -/
structure Turns (s : Rpcc k) : Prop where
  inside : ∀ t a, s.calls t = some a → (a.stage.Inside ↔ s.owner = some t)
  owner : ∀ t, s.owner = some t → s.calls t ≠ none
  placed : ∀ t a, s.calls t = some a → a.Placed s.chan s.conn

/-- Every pointer that counts is a reference, and every live connection is `chan_`. -/
structure Counted (s : Rpcc k) : Prop where
  refno : ∀ c, (s.conn c).refno = s.refs c
  chan_lt : ∀ c, s.chan = some c → c < s.made
  ch_lt : ∀ t a c, s.calls t = some a → a.ch = some c → c < s.made
  alive : ∀ c < s.made, (s.conn c).dead = false → s.chan = some c
  freed : ∀ c, (s.conn c).freed = true ↔ c < s.made ∧ (s.conn c).refno = 0
  deleted : s.deleted.Nodup ∧ ∀ c, c ∈ s.deleted ↔ (s.conn c).freed = true

/-- The destructor runs when no call is left. -/
structure Ended (s : Rpcc k) : Prop where
  calls : s.life ≠ .inUse → ∀ t, s.calls t = none
  closing : s.life = .closing → ∃ c, s.chan = some c ∧ (s.conn c).dead = true
  gone : s.life = .gone → s.chan = none

structure Sound (s : Rpcc k) : Prop where
  turns : s.Turns
  counted : s.Counted
  ended : s.Ended

/-- A state in which only `t` has moved. -/
structure Moved (s s' : Rpcc k) (t : Fin k) (v : Option Call1) : Prop where
  calls : s'.calls = Function.update s.calls t v
  owner : ∀ u, u ≠ t → (s'.owner = some u ↔ s.owner = some u)
  life : s'.life = s.life

/-- What another thread is at does not depend on `t`, unless `t` has `chan_m_`, and then it is
outside. -/
theorem Turns.move (h : s.Turns) (hm : s.Moved s' t v)
    (hv : ∀ a, v = some a → (a.stage.Inside ↔ s'.owner = some t) ∧ a.Placed s'.chan s'.conn)
    (hnone : v = none → s'.owner ≠ some t)
    (hsame : s.owner = some t ∨
      s'.chan = s.chan ∧ ∀ c, (s.conn c).dead = true → (s'.conn c).dead = true) : s'.Turns := by
  have hother : ∀ u, u ≠ t → s'.calls u = s.calls u := by
    intro u hu
    rw [hm.calls, Function.update_of_ne hu]
  have hself : s'.calls t = v := by rw [hm.calls, Function.update_self]
  refine ⟨fun u a hu => ?_, fun u hu => ?_, fun u a hu => ?_⟩
  · by_cases hut : u = t
    · subst hut
      exact (hv a (hself.symm.trans hu)).1
    · rw [hother u hut] at hu
      rw [hm.owner u hut]
      exact h.inside u a hu
  · by_cases hut : u = t
    · subst hut
      rw [hself]
      exact fun hn => hnone hn hu
    · rw [hother u hut]
      exact h.owner u ((hm.owner u hut).mp hu)
  · by_cases hut : u = t
    · subst hut
      exact (hv a (hself.symm.trans hu)).2
    · rw [hother u hut] at hu
      obtain hown | ⟨hchan, hdead⟩ := hsame
      · refine Call1.placed_of_not_inside fun hin => hut ?_
        have hou := (h.inside u a hu).mp hin
        exact Option.some.inj (hou.symm.trans hown)
      · rw [hchan]
        exact (h.placed u a hu).mono hdead

/-- A thread stays in `get_refconn`, and may change everything there. -/
theorem Turns.within (h : s.Turns) {a' : Call1} (hm : s.Moved s' t (some a'))
    (hown : s.owner = some t) (hown' : s'.owner = some t) (hin : a'.stage.Inside)
    (hplaced : a'.Placed s'.chan s'.conn) : s'.Turns := by
  refine h.move hm (fun b hb => ?_) (fun hn => by cases hn) (Or.inl hown)
  obtain rfl := Option.some.inj hb
  exact ⟨⟨fun _ => hown', fun _ => hin⟩, hplaced⟩

/-- How the references change when `t` moves. -/
theorem refs_move (hm : s.Moved s' t v) (c : ℕ) :
    s'.refs c + (s.chanRef c + Call1.counted c (s.calls t)) =
      s.refs c + (s'.chanRef c + Call1.counted c v) := by
  have hsum := sum_update (Call1.counted c) s.calls t v
  unfold refs
  rw [hm.calls]
  omega

theorem ch_lt_move (h : s.Counted) (hm : s.Moved s' t v) (hmade : s.made ≤ s'.made)
    (hv : ∀ a c, v = some a → a.ch = some c → c < s'.made) :
    ∀ u a c, s'.calls u = some a → a.ch = some c → c < s'.made := by
  intro u a c hu hc
  rw [hm.calls, Function.update_apply] at hu
  split_ifs at hu with hut
  · exact hv a c hu hc
  · exact (h.ch_lt u a c hu hc).trans_le hmade

/-- A call goes on with the `ch` it has. -/
theorem ch_lt_same (h : s.Counted) {ch : Option ℕ} {stage stage' : CallStage}
    (ha : s.calls t = some ⟨ch, stage⟩) (hm : s.Moved s' t (some ⟨ch, stage'⟩))
    (hmade : s.made ≤ s'.made) :
    ∀ u a c, s'.calls u = some a → a.ch = some c → c < s'.made := by
  refine ch_lt_move h hm hmade fun a c hv hc => ?_
  obtain rfl := Option.some.inj hv
  exact (h.ch_lt t _ c ha hc).trans_le hmade

/-- `chan_` is kept, or it gives up a dead connection. -/
def Drops (s s' : Rpcc k) : Prop :=
  s'.chan = s.chan ∨ s'.chan = none ∧ ∀ c, s.chan = some c → (s.conn c).dead = true

theorem Drops.chan_lt (hd : s.Drops s') (h : s.Counted) {n : ℕ} (hn : s.made ≤ n) :
    ∀ c, s'.chan = some c → c < n := by
  intro c hc
  obtain heq | ⟨hnone, -⟩ := hd
  · exact (h.chan_lt c (heq.symm.trans hc)).trans_le hn
  · cases hnone.symm.trans hc

theorem Drops.alive (hd : s.Drops s') (hc : s.chan = some c) (hdead : (s.conn c).dead = false) :
    s'.chan = some c := by
  obtain heq | ⟨-, hall⟩ := hd
  · exact heq.trans hc
  · cases hdead.symm.trans (hall c hc)

theorem Counted.freed_eq_false (h : s.Counted) (hc : 0 < s.refs c) : (s.conn c).freed = false := by
  rw [Bool.eq_false_iff]
  intro hf
  have hzero := ((h.freed c).mp hf).2
  rw [h.refno c] at hzero
  omega

/-- No reference is given or taken. -/
theorem Counted.keep (h : s.Counted) (hconn : s'.conn = s.conn) (hmade : s'.made = s.made)
    (hdel : s'.deleted = s.deleted) (hd : s.Drops s') (hrefs : ∀ c, s'.refs c = s.refs c)
    (hch : ∀ u a c, s'.calls u = some a → a.ch = some c → c < s'.made) : s'.Counted := by
  refine ⟨fun c => ?_, hd.chan_lt h hmade.ge, hch, fun c hc hdead => ?_, fun c => ?_, ?_⟩
  · rw [hconn, hrefs]
    exact h.refno c
  · rw [hmade] at hc
    rw [hconn] at hdead
    exact hd.alive (h.alive c hc hdead) hdead
  · rw [hconn, hmade]
    exact h.freed c
  · rw [hconn, hdel]
    exact h.deleted

/-- A reference is given back. If it was the last one, the connection is dead. -/
theorem Counted.giveBack (h : s.Counted) (hconn : s'.conn = (s.decref c₀).conn)
    (hmade : s'.made = s.made) (hdel : s'.deleted = (s.decref c₀).deleted) (hd : s.Drops s')
    (hrefs : ∀ c, s'.refs c + (if c = c₀ then 1 else 0) = s.refs c) (hlt : c₀ < s.made)
    (hlast : s'.refs c₀ = 0 → (s.conn c₀).dead = true)
    (hch : ∀ u a c, s'.calls u = some a → a.ch = some c → c < s'.made) : s'.Counted := by
  have hpos := hrefs c₀
  rw [if_pos rfl] at hpos
  have hlive := h.freed_eq_false (c := c₀) (by omega)
  have hself : s'.conn c₀ = (s.conn c₀).decref := by
    rw [hconn]
    exact Function.update_self ..
  have hne : ∀ c, c ≠ c₀ → s'.conn c = s.conn c := by
    intro c hc
    rw [hconn]
    exact Function.update_of_ne hc ..
  have hfreed : (s'.conn c₀).freed = true ↔ (s'.conn c₀).refno = 0 := by
    have hrefno := h.refno c₀
    simp only [hself, Peer.decref, hlive, Bool.false_or, Bool.and_eq_true, decide_eq_true_eq]
    constructor
    · intro hone
      omega
    · intro hzero
      exact ⟨by omega, hlast (by omega)⟩
  refine ⟨fun c => ?_, hd.chan_lt h hmade.ge, hch, fun c hc hdead => ?_, fun c => ?_, ?_⟩
  · have hrefno := h.refno c
    have hc := hrefs c
    by_cases hcc : c = c₀
    · subst hcc
      rw [if_pos rfl] at hc
      rw [hself]
      simp only [Peer.decref]
      omega
    · rw [if_neg hcc] at hc
      rw [hne c hcc]
      omega
  · have hdead' : (s.conn c).dead = false := by
      by_cases hcc : c = c₀
      · subst hcc
        rwa [hself] at hdead
      · rwa [hne c hcc] at hdead
    rw [hmade] at hc
    exact hd.alive (h.alive c hc hdead') hdead'
  · by_cases hcc : c = c₀
    · subst hcc
      rw [hfreed, hmade]
      exact ⟨fun hz => ⟨hlt, hz⟩, fun hz => hz.2⟩
    · rw [hne c hcc, hmade]
      exact h.freed c
  · have hnot : c₀ ∉ s.deleted := by
      rw [h.deleted.2, hlive]
      decide
    rw [hdel]
    simp only [Rpcc.decref, ← hself]
    split_ifs with hf
    · refine ⟨List.nodup_cons.mpr ⟨hnot, h.deleted.1⟩, fun c => ?_⟩
      rw [List.mem_cons, h.deleted.2]
      by_cases hcc : c = c₀
      · subst hcc
        exact ⟨fun _ => hf, fun _ => Or.inl rfl⟩
      · rw [hne c hcc]
        exact ⟨fun hor => hor.resolve_left hcc, Or.inr⟩
    · refine ⟨h.deleted.1, fun c => ?_⟩
      rw [h.deleted.2]
      by_cases hcc : c = c₀
      · subst hcc
        rw [hlive]
        exact ⟨fun hfalse => absurd hfalse Bool.false_ne_true, fun htrue => absurd htrue hf⟩
      · rw [hne c hcc]

/-- What a connection keeps when it is changed. -/
theorem field_update {β : Type} (f : Peer → β) (conn : ℕ → Peer) {p : Peer}
    (hp : f p = f (conn c₀)) (c : ℕ) : f (Function.update conn c₀ p c) = f (conn c) := by
  rw [Function.update_apply]
  split_ifs with hcc
  · rw [hp, hcc]
  · rfl

/-- Another reference is taken to a connection that has one. -/
theorem Counted.acquire (h : s.Counted) (hconn : s'.conn = (s.incref c₀).conn)
    (hmade : s'.made = s.made) (hdel : s'.deleted = s.deleted) (hd : s.Drops s')
    (hrefs : ∀ c, s'.refs c = s.refs c + if c = c₀ then 1 else 0) (hpos : 0 < s.refs c₀)
    (hch : ∀ u a c, s'.calls u = some a → a.ch = some c → c < s'.made) : s'.Counted := by
  have hdead : ∀ c, (s'.conn c).dead = (s.conn c).dead := by
    rw [hconn]
    exact field_update Peer.dead s.conn rfl
  have hrefno : ∀ c, (s'.conn c).refno = (s.conn c).refno + if c = c₀ then 1 else 0 := by
    intro c
    rw [hconn]
    unfold incref
    dsimp only
    rw [Function.update_apply]
    split_ifs with hcc
    · rw [hcc]
      rfl
    · exact (add_zero _).symm
  have hfreed : ∀ c, (s'.conn c).freed = (s.conn c).freed := by
    rw [hconn]
    exact field_update Peer.freed s.conn rfl
  refine ⟨fun c => ?_, hd.chan_lt h hmade.ge, hch, fun c hc hlive => ?_, fun c => ?_, ?_⟩
  · rw [hrefno, hrefs, h.refno]
    push_cast
    rfl
  · rw [hmade] at hc
    rw [hdead] at hlive
    exact hd.alive (h.alive c hc hlive) hlive
  · rw [hfreed, hrefno, hmade, h.freed, h.refno]
    by_cases hcc : c = c₀
    · subst hcc
      rw [if_pos rfl]
      omega
    · rw [if_neg hcc, add_zero]
  · rw [hdel]
    simp only [hfreed]
    exact h.deleted

theorem Counted.die (h : s.Counted) (c₀ : ℕ) {life : Life} :
    ({ s.die c₀ with life := life } : Rpcc k).Counted := by
  have hrefno : ∀ c, ((s.die c₀).conn c).refno = (s.conn c).refno :=
    field_update Peer.refno s.conn rfl
  have hfreed : ∀ c, ((s.die c₀).conn c).freed = (s.conn c).freed :=
    field_update Peer.freed s.conn rfl
  refine ⟨fun c => (hrefno c).trans (h.refno c), h.chan_lt, h.ch_lt, fun c hc hlive => ?_,
    fun c => ?_, h.deleted.1, fun c => ?_⟩
  · refine h.alive c hc ?_
    change ((s.die c₀).conn c).dead = false at hlive
    unfold Rpcc.die at hlive
    dsimp only at hlive
    rw [Function.update_apply] at hlive
    split_ifs at hlive
    · cases hlive
    · exact hlive
  · change ((s.die c₀).conn c).freed = true ↔ c < s.made ∧ ((s.die c₀).conn c).refno = 0
    rw [hfreed, hrefno]
    exact h.freed c
  · change c ∈ s.deleted ↔ ((s.die c₀).conn c).freed = true
    rw [hfreed]
    exact h.deleted.2 c

/-- A thread in `get_refconn` makes a connection to replace a dead one. -/
theorem Counted.connect (h : s.Counted) (hm : s.Moved s' t v) {fd time : ℕ}
    (hconn : s'.conn = (s.connect fd time).conn) (hmade : s'.made = s.made + 1)
    (hchan : s'.chan = some s.made) (hdel : s'.deleted = s.deleted)
    (hdead : ∀ c, s.chan = some c → (s.conn c).dead = true)
    (hold : ∀ c, s.chanRef c = 0) (hnew : ∀ c, s'.chanRef c = if c = s.made then 1 else 0)
    (hv : ∀ c, Call1.counted c v = Call1.counted c (s.calls t))
    (hch : ∀ u a c, s'.calls u = some a → a.ch = some c → c < s'.made) : s'.Counted := by
  have hself : s'.conn s.made = ⟨fd, time, false, 1, false⟩ := by
    rw [hconn]
    exact Function.update_self ..
  have hne : ∀ c, c ≠ s.made → s'.conn c = s.conn c := by
    intro c hc
    rw [hconn]
    exact Function.update_of_ne hc ..
  have hrefs : ∀ c, s'.refs c = s.refs c + if c = s.made then 1 else 0 := by
    intro c
    have hmove := refs_move hm c
    rw [hold, hnew, hv] at hmove
    omega
  -- nobody can have a pointer to what did not exist
  have hzero : s.refs s.made = 0 := by
    unfold refs
    rw [hold, zero_add]
    refine Finset.sum_eq_zero fun u _ => ?_
    unfold Call1.counted
    split
    · rfl
    · next a ha => exact if_neg fun hp => lt_irrefl _ (h.ch_lt u a s.made ha hp.1)
  have hfresh : s.made ∉ s.deleted := by
    rw [h.deleted.2, h.freed]
    exact fun hp => lt_irrefl _ hp.1
  refine ⟨fun c => ?_, fun c hc => ?_, hch, fun c hc hlive => ?_, fun c => ?_, ?_⟩
  · by_cases hcc : c = s.made
    · subst hcc
      rw [hself, hrefs, hzero, if_pos rfl]
      rfl
    · rw [hne c hcc, hrefs, if_neg hcc]
      exact h.refno c
  · obtain rfl := Option.some.inj (hchan.symm.trans hc)
    omega
  · by_cases hcc : c = s.made
    · rw [hcc]
      exact hchan
    · rw [hne c hcc] at hlive
      have hchan' := h.alive c (by omega) hlive
      cases hlive.symm.trans (hdead c hchan')
  · by_cases hcc : c = s.made
    · subst hcc
      rw [hself]
      simp
    · rw [hne c hcc, h.freed, hmade]
      exact and_congr_left fun _ => ⟨fun hlt => by omega, fun hlt => by omega⟩
  · rw [hdel]
    refine ⟨h.deleted.1, fun c => ?_⟩
    by_cases hcc : c = s.made
    · subst hcc
      rw [hself]
      exact ⟨fun hmem => absurd hmem hfresh, fun hf => absurd hf Bool.false_ne_true⟩
    · rw [hne c hcc]
      exact h.deleted.2 c

end Rpcc

end Yfs.Rpc
