import Yfs.Rpc.ConnRefs
import Mathlib.Algebra.Order.BigOperators.Group.Finset

/-! The life of a client's connections: their reference counts are right in every state, and a
connection is deleted once, when nobody uses it any more. -/
namespace Yfs.Rpc

open Effect
open scoped BigOperators

namespace Rpcc

variable {k : ℕ} {s s' : Rpcc k} {t : Fin k} {a : Call1} {v : Option Call1} {c : ℕ}

theorem chanRef_eq_zero (h : s.inside = some .connect) (c : ℕ) : s.chanRef c = 0 :=
  if_neg fun hc => hc.2 h

theorem chanRef_of_ne (h : s.inside ≠ some .connect) (c : ℕ) :
    s.chanRef c = if s.chan = some c then 1 else 0 := by
  unfold chanRef
  simp only [ne_eq, h, not_false_eq_true, and_true]

theorem chanRef_congr (hchan : s'.chan = s.chan)
    (hin : s'.inside = some .connect ↔ s.inside = some .connect) (c : ℕ) :
    s'.chanRef c = s.chanRef c := by
  unfold chanRef
  simp only [hchan, ne_eq, hin]

theorem inside_of_owner (hown : s.owner = some t) (ha : s.calls t = some a) :
    s.inside = some a.stage := by
  unfold inside
  rw [hown, Option.bind_some, ha, Option.map_some]

theorem inside_of_free (hown : s.owner = none) : s.inside = none := by
  unfold inside
  rw [hown, Option.bind_none]

theorem Moved.inside_eq (hm : s.Moved s' t v) (hsame : s'.owner = s.owner)
    (hout : s.owner ≠ some t) : s'.inside = s.inside := by
  unfold inside
  rw [hsame, hm.calls]
  cases hown : s.owner with
  | none => rfl
  | some u =>
    have hut : u ≠ t := by
      rintro rfl
      exact hout hown
    rw [Option.bind_some, Option.bind_some, Function.update_of_ne hut]

theorem Moved.self_eq (hm : s.Moved s' t v) : s'.calls t = v := by
  rw [hm.calls, Function.update_self]

theorem ended_move (hlife : s.life = .inUse) (hm : s.Moved s' t v) : s'.Ended := by
  have hlife' := hm.life.trans hlife
  refine ⟨fun hne => absurd hlife' hne, fun hc => ?_, fun hg => ?_⟩
  · cases hlife'.symm.trans hc
  · cases hlife'.symm.trans hg

theorem Ended.inUse (h : s.Ended) (ha : s.calls t = some a) : s.life = .inUse := by
  by_contra hne
  cases ha.symm.trans (h.calls hne t)

theorem counted_some {ch : Option ℕ} {stage : CallStage} (h1 : stage ≠ .assign)
    (h2 : stage ≠ .incref) (c : ℕ) :
    Call1.counted c (some ⟨ch, stage⟩) = if ch = some c then 1 else 0 := by
  unfold Call1.counted
  simp only [h1, h2, ne_eq, not_false_eq_true, and_true]

theorem counted_eq_zero {ch : Option ℕ} {stage : CallStage}
    (h : stage = .assign ∨ stage = .incref) (c : ℕ) :
    Call1.counted c (some ⟨ch, stage⟩) = 0 := by
  refine if_neg fun hc => ?_
  obtain h | h := h
  · exact hc.2.1 h
  · exact hc.2.2 h

/-- A thread moves that neither is in `get_refconn` nor enters it. -/
theorem Sound.outside (h : s.Sound) (hlife : s.life = .inUse) (hout : s.owner ≠ some t)
    (hv : ∀ a, v = some a → ¬ a.stage.Inside)
    (hcount : ∀ c, Call1.counted c v = Call1.counted c (s.calls t))
    (hch : ∀ a c, v = some a → a.ch = some c → c < s.made) : (s.setCall t v).Sound := by
  have hm : s.Moved (s.setCall t v) t v := ⟨rfl, fun _ _ => Iff.rfl, rfl⟩
  refine ⟨?_, ?_, ended_move hlife hm⟩
  · refine h.turns.move hm (fun a ha => ⟨?_, Call1.placed_of_not_inside (hv a ha)⟩)
      (fun _ => hout) (Or.inr ⟨rfl, fun _ hd => hd⟩)
    exact ⟨fun hin => absurd hin (hv a ha), fun hown => absurd hown hout⟩
  · refine h.counted.keep rfl rfl rfl (Or.inl rfl) (fun c => ?_)
      (ch_lt_move h.counted hm le_rfl hch)
    have hmove := refs_move hm c
    have hsame : (s.setCall t v).chan = s.chan := rfl
    have hchan : (s.setCall t v).chanRef c = s.chanRef c :=
      chanRef_congr hsame (by rw [hm.inside_eq rfl hout]) c
    rw [hcount, hchan] at hmove
    omega

/-- A thread goes on in `get_refconn` without a change to the connections. -/
theorem Sound.within (h : s.Sound) (ha : s.calls t = some a) (hown : s.owner = some t)
    {a' : Call1} (hin : a'.stage.Inside) (hplaced : a'.Placed s.chan s.conn)
    (hold : a.stage ≠ .connect) (hnew : a'.stage = .connect → s.chan = none)
    (hcount : ∀ c, Call1.counted c (some a') = Call1.counted c (s.calls t))
    (hch : ∀ c, a'.ch = some c → c < s.made) : (s.setCall t (some a')).Sound := by
  have hm : s.Moved (s.setCall t (some a')) t (some a') := ⟨rfl, fun _ _ => Iff.rfl, rfl⟩
  refine ⟨?_, ?_, ended_move (h.ended.inUse ha) hm⟩
  · exact h.turns.within hm hown hown hin hplaced
  · refine h.counted.keep rfl rfl rfl (Or.inl rfl) (fun c => ?_)
      (ch_lt_move h.counted hm le_rfl fun b c hb hc => ?_)
    · have hmove := refs_move hm c
      have hchan : (s.setCall t (some a')).chanRef c = s.chanRef c := by
        by_cases hconn : a'.stage = .connect
        · unfold chanRef
          simp [setCall, hnew hconn]
        · have hin' : (s.setCall t (some a')).inside = some a'.stage :=
            inside_of_owner hown hm.self_eq
          have hsame : (s.setCall t (some a')).chan = s.chan := rfl
          refine chanRef_congr hsame ?_ c
          rw [hin', inside_of_owner hown ha]
          simp [hconn, hold]
      rw [hcount, hchan] at hmove
      omega
    · obtain rfl := Option.some.inj hb
      exact hch c hc

/-- A thread takes `chan_m_`, or lets it go. -/
theorem Sound.turn (h : s.Sound) (ha : s.calls t = some a) {o : Option (Fin k)} {a' : Call1}
    (howner : s.owner = none ∧ o = some t ∨ s.owner = some t ∧ o = none)
    (hin : a'.stage.Inside ↔ o = some t) (hplaced : a'.Placed s.chan s.conn)
    (hold : a.stage ≠ .connect) (hnew : a'.stage ≠ .connect)
    (hcount : ∀ c, Call1.counted c (some a') = Call1.counted c (s.calls t))
    (hch : ∀ c, a'.ch = some c → c < s.made) :
    ((s.setCall t (some a')).setOwner o).Sound := by
  have hm : s.Moved ((s.setCall t (some a')).setOwner o) t (some a') := by
    refine ⟨rfl, fun u hu => ?_, rfl⟩
    have hut : some t ≠ some u := fun heq => hu (Option.some.inj heq).symm
    obtain ⟨hs, ho⟩ | ⟨hs, ho⟩ := howner
    · simp [setOwner, hs, ho, Ne.symm hu]
    · simp [setOwner, hs, ho, Ne.symm hu]
  have hs : s.inside ≠ some .connect := by
    obtain ⟨hown, -⟩ | ⟨hown, -⟩ := howner
    · rw [inside_of_free hown]
      simp
    · rw [inside_of_owner hown ha]
      simpa using hold
  have hs' : ((s.setCall t (some a')).setOwner o).inside ≠ some .connect := by
    obtain ⟨-, rfl⟩ | ⟨-, rfl⟩ := howner
    · rw [inside_of_owner rfl hm.self_eq]
      simpa using hnew
    · rw [inside_of_free rfl]
      simp
  refine ⟨?_, ?_, ended_move (h.ended.inUse ha) hm⟩
  · refine h.turns.move hm (fun b hb => ?_) (fun hn => by cases hn)
      (Or.inr ⟨rfl, fun _ hd => hd⟩)
    obtain rfl := Option.some.inj hb
    exact ⟨hin, hplaced⟩
  · refine h.counted.keep rfl rfl rfl (Or.inl rfl) (fun c => ?_)
      (ch_lt_move h.counted hm le_rfl fun b c hb hc => ?_)
    · have hmove := refs_move hm c
      rw [hcount, chanRef_of_ne hs, chanRef_of_ne hs'] at hmove
      exact Nat.add_right_cancel hmove
    · obtain rfl := Option.some.inj hb
      exact hch c hc

/-- A dead `chan_` is given back by the thread that is going to replace it. -/
theorem Sound.drop (h : s.Sound) {ch : Option ℕ} (ha : s.calls t = some ⟨ch, .drop⟩)
    (hc : s.chan = some c) : ((s.decref c).setCall t (some ⟨ch, .connect⟩)).Sound := by
  have hown := (h.turns.inside t _ ha).mp trivial
  have hm : s.Moved ((s.decref c).setCall t (some ⟨ch, .connect⟩)) t (some ⟨ch, .connect⟩) :=
    ⟨rfl, fun _ _ => Iff.rfl, rfl⟩
  have hdead : (s.conn c).dead = true := by
    obtain ⟨d, hd, hdead⟩ := h.turns.placed t _ ha
    obtain rfl := Option.some.inj (hc.symm.trans hd)
    exact hdead
  have hdead' : ∀ d, ((s.decref c).conn d).dead = (s.conn d).dead :=
    field_update Peer.dead s.conn rfl
  have hin : s.inside ≠ some .connect := by
    rw [inside_of_owner hown ha]
    simp
  have hin' : ((s.decref c).setCall t (some ⟨ch, .connect⟩)).inside = some .connect :=
    inside_of_owner (a := ⟨ch, .connect⟩) hown hm.self_eq
  have hrefs : ∀ d, ((s.decref c).setCall t (some ⟨ch, .connect⟩)).refs d +
      (if d = c then 1 else 0) = s.refs d := by
    intro d
    have hmove := refs_move hm d
    rw [ha, counted_some (by simp) (by simp), counted_some (by simp) (by simp),
      chanRef_of_ne hin, chanRef_eq_zero hin', hc] at hmove
    simp only [Option.some.injEq, eq_comm (a := c)] at hmove
    omega
  refine ⟨?_, ?_, ended_move (h.ended.inUse ha) hm⟩
  · refine h.turns.within hm hown hown trivial fun d hd => ?_
    obtain rfl := Option.some.inj (hc.symm.trans hd)
    exact (hdead' c).trans hdead
  · exact h.counted.giveBack rfl rfl rfl (Or.inl rfl) hrefs (h.counted.chan_lt c hc)
      (fun _ => hdead) (ch_lt_same h.counted ha hm le_rfl)

theorem Sound.connectFails (h : s.Sound) {ch : Option ℕ} (ha : s.calls t = some ⟨ch, .connect⟩) :
    ({ s.setCall t (some ⟨ch, .take⟩) with chan := none } : Rpcc k).Sound := by
  have hown := (h.turns.inside t _ ha).mp trivial
  have hm : s.Moved { s.setCall t (some ⟨ch, .take⟩) with chan := none } t (some ⟨ch, .take⟩) :=
    ⟨rfl, fun _ _ => Iff.rfl, rfl⟩
  refine ⟨?_, ?_, ended_move (h.ended.inUse ha) hm⟩
  · exact h.turns.within hm hown hown trivial trivial
  · refine h.counted.keep rfl rfl rfl (Or.inr ⟨rfl, h.turns.placed t _ ha⟩) (fun d => ?_)
      (ch_lt_same h.counted ha hm le_rfl)
    have hmove := refs_move hm d
    have hnull : ({ s.setCall t (some ⟨ch, .take⟩) with chan := none } : Rpcc k).chanRef d = 0 :=
      if_neg fun hp => by cases hp.1
    rw [ha, counted_some (by simp) (by simp), counted_some (by simp) (by simp),
      chanRef_eq_zero (inside_of_owner hown ha), hnull] at hmove
    exact Nat.add_right_cancel hmove

theorem Sound.connected (h : s.Sound) {ch : Option ℕ} (ha : s.calls t = some ⟨ch, .connect⟩)
    (fd time : ℕ) : ((s.connect fd time).setCall t (some ⟨ch, .take⟩)).Sound := by
  have hown := (h.turns.inside t _ ha).mp trivial
  have hm : s.Moved ((s.connect fd time).setCall t (some ⟨ch, .take⟩)) t (some ⟨ch, .take⟩) :=
    ⟨rfl, fun _ _ => Iff.rfl, rfl⟩
  have hin' : ((s.connect fd time).setCall t (some ⟨ch, .take⟩)).inside = some .take :=
    inside_of_owner (a := ⟨ch, .take⟩) hown hm.self_eq
  refine ⟨?_, ?_, ended_move (h.ended.inUse ha) hm⟩
  · exact h.turns.within hm hown hown trivial trivial
  · refine h.counted.connect hm rfl rfl rfl rfl (h.turns.placed t _ ha)
      (chanRef_eq_zero (inside_of_owner hown ha)) (fun d => ?_) (fun d => ?_)
      (ch_lt_same h.counted ha hm (Nat.le_succ _))
    · rw [chanRef_of_ne (by simp [hin'])]
      exact if_congr (by simp [setCall, Rpcc.connect, eq_comm]) rfl rfl
    · rw [ha, counted_some (by simp) (by simp), counted_some (by simp) (by simp)]

/-- A connection that is not `chan_`, or not any more, is dead. -/
theorem Sound.dead_of_chanRef (h : s.Sound) (hlt : c < s.made) (hc : s.chanRef c = 0) :
    (s.conn c).dead = true := by
  by_contra hlive
  have hchan := h.counted.alive c hlt (Bool.eq_false_iff.mpr hlive)
  unfold chanRef at hc
  split_ifs at hc with hp
  rw [not_and_not_right] at hp
  obtain ⟨u, hu, hst⟩ := Option.bind_eq_some_iff.mp (hp hchan)
  obtain ⟨⟨ch, stage⟩, ha, rfl⟩ := Option.map_eq_some_iff.mp hst
  exact hlive (h.turns.placed u _ ha c hchan)

/-- A call gives back the reference of its `ch`. -/
theorem Sound.giveBack (h : s.Sound) (ha : s.calls t = some a) (hc : a.ch = some c)
    (hm : s.Moved ((s.decref c).setCall t v) t v)
    (hturns : ((s.decref c).setCall t v).Turns)
    (hin : ((s.decref c).setCall t v).inside = some .connect ↔ s.inside = some .connect)
    (hold : ∀ d, Call1.counted d (some a) = if a.ch = some d then 1 else 0)
    (hnew : ∀ d, Call1.counted d v = 0)
    (hch : ∀ u b d, ((s.decref c).setCall t v).calls u = some b → b.ch = some d → d < s.made) :
    ((s.decref c).setCall t v).Sound := by
  have hsame : ((s.decref c).setCall t v).chan = s.chan := rfl
  have hrefs : ∀ d, ((s.decref c).setCall t v).refs d + (if d = c then 1 else 0) = s.refs d := by
    intro d
    have hmove := refs_move hm d
    rw [ha, hold, hnew, hc, chanRef_congr hsame hin] at hmove
    simp only [Option.some.injEq, eq_comm (a := c)] at hmove
    omega
  have hlt := h.counted.ch_lt t a c ha hc
  refine ⟨hturns, ?_, ended_move (h.ended.inUse ha) hm⟩
  refine h.counted.giveBack rfl rfl rfl (Or.inl rfl) hrefs hlt (fun hzero => ?_) hch
  refine h.dead_of_chanRef hlt ?_
  rw [← chanRef_congr hsame hin]
  exact Nat.eq_zero_of_add_eq_zero_right hzero

theorem Sound.release (h : s.Sound) (ha : s.calls t = some ⟨some c, .release⟩) :
    ((s.decref c).setCall t (some ⟨some c, .assign⟩)).Sound := by
  have hown := (h.turns.inside t _ ha).mp trivial
  have hm : s.Moved ((s.decref c).setCall t (some ⟨some c, .assign⟩)) t
      (some ⟨some c, .assign⟩) := ⟨rfl, fun _ _ => Iff.rfl, rfl⟩
  have hin' : ((s.decref c).setCall t (some ⟨some c, .assign⟩)).inside = some .assign :=
    inside_of_owner (a := ⟨some c, .assign⟩) hown hm.self_eq
  have hturns := h.turns.within hm hown hown trivial (h.turns.placed t _ ha).2
  refine h.giveBack ha rfl hm hturns ?_ (counted_some (by simp) (by simp))
    (counted_eq_zero (Or.inl rfl)) (ch_lt_same h.counted ha hm le_rfl)
  rw [hin', inside_of_owner hown ha]
  simp

theorem Sound.leave (h : s.Sound) (ha : s.calls t = some ⟨some c, .leave⟩) :
    ((s.decref c).setCall t none).Sound := by
  have hout : s.owner ≠ some t := fun hown => (h.turns.inside t _ ha).mpr hown
  have hm : s.Moved ((s.decref c).setCall t none) t none := ⟨rfl, fun _ _ => Iff.rfl, rfl⟩
  refine h.giveBack ha rfl hm ?_ (by rw [hm.inside_eq rfl hout])
    (counted_some (by simp) (by simp)) (fun _ => rfl)
    (ch_lt_move h.counted hm le_rfl fun b d hb => by cases hb)
  have hdead : ∀ d, ((s.decref c).conn d).dead = (s.conn d).dead :=
    field_update Peer.dead s.conn rfl
  exact h.turns.move hm (fun b hb => by cases hb) (fun _ => hout)
    (Or.inr ⟨rfl, fun d hd => (hdead d).trans hd⟩)

theorem Sound.incref (h : s.Sound) (ha : s.calls t = some ⟨some c, .incref⟩) :
    (((s.incref c).setCall t (some ⟨some c, .send⟩)).setOwner none).Sound := by
  have hown := (h.turns.inside t _ ha).mp trivial
  have hm : s.Moved (((s.incref c).setCall t (some ⟨some c, .send⟩)).setOwner none) t
      (some ⟨some c, .send⟩) := by
    refine ⟨rfl, fun u hu => ?_, rfl⟩
    have hut : some t ≠ some u := fun heq => hu (Option.some.inj heq).symm
    rw [hown]
    exact ⟨fun hf => (Option.some_ne_none u hf.symm).elim, fun heq => absurd heq hut⟩
  have hin : s.inside ≠ some .connect := by
    rw [inside_of_owner hown ha]
    simp
  have hin' : (((s.incref c).setCall t (some ⟨some c, .send⟩)).setOwner none).inside = none :=
    inside_of_free rfl
  have hplaced := h.turns.placed t _ ha
  have hchan : s.chan = some c := hplaced.1.symm
  refine ⟨?_, ?_, ended_move (h.ended.inUse ha) hm⟩
  · refine h.turns.move hm (fun b hb => ?_) (fun hn => by cases hn) (Or.inl hown)
    obtain rfl := Option.some.inj hb
    exact ⟨⟨False.elim, fun hf => (Option.some_ne_none t hf.symm).elim⟩, trivial⟩
  · refine h.counted.acquire rfl rfl rfl (Or.inl rfl) (fun d => ?_) ?_
      (ch_lt_same h.counted ha hm le_rfl)
    · have hmove := refs_move hm d
      have hsame : (((s.incref c).setCall t (some ⟨some c, .send⟩)).setOwner none).chan =
          s.chan := rfl
      rw [ha, counted_eq_zero (Or.inr rfl), counted_some (by simp) (by simp),
        chanRef_congr hsame (by simp [hin, hin'])] at hmove
      simp only [Option.some.injEq, eq_comm (a := c)] at hmove
      omega
    · unfold refs
      rw [chanRef_of_ne hin, if_pos hchan]
      omega

/-- A call goes on outside of `get_refconn`. -/
theorem Sound.goOutside (h : s.Sound) {ch : Option ℕ} {stage stage' : CallStage}
    (ha : s.calls t = some ⟨ch, stage⟩) (hin : ¬ stage.Inside) (hin' : ¬ stage'.Inside) :
    (s.setCall t (some ⟨ch, stage'⟩)).Sound := by
  refine h.outside (h.ended.inUse ha) (fun hown => hin ((h.turns.inside t _ ha).mpr hown))
    (fun a' ha' => ?_) (fun d => ?_) fun a' d ha' hd => ?_
  · obtain rfl := Option.some.inj ha'
    exact hin'
  · rw [ha, counted_some, counted_some]
    all_goals
      rintro rfl
      first | exact hin trivial | exact hin' trivial
  · obtain rfl := Option.some.inj ha'
    exact h.counted.ch_lt t _ d ha hd

/-- A call goes on in `get_refconn` with the same `ch`. -/
theorem Sound.goInside (h : s.Sound) {ch : Option ℕ} {stage stage' : CallStage}
    (ha : s.calls t = some ⟨ch, stage⟩) (hin : stage.Inside) (hin' : stage'.Inside)
    (hold : stage ≠ .assign ∧ stage ≠ .incref ∧ stage ≠ .connect)
    (hnew : stage' ≠ .assign ∧ stage' ≠ .incref)
    (hplaced : (⟨ch, stage'⟩ : Call1).Placed s.chan s.conn)
    (hchan : stage' = .connect → s.chan = none) :
    (s.setCall t (some ⟨ch, stage'⟩)).Sound := by
  refine h.within ha ((h.turns.inside t _ ha).mp hin) hin' hplaced hold.2.2 hchan (fun d => ?_)
    fun d hd => h.counted.ch_lt t _ d ha hd
  rw [ha, counted_some hold.1 hold.2.1, counted_some hnew.1 hnew.2]

theorem Sound.go {b : Bool} (h : s.Sound) (ha : s.calls t = some a)
    (hs : s.go t a b = some s') : s'.Sound := by
  obtain ⟨ch, stage⟩ := a
  have hch : ∀ c, ch = some c → c < s.made := fun c hc => h.counted.ch_lt t _ c ha hc
  unfold Rpcc.go at hs
  cases stage with
  | transmit =>
    simp only [Option.ite_none_right_eq_some, Option.some.injEq] at hs
    obtain ⟨hown, rfl⟩ := hs
    refine h.turn ha (Or.inl ⟨hown, rfl⟩) ⟨fun _ => rfl, fun _ => trivial⟩ trivial (by simp)
      (by simp) (fun d => ?_) hch
    rw [ha, counted_some (by simp) (by simp), counted_some (by simp) (by simp)]
  | check =>
    cases hchan : s.chan with
    | none =>
      simp only [hchan, isLost, if_true, Option.some.injEq] at hs
      obtain rfl := hs
      refine h.goInside ha trivial trivial (by simp) (by simp) (fun c hc => ?_) fun _ => hchan
      cases hchan.symm.trans hc
    | some c =>
      cases hdead : (s.conn c).dead with
      | true =>
        simp only [hchan, isLost, hdead, if_true, reduceCtorEq, if_false, Option.some.injEq] at hs
        obtain rfl := hs
        exact h.goInside ha trivial trivial (by simp) (by simp) ⟨c, hchan, hdead⟩ (by simp)
      | false =>
        simp only [hchan, isLost, hdead, Bool.false_eq_true, if_false, Option.some.injEq] at hs
        obtain rfl := hs
        exact h.goInside ha trivial trivial (by simp) (by simp) trivial (by simp)
  | drop =>
    obtain ⟨c, hc, rfl⟩ := Option.map_eq_some_iff.mp hs
    exact h.drop ha hc
  | connect =>
    obtain rfl := Option.some.inj hs
    exact h.connectFails ha
  | take =>
    dsimp only at hs
    split_ifs at hs with hchan hnull
    · obtain rfl := Option.some.inj hs
      have hown := (h.turns.inside t _ ha).mp trivial
      refine h.turn ha (Or.inr ⟨hown, rfl⟩) ⟨False.elim, fun hf => ?_⟩ trivial (by simp) (by simp)
        (fun d => ?_) hch
      · cases hf
      · rw [ha, counted_some (by simp) (by simp), counted_some (by simp) (by simp)]
    · obtain rfl := Option.some.inj hs
      have hown := (h.turns.inside t _ ha).mp trivial
      refine h.within ha hown trivial hchan (by simp) (by simp) (fun d => ?_) hch
      rw [ha, counted_eq_zero (Or.inl rfl), counted_some (by simp) (by simp)]
      exact (if_neg (by simp [hnull])).symm
    · obtain rfl := Option.some.inj hs
      exact h.goInside ha trivial trivial (by simp) (by simp) ⟨hnull, hchan⟩ (by simp)
  | release =>
    obtain ⟨c, hc, rfl⟩ := Option.map_eq_some_iff.mp hs
    obtain rfl : ch = some c := hc
    exact h.release ha
  | assign =>
    have hown := (h.turns.inside t _ ha).mp trivial
    obtain rfl := Option.some.inj hs
    refine h.within ha hown trivial ⟨rfl, h.turns.placed t _ ha⟩ (by simp) (by simp) (fun d => ?_)
      h.counted.chan_lt
    rw [ha, counted_eq_zero (Or.inl rfl), counted_eq_zero (Or.inr rfl)]
  | incref =>
    obtain ⟨c, hc, rfl⟩ := Option.map_eq_some_iff.mp hs
    obtain rfl : ch = some c := hc
    exact h.incref ha
  | send =>
    obtain rfl := Option.some.inj hs
    exact h.goOutside ha id id
  | deadline =>
    obtain rfl := Option.some.inj hs
    refine h.goOutside ha id ?_
    split_ifs <;> exact id
  | wait =>
    obtain rfl := Option.some.inj hs
    refine h.goOutside ha id ?_
    split_ifs <;> exact id
  | probe =>
    obtain rfl := Option.some.inj hs
    refine h.goOutside ha id ?_
    split_ifs <;> exact id
  | leave =>
    obtain rfl := Option.some.inj hs
    cases ch with
    | some c => exact h.leave ha
    | none =>
      refine h.outside (h.ended.inUse ha) (fun hown => (h.turns.inside t _ ha).mpr hown)
        (fun a' ha' => ?_) (fun d => ?_) fun a' d ha' => ?_
      · cases ha'
      · rw [ha]
        rfl
      · cases ha'

theorem dead_die_self (s : Rpcc k) (c : ℕ) : ((s.die c).conn c).dead = true := by
  unfold Rpcc.die
  simp [Peer.die]

theorem dead_die (s : Rpcc k) (c : ℕ) {d : ℕ} (hd : (s.conn d).dead = true) :
    ((s.die c).conn d).dead = true := by
  by_cases hdc : d = c
  · subst hdc
    exact dead_die_self s d
  · unfold Rpcc.die
    simpa [hdc] using hd

theorem Turns.die (h : s.Turns) (c : ℕ) {life : Life} :
    ({ s.die c with life := life } : Rpcc k).Turns := by
  exact ⟨h.inside, h.owner, fun t a ha => (h.placed t a ha).mono fun d hd => dead_die s c hd⟩

theorem Sound.die (h : s.Sound) (c : ℕ) : (s.die c).Sound := by
  refine ⟨h.turns.die c, h.counted.die c, h.ended.calls, fun hl => ?_, h.ended.gone⟩
  obtain ⟨d, hd, hdead⟩ := h.ended.closing hl
  exact ⟨d, hd, dead_die s c hdead⟩

theorem Sound.start (h : s.Sound) (hlife : s.life = .inUse) (ht : s.calls t = none) :
    (s.setCall t (some ⟨none, .transmit⟩)).Sound := by
  refine h.outside hlife (fun hown => h.turns.owner t hown ht) (fun a ha => ?_) (fun d => ?_)
    fun a d ha hd => ?_
  · obtain rfl := Option.some.inj ha
    exact id
  · rw [ht]
    rfl
  · obtain rfl := Option.some.inj ha
    cases hd

/-- Without calls `chan_` has the only reference. -/
theorem refs_of_quiet (hcalls : ∀ t, s.calls t = none) (hown : s.owner = none) (c : ℕ) :
    s.refs c = if s.chan = some c then 1 else 0 := by
  unfold refs
  rw [chanRef_of_ne (by rw [inside_of_free hown]; simp)]
  simp [hcalls, Call1.counted]

theorem Sound.owner_eq_none (h : s.Sound) (hcalls : ∀ t, s.calls t = none) : s.owner = none := by
  rw [Option.eq_none_iff_forall_not_mem]
  exact fun t ht => h.turns.owner t ht (hcalls t)

theorem Sound.finish (h : s.Sound) (hlife : s.life = .closing) (hc : s.chan = some c) :
    ({ s.decref c with
      chan := none
      life := .gone } : Rpcc k).Sound := by
  have hcalls := h.ended.calls (by simp [hlife])
  have hown := h.owner_eq_none hcalls
  obtain ⟨d, hd, hdead⟩ := h.ended.closing hlife
  obtain rfl := Option.some.inj (hc.symm.trans hd)
  refine ⟨⟨fun t a ha => ?_, h.turns.owner, fun t a ha => ?_⟩, ?_, fun _ => hcalls,
    fun hf => (by cases hf), fun _ => rfl⟩
  · cases ha.symm.trans (hcalls t)
  · cases ha.symm.trans (hcalls t)
  · refine h.counted.giveBack rfl rfl rfl (Or.inr ⟨rfl, fun d hd' => ?_⟩) (fun d => ?_)
      (h.counted.chan_lt c hc) (fun _ => hdead) fun u a d hu => ?_
    · obtain rfl := Option.some.inj (hc.symm.trans hd')
      exact hdead
    · rw [refs_of_quiet hcalls hown, refs_of_quiet (by exact hcalls) (by exact hown), hc]
      simp only [Option.some.injEq, eq_comm (a := c), reduceCtorEq, if_false, zero_add]
    · cases hu.symm.trans (hcalls u)

theorem Sound.init (k : ℕ) (retrans : Bool) : (Rpcc.init k retrans).Sound := by
  refine ⟨⟨fun t a ha => (by cases ha), fun t ht => (by cases ht), fun t a ha => (by cases ha)⟩,
    ⟨fun c => ?_, fun c hc => (by cases hc), fun t a c ha => (by cases ha),
      fun c hc => absurd hc (Nat.not_lt_zero c), fun c => ?_, List.nodup_nil, fun c => ?_⟩,
    fun hne => absurd rfl hne, fun hf => (by cases hf), fun hf => (by cases hf)⟩
  · rw [refs_of_quiet (fun _ => rfl) rfl]
    rfl
  · exact ⟨fun hf => (by cases hf), fun hc => absurd hc.1 (Nat.not_lt_zero c)⟩
  · exact ⟨fun hm => (by cases hm), fun hf => (by cases hf)⟩

theorem Sound.step {e : RpccEvent k} (h : s.Sound) (hs : s.step e = some s') : s'.Sound := by
  cases e with
  | start t =>
    simp only [Rpcc.step, Option.ite_none_right_eq_some, Option.some.injEq] at hs
    obtain ⟨⟨hlife, ht⟩, rfl⟩ := hs
    exact h.start hlife ht
  | go t b =>
    obtain ⟨a, ha, hs⟩ := Option.bind_eq_some_iff.mp hs
    exact h.go ha hs
  | connected t fd time =>
    obtain ⟨⟨ch, stage⟩, ha, hs⟩ := Option.bind_eq_some_iff.mp hs
    simp only [Option.ite_none_right_eq_some, Option.some.injEq] at hs
    obtain ⟨rfl, rfl⟩ := hs
    exact h.connected ha fd time
  | die c =>
    simp only [Rpcc.step, Option.ite_none_right_eq_some, Option.some.injEq] at hs
    obtain ⟨-, rfl⟩ := hs
    exact h.die c
  | setReachable b =>
    obtain rfl := Option.some.inj hs
    exact ⟨⟨h.turns.inside, h.turns.owner, h.turns.placed⟩,
      ⟨h.counted.refno, h.counted.chan_lt, h.counted.ch_lt, h.counted.alive, h.counted.freed,
        h.counted.deleted⟩, h.ended.calls, h.ended.closing, h.ended.gone⟩
  | destroy =>
    simp only [Rpcc.step, Option.ite_none_right_eq_some] at hs
    obtain ⟨⟨hlife, hcalls⟩, hs⟩ := hs
    split at hs
    · next hchan =>
      obtain rfl := Option.some.inj hs
      exact ⟨⟨h.turns.inside, h.turns.owner, h.turns.placed⟩,
        ⟨h.counted.refno, h.counted.chan_lt, h.counted.ch_lt, h.counted.alive, h.counted.freed,
          h.counted.deleted⟩, fun _ => hcalls, fun hf => (by cases hf), fun _ => hchan⟩
    · next c hchan =>
      obtain rfl := Option.some.inj hs
      exact ⟨h.turns.die c, h.counted.die c, fun _ => hcalls,
        fun _ => ⟨c, hchan, dead_die_self s c⟩, fun hf => (by cases hf)⟩
  | finish =>
    simp only [Rpcc.step, Option.ite_none_right_eq_some] at hs
    obtain ⟨hlife, hs⟩ := hs
    obtain ⟨c, hc, rfl⟩ := Option.map_eq_some_iff.mp hs
    exact h.finish hlife hc

theorem refs_pos_of_chan (hin : s.inside ≠ some .connect) (hc : s.chan = some c) :
    0 < s.refs c := by
  unfold refs
  rw [chanRef_of_ne hin, if_pos hc]
  omega

theorem refs_pos_of_call (ha : s.calls t = some a) (hc : Call1.counted c (some a) = 1) :
    0 < s.refs c := by
  have hle := Finset.single_le_sum (f := fun u => Call1.counted c (s.calls u))
    (fun u _ => Nat.zero_le _) (Finset.mem_univ t)
  rw [ha, hc] at hle
  unfold refs
  omega

/-- What a call is going to use has a reference. -/
theorem Sound.refs_pos_of_uses (h : s.Sound) (ha : s.calls t = some a) (hc : c ∈ s.uses a) :
    0 < s.refs c := by
  obtain ⟨ch, stage⟩ := a
  have hchan : stage.Inside → stage ≠ .connect → s.chan = some c → 0 < s.refs c := by
    intro hin hne hchan
    refine refs_pos_of_chan ?_ hchan
    rw [inside_of_owner ((h.turns.inside t _ ha).mp hin) ha]
    simpa using hne
  have hcall : stage ≠ .assign → stage ≠ .incref → ch = some c → 0 < s.refs c := by
    intro h1 h2 hch
    refine refs_pos_of_call ha ?_
    rw [counted_some h1 h2, if_pos hch]
  unfold uses at hc
  cases stage with
  | check => exact hchan trivial (by simp) (Option.mem_toList.mp hc)
  | drop => exact hchan trivial (by simp) (Option.mem_toList.mp hc)
  | release => exact hcall (by simp) (by simp) (Option.mem_toList.mp hc)
  | leave => exact hcall (by simp) (by simp) (Option.mem_toList.mp hc)
  | incref =>
    have hplaced := (h.turns.placed t _ ha).1
    exact hchan trivial (by simp) (hplaced.symm.trans (Option.mem_toList.mp hc))
  | send =>
    dsimp only at hc
    split_ifs at hc
    · exact hcall (by simp) (by simp) (Option.mem_toList.mp hc)
    · cases hc
  | probe =>
    dsimp only at hc
    split_ifs at hc
    · exact hcall (by simp) (by simp) (Option.mem_toList.mp hc)
    · cases hc
  | _ => cases hc

/-- What a step is going to use has a reference. -/
theorem Sound.refs_pos_of_touches {e : RpccEvent k} (h : s.Sound) (hs : s.step e = some s')
    (hc : c ∈ s.touches e) : 0 < s.refs c := by
  have hquiet : (∀ t, s.calls t = none) → s.chan = some c → 0 < s.refs c := by
    intro hcalls hchan
    rw [refs_of_quiet hcalls (h.owner_eq_none hcalls), if_pos hchan]
    exact Nat.one_pos
  cases e with
  | go t b =>
    obtain ⟨a, ha, -⟩ := Option.bind_eq_some_iff.mp hs
    simp only [touches, ha, Option.elim_some] at hc
    exact h.refs_pos_of_uses ha hc
  | destroy =>
    simp only [Rpcc.step, Option.ite_none_right_eq_some] at hs
    exact hquiet hs.1.2 (Option.mem_toList.mp hc)
  | finish =>
    simp only [Rpcc.step, Option.ite_none_right_eq_some] at hs
    exact hquiet (h.ended.calls (by simp [hs.1])) (Option.mem_toList.mp hc)
  | _ => cases hc

/-- A call uses no null pointer: it goes on, or it waits for `chan_m_`. -/
theorem Sound.go_isSome (h : s.Sound) (ha : s.calls t = some a) (b : Bool) :
    (s.go t a b).isSome ∨ a.stage = .transmit ∧ s.owner ≠ none := by
  obtain ⟨ch, stage⟩ := a
  have hplaced := h.turns.placed t _ ha
  unfold Rpcc.go
  cases stage with
  | transmit =>
    by_cases hown : s.owner = none
    · simp [hown]
    · exact Or.inr ⟨rfl, hown⟩
  | check =>
    dsimp only
    split_ifs <;> exact Or.inl rfl
  | drop =>
    obtain ⟨c, hc, -⟩ := hplaced
    simp [hc]
  | take =>
    dsimp only
    split_ifs <;> exact Or.inl rfl
  | release => simpa [Option.isSome_iff_ne_none] using hplaced.1
  | incref =>
    obtain ⟨heq, hne⟩ := hplaced
    rw [← heq] at hne
    simpa [Option.isSome_iff_ne_none] using hne
  | _ => exact Or.inl rfl

/-- Outside of `get_refconn` the `ch` of a call counts. -/
theorem counted_of_outside (v : Option Call1) (hv : ∀ a, v = some a → ¬ a.stage.Inside) (c : ℕ) :
    Call1.counted c v = if v.bind Call1.ch = some c then 1 else 0 := by
  cases v with
  | none => rfl
  | some a =>
    obtain ⟨ch, stage⟩ := a
    refine counted_some ?_ ?_ c
    · rintro rfl
      exact hv _ rfl trivial
    · rintro rfl
      exact hv _ rfl trivial

/-- While nobody has `chan_m_`, each pointer is a reference. -/
theorem Sound.refs_of_free (h : s.Sound) (hown : s.owner = none) (c : ℕ) :
    s.refs c = (if s.chan = some c then 1 else 0) + s.users c := by
  unfold refs users tally
  rw [chanRef_of_ne (by rw [inside_of_free hown]; simp)]
  congr 1
  refine Finset.sum_congr rfl fun t _ => counted_of_outside (s.calls t) (fun a ha hin => ?_) c
  cases hown.symm.trans ((h.turns.inside t a ha).mp hin)

theorem Sound.dead_of_refs (h : s.Sound) (hlt : c < s.made) (hc : s.refs c = 0) :
    (s.conn c).dead = true :=
  h.dead_of_chanRef hlt (Nat.eq_zero_of_add_eq_zero_right hc)

theorem Counted.count_deleted (h : s.Counted) (hlt : c < s.made) :
    s.deleted.count c = if (s.conn c).refno = 0 then 1 else 0 := by
  split_ifs with hc
  · exact List.count_eq_one_of_mem h.deleted.1 ((h.deleted.2 c).mpr ((h.freed c).mpr ⟨hlt, hc⟩))
  · rw [List.count_eq_zero, h.deleted.2, h.freed]
    exact fun hf => hc hf.2

end Rpcc

/-- However the calls of a client, the deaths of its connections and its destructor take turns,
`refno_` counts `chan_` and the calls that have the connection, except for the pointers that the
thread in `get_refconn` is about to change. It is zero only for a dead connection, which has then
been deleted once; no step uses a deleted connection or a null pointer, and the destructor leaves no
connection behind. -/
theorem client_connections_counted (k : ℕ) (retrans : Bool) {events : List (RpccEvent k)}
    {s : Rpcc k} (hrun : runs Rpcc.step events (.init k retrans) = some s) :
    (s.owner = none → ∀ c,
      (s.conn c).refno = ((if s.chan = some c then 1 else 0) + s.users c : ℕ)) ∧
    (∀ c, (s.conn c).refno = s.refs c ∧ 0 ≤ (s.conn c).refno) ∧
    (∀ c < s.made, ((s.conn c).refno = 0 → (s.conn c).dead = true) ∧
      s.deleted.count c = if (s.conn c).refno = 0 then 1 else 0) ∧
    (∀ e s', s.step e = some s' → ∀ c ∈ s.touches e, c ∉ s.deleted) ∧
    (∀ t a b, s.calls t = some a →
      (s.go t a b).isSome ∨ a.stage = .transmit ∧ s.owner ≠ none) ∧
    (s.life = .gone → ∀ c < s.made, s.deleted.count c = 1) := by
  have h := runs_invariant Rpcc.step (fun _ _ _ h hs => Rpcc.Sound.step h hs)
    (Rpcc.Sound.init k retrans) hrun
  have hrefno := h.counted.refno
  refine ⟨fun hown c => ?_, fun c => ⟨hrefno c, ?_⟩, fun c hc => ⟨fun hz => ?_, ?_⟩,
    fun e s' hs c hc hdel => ?_, fun t a b ha => h.go_isSome ha b, fun hgone c hc => ?_⟩
  · rw [hrefno, h.refs_of_free hown]
  · rw [hrefno]
    exact Int.natCast_nonneg _
  · refine h.dead_of_refs hc ?_
    rw [hrefno] at hz
    exact Int.natCast_eq_zero.mp hz
  · exact h.counted.count_deleted hc
  · have hlive := h.counted.freed_eq_false (h.refs_pos_of_touches hs hc)
    rw [h.counted.deleted.2, hlive] at hdel
    cases hdel
  · have hcalls := h.ended.calls (by simp [hgone])
    have hzero : (s.conn c).refno = 0 := by
      rw [hrefno, Rpcc.refs_of_quiet hcalls (h.owner_eq_none hcalls), h.ended.gone hgone]
      rfl
    rw [h.counted.count_deleted hc, if_pos hzero]

/-- Two calls share a connection that dies; the one tries again, fails to connect and keeps it to
its end. -/
def lostConnection : List (RpccEvent 2) :=
  [.start 0, .go 0 false, .go 0 false, .connected 0 4 1, .go 0 false, .go 0 false, .go 0 false,
    .go 0 false, .go 0 false, .start 1, .go 1 false, .go 1 false, .go 1 false, .go 1 false,
    .go 1 false, .die 0, .go 0 false, .go 0 false, .go 0 false, .go 0 false, .go 0 false,
    .go 0 false, .go 0 false, .go 0 false, .go 0 true, .go 1 false, .go 1 true, .go 1 false,
    .go 0 false]

theorem client_connections_counted_example :
    ∃ s, runs Rpcc.step lostConnection (.init 2 true) = some s ∧ s.made = 1 ∧ s.chan = none ∧
      s.owner = none ∧ (s.conn 0).refno = s.users 0 ∧ s.deleted.count 0 = 1 := by
  have hrun : ∃ s, runs Rpcc.step lostConnection (.init 2 true) = some s ∧ s.made = 1 ∧
      s.chan = none ∧ s.owner = none ∧ (s.conn 0).refno = 0 := by
    refine ⟨_, rfl, rfl, rfl, rfl, rfl⟩
  obtain ⟨s, hs, hmade, hchan, hown, hzero⟩ := hrun
  obtain ⟨hcount, -, hdel, -⟩ := client_connections_counted 2 true hs
  refine ⟨s, hs, hmade, hchan, hown, ?_, ?_⟩
  · rw [hcount hown 0, hchan]
    simp
  · rw [(hdel 0 (by omega)).2, if_pos hzero]

end Yfs.Rpc
