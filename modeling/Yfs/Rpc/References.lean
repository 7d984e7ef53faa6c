import Yfs.Effect.Tally
import Yfs.Rpc.Progress
import Mathlib.Algebra.BigOperators.Fin
import Mathlib.Algebra.Order.BigOperators.Group.Finset

/-! Who holds a reference to a connection, and that `refno_` counts them. -/
namespace Yfs.Rpc

open Effect

namespace Rpcs

/-- `tcpsconn` holds the connection, in `conns_` or on its way there. -/
def listed (s : Rpcs) (x : ℕ) : ℕ :=
  if s.listener (s.conn x).fd = some x ∨ s.accepted = some x then 1 else 0

/-- Does the pointer lead to the connection? -/
def points (p : Option ℕ) (x : ℕ) : ℕ := if p = some x then 1 else 0

/-- The jobs with the connection: one that `got_pdu` could not hand over, those in the queue, and
those that are being dispatched. -/
def jobs (s : Rpcs) (x : ℕ) : ℕ :=
  (if s.poller = some (x, false) then 1 else 0) + s.queue.countP (fun j => j.conn = x) +
    ∑ i, (s.active i).elim 0 fun d => points d.conn x

/-- The clients for which `conns_` has the connection. -/
def recorded (s : Rpcs) (x : ℕ) : ℕ := s.conns.count fun p => p = some x

def holders (s : Rpcs) (x : ℕ) : ℕ := s.listed x + s.jobs x + s.recorded x

/-- The references that nobody holds. -/
def excess (s : Rpcs) (x : ℕ) : ℤ := (s.conn x).refno - s.holders x

end Rpcs

section Excess

variable {s s' : Rpcs} {c x : ℕ} {i : Worker}

theorem setPeer_conn (s : Rpcs) (c x : ℕ) (p : Peer) :
    (s.setPeer c p).conn x = if c = x then p else s.conn x := by
  unfold Rpcs.setPeer
  dsimp only
  by_cases hx : c = x
  · subst hx
    rw [Function.update_self, if_pos rfl]
  · rw [Function.update_of_ne (Ne.symm hx), if_neg hx]

theorem setPeer_listed {p : Peer} (h : p.fd = (s.conn c).fd) :
    (s.setPeer c p).listed x = s.listed x := by
  have hfd : ((s.setPeer c p).conn x).fd = (s.conn x).fd := by
    rw [setPeer_conn]
    split_ifs with hx
    · rw [h, hx]
    · rfl
  unfold Rpcs.listed
  simp only [hfd]
  rfl

theorem excess_setPeer {p : Peer} (h : p.fd = (s.conn c).fd) :
    (s.setPeer c p).excess x =
      s.excess x + if c = x then p.refno - (s.conn c).refno else 0 := by
  have hl : (s.setPeer c p).listed x = s.listed x := setPeer_listed h
  have hh : (s.setPeer c p).holders x = s.holders x := by
    unfold Rpcs.holders
    rw [hl]
    rfl
  unfold Rpcs.excess
  rw [hh, setPeer_conn]
  split_ifs with hx
  · subst hx
    omega
  · omega

theorem excess_incref : (s.incref c).excess x = s.excess x + if c = x then 1 else 0 := by
  have h := excess_setPeer (s := s) (x := x) (c := c) (p := (s.conn c).incref) rfl
  unfold Rpcs.incref
  rw [h]
  unfold Peer.incref
  dsimp only
  rw [add_sub_cancel_left]

theorem excess_decref (h : s.decref c = some s') :
    s'.excess x = s.excess x - if c = x then 1 else 0 := by
  have hp := excess_setPeer (s := s) (x := x) (c := c) (p := (s.conn c).decref) rfl
  obtain ⟨-, rfl⟩ := decref_eq_some h
  rw [hp]
  unfold Peer.decref
  split_ifs
  · dsimp only
    omega
  · omega

/-- What a dispatch holds, if there is one. -/
def grip (d : Option Dispatch) (x : ℕ) : ℕ := d.elim 0 fun d => Rpcs.points d.conn x

theorem excess_setActive (d : Option Dispatch) :
    (s.setActive i d).excess x = s.excess x + grip (s.active i) x - grip d x := by
  have hsum := sum_update (fun d => grip d x) s.active i d
  unfold Rpcs.excess Rpcs.holders Rpcs.jobs Rpcs.setActive
  dsimp only
  change _ - ((Rpcs.listed s x + (_ + _ + ∑ j, grip (Function.update s.active i d j) x) +
    Rpcs.recorded s x : ℕ) : ℤ) = _ - ((Rpcs.listed s x + (_ + _ + ∑ j, grip (s.active j) x) +
    Rpcs.recorded s x : ℕ) : ℤ) + _ - _
  generalize ∑ j, grip (Function.update s.active i d j) x = m at hsum ⊢
  generalize ∑ j, grip (s.active j) x = n at hsum ⊢
  push_cast
  omega

theorem excess_assign (n : UInt32) (v : Option ℕ) :
    ({ s with conns := s.conns.assign n v } : Rpcs).excess x =
      s.excess x + Rpcs.points (s.conns.find n).join x - Rpcs.points v x := by
  have hcount := s.conns.count_assign (fun p => p = some x) n v
  have hold : (s.conns.find n).elim 0 (fun w => (decide (w = some x)).toNat) =
      Rpcs.points (s.conns.find n).join x := by
    cases s.conns.find n with
    | none => rfl
    | some w =>
      change (decide (w = some x)).toNat = if w = some x then 1 else 0
      by_cases h : w = some x <;> simp [h]
  have hnew : (decide (v = some x)).toNat = Rpcs.points v x := by
    unfold Rpcs.points
    by_cases h : v = some x <;> simp [h]
  rw [hold, hnew] at hcount
  unfold Rpcs.excess Rpcs.holders
  change _ - ((Rpcs.listed s x + Rpcs.jobs s x + (s.conns.assign n v).count _ : ℕ) : ℤ) =
    _ - ((Rpcs.listed s x + Rpcs.jobs s x + s.conns.count _ : ℕ) : ℤ) + _ - _
  push_cast
  omega

end Excess

/-- The connections themselves: what has not been made or has been deleted has no reference, and the
listener finds each under its own descriptor. -/
structure Shape (conn : ℕ → Peer) (made : ℕ) (listener : ℕ → Option ℕ) (accepted : Option ℕ) :
    Prop where
  fresh : ∀ x, made ≤ x → (conn x).refno ≤ 0
  freed : ∀ x, (conn x).freed = true → (conn x).dead = true ∧ (conn x).refno ≤ 0
  listed : ∀ n x, listener n = some x → (conn x).fd = n ∧ accepted ≠ some x
  pending : ∀ x, accepted = some x →
    x < made ∧ ∀ y < made, y ≠ x → (conn y).fd = (conn x).fd → (conn y).freed = true

/-- Nobody holds a reference that is not there. -/
structure Rpcs.Sound (s : Rpcs) : Prop where
  shape : Shape s.conn s.made s.listener s.accepted
  below : ∀ x, 0 ≤ s.excess x

section Shape

variable {s s' : Rpcs} {c x : ℕ} {i : Worker} {d : Dispatch}

/-- A connection that changes. -/
theorem Shape.setPeer {p : Peer} (h : Shape s.conn s.made s.listener s.accepted)
    (hfd : p.fd = (s.conn c).fd) (hkept : (s.conn c).freed = true → p.freed = true)
    (hfreed : p.freed = true → p.dead = true ∧ p.refno ≤ 0) (hfresh : s.made ≤ c → p.refno ≤ 0) :
    Shape (s.setPeer c p).conn s.made s.listener s.accepted := by
  have hfd' : ∀ x, ((s.setPeer c p).conn x).fd = (s.conn x).fd := by
    intro x
    rw [setPeer_conn]
    split_ifs with hx
    · rw [hfd, hx]
    · rfl
  have hkept' : ∀ x, (s.conn x).freed = true → ((s.setPeer c p).conn x).freed = true := by
    intro x hx
    rw [setPeer_conn]
    split_ifs with hc
    · exact hkept (hc ▸ hx)
    · exact hx
  constructor
  · intro x hx
    rw [setPeer_conn]
    split_ifs with hc
    · exact hfresh (hc ▸ hx)
    · exact h.fresh x hx
  · intro x hx
    rw [setPeer_conn] at hx ⊢
    split_ifs at hx ⊢ with hc
    · exact hfreed hx
    · exact h.freed x hx
  · intro n x hx
    rw [hfd']
    exact h.listed n x hx
  · intro x hx
    obtain ⟨hmade, hfree⟩ := h.pending x hx
    refine ⟨hmade, fun y hy hne heq => ?_⟩
    rw [hfd', hfd'] at heq
    exact hkept' y (hfree y hy hne heq)

theorem Shape.incref (h : Shape s.conn s.made s.listener s.accepted) (hmade : c < s.made)
    (hlive : (s.conn c).freed = false) :
    Shape (s.incref c).conn s.made s.listener s.accepted := by
  refine h.setPeer (c := c) (p := (s.conn c).incref) rfl ?_ ?_ ?_
  · exact id
  · intro hfreed
    change (s.conn c).freed = true at hfreed
    rw [hlive] at hfreed
    cases hfreed
  · intro hc
    omega

theorem Shape.decref (h : Shape s.conn s.made s.listener s.accepted)
    (hs : s.decref c = some s') : Shape s'.conn s'.made s'.listener s'.accepted := by
  obtain ⟨hpos, rfl⟩ := decref_eq_some hs
  have hlive : (s.conn c).freed = false := by
    apply Bool.eq_false_iff.mpr
    intro hfreed
    have hnone := (h.freed c hfreed).2
    omega
  refine h.setPeer (c := c) (p := (s.conn c).decref) rfl ?_ ?_ ?_
  · intro hfreed
    rw [hlive] at hfreed
    cases hfreed
  · intro hfreed
    change ((s.conn c).freed || (decide ((s.conn c).refno = 1) && (s.conn c).dead)) = true at hfreed
    rw [hlive, Bool.false_or, Bool.and_eq_true, decide_eq_true_eq] at hfreed
    refine ⟨hfreed.2, ?_⟩
    change (s.conn c).refno - 1 ≤ 0
    omega
  · intro hmade
    have hnone := h.fresh c hmade
    omega

/-- A connection that somebody holds is there. -/
theorem Rpcs.Sound.held (h : s.Sound) (hx : 1 ≤ s.holders x) :
    1 ≤ (s.conn x).refno ∧ x < s.made ∧ (s.conn x).freed = false := by
  have hbelow := h.below x
  unfold Rpcs.excess at hbelow
  have hpos : 1 ≤ (s.conn x).refno := by omega
  refine ⟨hpos, ?_, ?_⟩
  · by_contra hmade
    have hnone := h.shape.fresh x (by omega)
    omega
  · apply Bool.eq_false_iff.mpr
    intro hfreed
    have hnone := (h.shape.freed x hfreed).2
    omega

theorem jobs_of_active (hd : s.active i = some d) (hc : d.conn = some c) : 1 ≤ s.jobs c := by
  have hle : grip (s.active i) c ≤ ∑ j, grip (s.active j) c :=
    Finset.single_le_sum (f := fun j => grip (s.active j) c) (fun _ _ => Nat.zero_le _)
      (Finset.mem_univ i)
  have hone : grip (s.active i) c = 1 := by
    rw [hd]
    exact if_pos hc
  have hjobs : ∑ j, grip (s.active j) c ≤ s.jobs c := Nat.le_add_left _ _
  omega

theorem holders_of_active (hd : s.active i = some d) (hc : d.conn = some c) :
    1 ≤ s.holders c := by
  have hjobs := jobs_of_active hd hc
  unfold Rpcs.holders
  omega

theorem holders_of_recorded {n : UInt32} (hc : (s.conns.find n).join = some c) :
    1 ≤ s.holders c := by
  have hfind : s.conns.find n = some (some c) := Option.join_eq_some_iff.mp hc
  have hcount := s.conns.count_assign (fun p => p = some c) n none
  rw [hfind] at hcount
  have hone : (some (some c)).elim 0 (fun w => (decide (w = some c)).toNat) = 1 := by simp
  have hzero : (decide ((none : Option ℕ) = some c)).toNat = 0 := by simp
  rw [hone, hzero] at hcount
  unfold Rpcs.holders Rpcs.recorded
  omega

end Shape

section Sections

variable {s s' : Rpcs} {c x : ℕ} {n : UInt32}

theorem points_some (c x : ℕ) : Rpcs.points (some c) x = if c = x then 1 else 0 := by
  unfold Rpcs.points
  simp only [Option.some.injEq]

theorem points_none (x : ℕ) : Rpcs.points none x = 0 := rfl

theorem Rpcs.Sound.incref (h : s.Sound) (hc : 1 ≤ s.holders c) :
    Shape (s.incref c).conn s.made s.listener s.accepted :=
  have hheld := h.held hc
  h.shape.incref hheld.2.1 hheld.2.2

theorem decref_other (hs : s.decref c = some s') (hx : x ≠ c) : s'.conn x = s.conn x := by
  obtain ⟨-, rfl⟩ := decref_eq_some hs
  rw [setPeer_conn, if_neg (Ne.symm hx)]

/-- Another connection that was held can be taken after a reference has been given back. -/
theorem incref_of_decref {c' : ℕ} (h : s.Sound) (hs : s.decref c' = some s') (hne : c ≠ c')
    (hc : 1 ≤ s.holders c) :
    Shape (s'.incref c).conn s'.made s'.listener s'.accepted := by
  have hmade := (decref_same hs).1.made
  have hheld := h.held hc
  exact (h.shape.decref hs).incref (hmade ▸ hheld.2.1) (decref_other hs hne ▸ hheld.2.2)

theorem record_spec (h : s.Sound) (hc : 1 ≤ s.holders c) (hr : s.record n c = some s') :
    Shape s'.conn s'.made s'.listener s'.accepted ∧ ∀ x, s'.excess x = s.excess x := by
  unfold Rpcs.record at hr
  cases hfind : s.conns.find n with
  | none =>
    rw [hfind] at hr
    obtain rfl := Option.some.inj hr
    refine ⟨h.incref hc, fun x => ?_⟩
    have ha := excess_assign (s := s.incref c) (x := x) n (some c)
    have hfind' : (s.incref c).conns.find n = none := hfind
    rw [hfind', excess_incref, points_some] at ha
    change _ = _ + _ + ((0 : ℕ) : ℤ) - _ at ha
    refine ha.trans ?_
    push_cast
    omega
  | some p =>
    rw [hfind] at hr
    cases p with
    | none => cases hr
    | some old =>
      dsimp only at hr
      split_ifs at hr with hlt
      · obtain ⟨s₁, hs₁, rfl⟩ := Option.map_eq_some_iff.mp hr
        have hne : c ≠ old := by
          rintro rfl
          unfold Rpcs.compare at hlt
          rw [Nat.compare_eq_lt] at hlt
          exact absurd hlt (lt_irrefl _)
        refine ⟨incref_of_decref h hs₁ hne hc, fun x => ?_⟩
        have ha := excess_assign (s := s₁.incref c) (x := x) n (some c)
        have hfind' : (s₁.incref c).conns.find n = some (some old) := by
          rw [← hfind, ← (decref_same hs₁).2]
          rfl
        rw [hfind', excess_incref, excess_decref hs₁, points_some, Option.join_some,
          points_some] at ha
        refine ha.trans ?_
        push_cast
        omega
      · obtain rfl := Option.some.inj hr
        exact ⟨h.shape, fun _ => rfl⟩

theorem touch_spec (s : Rpcs) (n : UInt32) :
    (s.touch n).conn = s.conn ∧ ((s.touch n).conns.find n).join = (s.conns.find n).join ∧
      (∀ x, (s.touch n).excess x = s.excess x) ∧ (s.Sound → (s.touch n).Sound) := by
  unfold Rpcs.touch
  cases hfind : s.conns.find n with
  | none =>
    have hexcess : ∀ x, ({ s with conns := s.conns.assign n none } : Rpcs).excess x = s.excess x := by
      intro x
      rw [excess_assign, hfind]
      change _ + ((0 : ℕ) : ℤ) - ((0 : ℕ) : ℤ) = _
      omega
    refine ⟨rfl, ?_, hexcess, fun h => ⟨h.shape, fun x => ?_⟩⟩
    · dsimp only
      rw [SortedMap.find_assign, if_pos rfl]
      rfl
    · rw [hexcess]
      exact h.below x
  | some p => exact ⟨rfl, by rw [hfind], fun _ => rfl, id⟩

theorem choose_spec (h : s.Sound) (hc : 1 ≤ s.holders c) {r : Option ℕ × Rpcs}
    (hr : s.choose n c = some r) :
    Shape r.2.conn r.2.made r.2.listener r.2.accepted ∧
      ∀ x, r.2.excess x = s.excess x + Rpcs.points r.1 x - Rpcs.points (some c) x := by
  unfold Rpcs.choose at hr
  split_ifs at hr with hdead
  · obtain ⟨htconn, htfind, htexcess, htsound⟩ := touch_spec s n
    have ht := htsound h
    have hheld : ∀ {c'}, 1 ≤ s.holders c' → 1 ≤ (s.touch n).holders c' := by
      intro c' hc'
      have he := htexcess c'
      unfold Rpcs.excess at he
      rw [htconn] at he
      omega
    dsimp only at hr
    rw [htfind] at hr
    split_ifs at hr with hp
    · obtain rfl := Option.some.inj hr
      refine ⟨ht.shape, fun x => ?_⟩
      dsimp only
      rw [htexcess, hp]
      omega
    · obtain ⟨s₁, hs₁, rfl⟩ := Option.map_eq_some_iff.mp hr
      dsimp only
      cases hpc : (s.conns.find n).join with
      | none =>
        refine ⟨ht.shape.decref hs₁, fun x => ?_⟩
        change s₁.excess x = _
        rw [excess_decref hs₁, htexcess, points_none, points_some]
        push_cast
        omega
      | some c' =>
        have hne : c' ≠ c := by
          rintro rfl
          exact hp hpc
        refine ⟨incref_of_decref ht hs₁ hne (hheld (holders_of_recorded hpc)), fun x => ?_⟩
        change (s₁.incref c').excess x = _
        rw [excess_incref, excess_decref hs₁, htexcess, points_some, points_some]
        push_cast
        omega
  · obtain rfl := Option.some.inj hr
    exact ⟨h.shape, fun x => by dsimp only; omega⟩

end Sections

section Dispatch

variable {s s' : Rpcs} {x : ℕ} {i : Worker} {d d' : Dispatch}

/-- The reference that the exit for an old server does not give back. -/
def Dispatch.leaks (d : Dispatch) (x : ℕ) : ℕ :=
  if d.stage = .oldServer then Rpcs.points d.conn x else 0

theorem leave_excess (hd : s.active i = some d) :
    (s.leave i).excess x = s.excess x + Rpcs.points d.conn x := by
  unfold Rpcs.leave
  rw [excess_setActive, hd]
  exact sub_zero _

theorem enter_excess (hd : s.active i = some d) (st : Stage) :
    (s.enter i d' st).excess x = s.excess x + Rpcs.points d.conn x - Rpcs.points d'.conn x := by
  unfold Rpcs.enter
  rw [excess_setActive, hd]
  rfl

/-- The last `decref` of a dispatch. -/
theorem release_spec (h : s.Sound) (hd : s.active i = some d)
    (hs : (s.decrefPtr d.conn).map (fun s => s.leave i) = some s') :
    Shape s'.conn s'.made s'.listener s'.accepted ∧ ∀ x, s'.excess x = s.excess x := by
  obtain ⟨s₁, hs₁, rfl⟩ := Option.map_eq_some_iff.mp hs
  cases hc : d.conn with
  | none =>
    rw [hc] at hs₁
    cases hs₁
  | some c =>
    rw [hc] at hs₁
    change s.decref c = some s₁ at hs₁
    have hactive := (decref_same hs₁).1.active
    have hshape := h.shape.decref hs₁
    refine ⟨hshape, fun x => ?_⟩
    rw [leave_excess (hactive ▸ hd), excess_decref hs₁, hc, points_some]
    push_cast
    omega

/-- A step keeps what is counted and what is held together, but for that exit. -/
theorem dispatch_spec (h : s.Sound) (hd : s.active i = some d) {ret : Int32} {body : List UInt8}
    (hs : s.dispatch i d ret body = some s') :
    Shape s'.conn s'.made s'.listener s'.accepted ∧
      ∀ x, s'.excess x = s.excess x + d.leaks x := by
  unfold Rpcs.dispatch at hs
  unfold Dispatch.leaks
  have hsame : ∀ (t : Rpcs) (d' : Dispatch) (st : Stage) (x : ℕ), t.active = s.active →
      d'.conn = d.conn → (t.enter i d' st).excess x = t.excess x := by
    intro t d' st x ht hconn
    have hd' : t.active i = some d := by rw [ht, hd]
    rw [enter_excess hd', hconn]
    omega
  cases hst : d.stage with
  | header =>
    rw [hst] at hs
    dsimp only at hs
    simp only [reduceCtorEq, if_false, Nat.cast_zero, add_zero]
    split_ifs at hs
    · obtain rfl := Option.some.inj hs
      exact ⟨h.shape, fun x => hsame s _ _ x rfl rfl⟩
    · obtain rfl := Option.some.inj hs
      exact ⟨h.shape, fun x => hsame s _ _ x rfl rfl⟩
    · obtain rfl := Option.some.inj hs
      exact ⟨h.shape, fun x => hsame s _ _ x rfl rfl⟩
    · exact release_spec h hd hs
  | oldServer =>
    rw [hst] at hs
    dsimp only at hs
    simp only [if_true]
    obtain rfl := Option.some.inj hs
    exact ⟨h.shape, fun x => leave_excess hd⟩
  | record =>
    rw [hst] at hs
    dsimp only at hs
    simp only [reduceCtorEq, if_false, Nat.cast_zero, add_zero]
    obtain ⟨c, hc, hs⟩ := Option.bind_eq_some_iff.mp hs
    obtain ⟨s₁, hs₁, rfl⟩ := Option.map_eq_some_iff.mp hs
    obtain ⟨hshape, hexcess⟩ := record_spec h (holders_of_active hd hc) hs₁
    have hactive := (record_same hs₁).1.active
    exact ⟨hshape, fun x => (hsame s₁ _ _ x hactive rfl).trans (hexcess x)⟩
  | check =>
    rw [hst] at hs
    dsimp only at hs
    simp only [reduceCtorEq, if_false, Nat.cast_zero, add_zero]
    obtain rfl := Option.some.inj hs
    exact ⟨h.shape, fun x => hsame _ _ _ x rfl rfl⟩
  | handle =>
    rw [hst] at hs
    dsimp only at hs
    simp only [reduceCtorEq, if_false, Nat.cast_zero, add_zero]
    split_ifs at hs
    · obtain rfl := Option.some.inj hs
      exact ⟨h.shape, fun x => hsame _ _ _ x rfl rfl⟩
    · obtain rfl := Option.some.inj hs
      exact ⟨h.shape, fun x => hsame s _ _ x rfl rfl⟩
  | choose =>
    rw [hst] at hs
    dsimp only at hs
    simp only [reduceCtorEq, if_false, Nat.cast_zero, add_zero]
    obtain ⟨c, hc, hs⟩ := Option.bind_eq_some_iff.mp hs
    obtain ⟨r, hr, rfl⟩ := Option.map_eq_some_iff.mp hs
    obtain ⟨hshape, hexcess⟩ := choose_spec h (holders_of_active hd hc) hr
    have hactive := (choose_same hr).1.active
    refine ⟨hshape, fun x => ?_⟩
    rw [enter_excess (hactive ▸ hd), hexcess, hc]
    dsimp only
    omega
  | reply =>
    rw [hst] at hs
    dsimp only at hs
    simp only [reduceCtorEq, if_false, Nat.cast_zero, add_zero]
    obtain ⟨c, hc, rfl⟩ := Option.map_eq_some_iff.mp hs
    exact ⟨h.shape, fun x => hsame s _ _ x rfl rfl⟩
  | release =>
    rw [hst] at hs
    dsimp only at hs
    simp only [reduceCtorEq, if_false, Nat.cast_zero, add_zero]
    exact release_spec h hd hs

end Dispatch

section Step

variable {s s' : Rpcs} {e : RpcsEvent}

/-- `got_pdu` does not take back the reference of a job that it has handed over: the server is not
switched off between its two tests. -/
def Rpcs.keeps (s : Rpcs) : RpcsEvent → Bool
  | .returned =>
    match s.poller with
    | some (_, true) => s.reachable
    | _ => true
  | _ => true

def RpcsEvent.leaks (s : Rpcs) : RpcsEvent → ℕ → ℕ
  | .go i _ _, x => (s.active i).elim 0 fun d => d.leaks x
  | _, _ => 0

/-- How a step changes what is counted against what is held. -/
def Rpcs.Turns (s : Rpcs) (e : RpcsEvent) (s' : Rpcs) : Prop :=
  Shape s'.conn s'.made s'.listener s'.accepted ∧
    ∀ x, s'.excess x = s.excess x + (e.leaks s x : ℕ)

theorem excess_eq (s : Rpcs) (x : ℕ) :
    s.excess x = (s.conn x).refno - s.listed x - s.jobs x - s.recorded x := by
  unfold Rpcs.excess Rpcs.holders
  push_cast
  omega

/-- A step that only changes who is listed. -/
theorem excess_of_listed (hjobs : s'.jobs = s.jobs) (hconns : s'.conns = s.conns) (x : ℕ) :
    s'.excess x = s.excess x + ((s'.conn x).refno - (s.conn x).refno) -
      (s'.listed x - s.listed x : ℤ) := by
  have hrecorded : s'.recorded x = s.recorded x := by
    unfold Rpcs.recorded
    rw [hconns]
  rw [excess_eq, excess_eq, hjobs, hrecorded]
  omega

theorem Rpcs.Sound.gone (h : s.Sound) (n : ℕ) : s.listener n ≠ some s.made := by
  intro hn
  have hfd := (h.shape.listed n _ hn).1
  have hlisted : s.listed s.made = 1 := by
    unfold Rpcs.listed
    rw [hfd, if_pos (Or.inl hn)]
  have hrefno := h.shape.fresh s.made le_rfl
  have hbelow := h.below s.made
  unfold Rpcs.excess Rpcs.holders at hbelow
  omega

theorem accept_spec (h : s.Sound) {fd time : ℕ} (hs : s.step (.accept fd time) = some s') :
    s.Turns (.accept fd time) s' := by
  unfold Rpcs.step at hs
  dsimp only at hs
  split_ifs at hs with hguard
  obtain ⟨hnone, hfree⟩ := hguard
  have hs' := (Option.some.inj hs).symm
  have hconn : ∀ x, s'.conn x = if s.made = x then ⟨fd, time, false, 1, false⟩ else s.conn x := by
    intro x
    rw [hs']
    exact setPeer_conn _ _ _ _
  have hmade : s'.made = s.made + 1 := by rw [hs']
  have hlistener : s'.listener = s.listener := by rw [hs']; rfl
  have haccepted : s'.accepted = some s.made := by rw [hs']
  have hjobs : s'.jobs = s.jobs := by rw [hs']; rfl
  have hconns : s'.conns = s.conns := by rw [hs']; rfl
  constructor
  · rw [hmade, hlistener, haccepted]
    constructor
    · intro x hx
      rw [hconn, if_neg (by omega)]
      exact h.shape.fresh x (by omega)
    · intro x hx
      rw [hconn] at hx ⊢
      split_ifs at hx ⊢
      exact h.shape.freed x hx
    · intro n x hx
      have hne : s.made ≠ x := by
        rintro rfl
        exact h.gone n hx
      rw [hconn, if_neg hne]
      exact ⟨(h.shape.listed n x hx).1, fun heq => hne (Option.some.inj heq)⟩
    · intro x hx
      obtain rfl := Option.some.inj hx
      refine ⟨Nat.lt_succ_self _, fun y hy hne heq => ?_⟩
      rw [hconn, hconn, if_neg (Ne.symm hne), if_pos rfl] at heq
      rw [hconn, if_neg (Ne.symm hne)]
      exact hfree y (by omega) heq
  · intro x
    have hrefno := h.shape.fresh s.made le_rfl
    have hbelow := h.below s.made
    have hl : s'.listed x = if s.made = x then 1 else s.listed x := by
      unfold Rpcs.listed
      simp only [hconn, hlistener, haccepted, hnone]
      by_cases hx : s.made = x
      · simp [hx]
      · simp [hx]
    rw [excess_of_listed hjobs hconns, hconn, hl]
    change _ = _ + ((0 : ℕ) : ℤ)
    split_ifs with hx
    · subst hx
      unfold Rpcs.excess Rpcs.holders at hbelow
      dsimp only
      omega
    · omega

theorem collect_spec (h : s.Sound) (hs : s.step .collect = some s') : s.Turns .collect s' := by
  unfold Rpcs.step at hs
  dsimp only at hs
  obtain ⟨n, -, hs⟩ := Option.bind_eq_some_iff.mp hs
  obtain ⟨c, hc, hs⟩ := Option.bind_eq_some_iff.mp hs
  obtain ⟨s₁, hs₁, hs⟩ := Option.map_eq_some_iff.mp hs
  have hshape := h.shape.decref hs₁
  obtain ⟨-, hs₁'⟩ := decref_eq_some hs₁
  obtain ⟨hfd, hpending⟩ := h.shape.listed n c hc
  have hconn : ∀ x, s'.conn x = if c = x then (s.conn c).decref else s.conn x := by
    intro x
    rw [← hs, hs₁']
    exact setPeer_conn _ _ _ _
  have hfds : ∀ x, (s'.conn x).fd = (s.conn x).fd := by
    intro x
    rw [hconn]
    split_ifs with hx
    · rw [← hx]
      rfl
    · rfl
  have hlistener : s'.listener = Function.update s.listener n none := by
    rw [← hs, hs₁']
    rfl
  have haccepted : s'.accepted = s.accepted := by rw [← hs, hs₁']; rfl
  have hjobs : s'.jobs = s.jobs := by rw [← hs, hs₁']; rfl
  have hconns : s'.conns = s.conns := by rw [← hs, hs₁']; rfl
  constructor
  · have hsame : s'.conn = s₁.conn ∧ s'.made = s₁.made ∧ s'.accepted = s₁.accepted := by
      rw [← hs]
      exact ⟨rfl, rfl, rfl⟩
    rw [hsame.1, hsame.2.1, hsame.2.2, hlistener]
    refine ⟨hshape.fresh, hshape.freed, fun m x hx => ?_, hshape.pending⟩
    by_cases hm : m = n
    · rw [hm, Function.update_self] at hx
      cases hx
    · rw [Function.update_of_ne hm] at hx
      have hx₁ : s₁.listener m = some x := by
        rw [hs₁']
        exact hx
      exact hshape.listed m x hx₁
  · intro x
    have hl : s'.listed x + (if c = x then 1 else 0) = s.listed x := by
      unfold Rpcs.listed
      simp only [hfds, hlistener, haccepted]
      by_cases hx : c = x
      · subst hx
        rw [hfd, Function.update_self, hc]
        simp [hpending]
      · rw [if_neg hx, add_zero]
        by_cases hn : (s.conn x).fd = n
        · rw [hn, Function.update_self, hc]
          simp [hx]
        · rw [Function.update_of_ne hn]
    rw [excess_of_listed hjobs hconns, hconn]
    change _ = _ + ((0 : ℕ) : ℤ)
    split_ifs at hl ⊢ with hx
    · subst hx
      unfold Peer.decref
      dsimp only
      omega
    · omega

theorem insert_spec (h : s.Sound) (hs : s.step .insert = some s') : s.Turns .insert s' := by
  unfold Rpcs.step at hs
  dsimp only at hs
  split at hs
  · next c hc hcond =>
    have hs' := (Option.some.inj hs).symm
    obtain ⟨hmade, hfree⟩ := h.shape.pending c hc
    have hconn : s'.conn = s.conn := by rw [hs']
    have hlistener : s'.listener = Function.update s.listener (s.conn c).fd (some c) := by rw [hs']
    have haccepted : s'.accepted = none := by rw [hs']
    have hjobs : s'.jobs = s.jobs := by rw [hs']; rfl
    have hconns : s'.conns = s.conns := by rw [hs']
    have hmade' : s'.made = s.made := by rw [hs']
    constructor
    · rw [hconn, hlistener, haccepted, hmade']
      refine ⟨h.shape.fresh, h.shape.freed, fun n x hx => ⟨?_, fun heq => by cases heq⟩,
        fun x hx => by cases hx⟩
      by_cases hn : n = (s.conn c).fd
      · rw [hn, Function.update_self] at hx
        rw [← Option.some.inj hx, hn]
      · rw [Function.update_of_ne hn] at hx
        exact (h.shape.listed n x hx).1
    · intro x
      have hl : s'.listed x = s.listed x := by
        unfold Rpcs.listed
        simp only [hconn, hlistener, haccepted, hc]
        by_cases hx : x = c
        · subst hx
          rw [Function.update_self]
          simp
        · by_cases hn : (s.conn x).fd = (s.conn c).fd
          · -- what was there under this descriptor would have been deleted
            have hgone : s.listener (s.conn c).fd ≠ some x := by
              intro hx'
              have hone : 1 ≤ s.holders x := by
                unfold Rpcs.holders Rpcs.listed
                rw [hn, if_pos (Or.inl hx')]
                omega
              obtain ⟨-, hxmade, hlive⟩ := h.held hone
              rw [hfree x hxmade hx hn] at hlive
              cases hlive
            rw [hn, Function.update_self]
            simp [hgone, Ne.symm hx]
          · rw [Function.update_of_ne hn]
            simp [Ne.symm hx]
      rw [excess_of_listed hjobs hconns, hl, hconn]
      change _ = _ + ((0 : ℕ) : ℤ)
      omega
  · cases hs

/-- A job that `got_pdu` has made is in the queue or still in its hands. -/
theorem gotPdu_spec (h : s.Sound) {c sz : ℕ} {buf : ℕ → UInt8} {succ : Bool}
    (hs : s.step (.gotPdu c buf sz succ) = some s') : s.Turns (.gotPdu c buf sz succ) s' := by
  unfold Rpcs.step at hs
  dsimp only at hs
  by_cases hguard : s.poller = none ∧ c < s.made ∧ (s.conn c).dead = false
  · rw [if_pos hguard] at hs
    by_cases hreach : s.reachable = true
    · rw [if_pos hreach] at hs
      obtain ⟨hpoller, hmade, hdead⟩ := hguard
      have hlive : (s.conn c).freed = false := by
        apply Bool.eq_false_iff.mpr
        intro hfreed
        rw [(h.shape.freed c hfreed).1] at hdead
        cases hdead
      have hshape := h.shape.incref hmade hlive
      have hs' := (Option.some.inj hs).symm
      have hjobs : ∀ x, s'.jobs x = s.jobs x + if c = x then 1 else 0 := by
        intro x
        rw [hs']
        unfold Rpcs.jobs
        dsimp only
        rw [hpoller]
        change _ + _ + ∑ i, grip (s.active i) x = _ + _ + ∑ i, grip (s.active i) x + _
        cases succ
        · by_cases hx : c = x
          · simp [hx]
            omega
          · simp [hx]
        · by_cases hx : c = x
          · simp [hx, List.countP_append]
            omega
          · simp [hx, List.countP_append]
      constructor
      · rw [hs']
        exact hshape
      · intro x
        have he := excess_incref (s := s) (c := c) (x := x)
        have hlisted : s'.listed x = (s.incref c).listed x := by rw [hs']; rfl
        have hrecorded : s'.recorded x = (s.incref c).recorded x := by rw [hs']; rfl
        have hconn : s'.conn x = (s.incref c).conn x := by rw [hs']
        have hold : (s.incref c).jobs x = s.jobs x := rfl
        rw [excess_eq] at he
        rw [excess_eq, hlisted, hrecorded, hconn, hjobs]
        change _ = _ + ((0 : ℕ) : ℤ)
        push_cast
        omega
    · rw [if_neg hreach] at hs
      obtain rfl := Option.some.inj hs
      exact ⟨h.shape, fun x => (add_zero _).symm⟩
  · rw [if_neg hguard] at hs
    cases hs

theorem returned_spec (h : s.Sound) (hk : s.keeps .returned = true)
    (hs : s.step .returned = some s') : s.Turns .returned s' := by
  unfold Rpcs.step at hs
  dsimp only at hs
  obtain ⟨p, hp, hq⟩ := Option.bind_eq_some_iff.mp hs
  obtain ⟨s₁, hs₁, heq⟩ := Option.map_eq_some_iff.mp hq
  have hjobs : ∀ t : Rpcs, t.poller = s.poller → ∀ x,
      ({ t with poller := none } : Rpcs).jobs x + (if p = (x, false) then 1 else 0) = t.jobs x := by
    intro t ht x
    unfold Rpcs.jobs
    rw [ht, hp]
    simp only [Option.some.injEq, reduceCtorEq, if_false]
    omega
  have hexcess : ∀ t : Rpcs, t.poller = s.poller → ∀ x,
      ({ t with poller := none } : Rpcs).excess x =
        t.excess x + if p = (x, false) then 1 else 0 := by
    intro t ht x
    have hj := hjobs t ht x
    rw [excess_eq, excess_eq]
    change (t.conn x).refno - (t.listed x : ℤ) - _ - (t.recorded x : ℤ) = _
    split_ifs at hj ⊢
    · omega
    · omega
  obtain ⟨c, succ⟩ := p
  cases succ with
  | false =>
    rw [if_pos (Or.inl Bool.false_ne_true)] at hs₁
    have hshape := h.shape.decref hs₁
    have hpoller : s₁.poller = s.poller := by
      obtain ⟨-, rfl⟩ := decref_eq_some hs₁
      rfl
    rw [← heq]
    refine ⟨hshape, fun x => ?_⟩
    rw [hexcess s₁ hpoller, excess_decref hs₁]
    change _ = _ + ((0 : ℕ) : ℤ)
    by_cases hx : c = x
    · simp [hx]
    · simp [hx]
  | true =>
    have hreach : s.reachable = true := by
      unfold Rpcs.keeps at hk
      dsimp only at hk
      rwa [hp] at hk
    rw [if_neg (by simp [hreach])] at hs₁
    obtain rfl := Option.some.inj hs₁
    rw [← heq]
    refine ⟨h.shape, fun x => ?_⟩
    rw [hexcess s rfl]
    change _ = _ + ((0 : ℕ) : ℤ)
    simp

theorem take_spec (h : s.Sound) {i : Worker} (hs : s.step (.take i) = some s') :
    s.Turns (.take i) s' := by
  unfold Rpcs.step at hs
  dsimp only at hs
  split at hs
  · next j q hi hq =>
    obtain rfl := Option.some.inj hs
    refine ⟨h.shape, fun x => ?_⟩
    rw [excess_setActive]
    change ({ s with queue := q } : Rpcs).excess x + grip (s.active i) x -
      Rpcs.points (some j.conn) x = _ + ((0 : ℕ) : ℤ)
    have hqueue : ({ s with queue := q } : Rpcs).jobs x + Rpcs.points (some j.conn) x =
        s.jobs x := by
      unfold Rpcs.jobs
      rw [hq, List.countP_cons, points_some]
      simp only [decide_eq_true_eq]
      omega
    rw [hi, excess_eq, excess_eq]
    change _ - (s.listed x : ℤ) - _ - (s.recorded x : ℤ) + ((0 : ℕ) : ℤ) - _ = _
    push_cast
    omega
  · cases hs

/-- Every step keeps the connections in shape, and leaves a reference behind only where it leaks. -/
theorem step_turns (h : s.Sound) (hk : s.keeps e = true) (hs : s.step e = some s') : s.Turns e s' := by
  cases e with
  | accept fd time => exact accept_spec h hs
  | examine fd =>
    unfold Rpcs.step at hs
    dsimp only at hs
    split at hs
    · split_ifs at hs
      obtain rfl := Option.some.inj hs
      exact ⟨h.shape, fun x => (add_zero _).symm⟩
    · cases hs
  | collect => exact collect_spec h hs
  | insert => exact insert_spec h hs
  | die c =>
    unfold Rpcs.step at hs
    dsimp only at hs
    split_ifs at hs with hmade
    obtain rfl := Option.some.inj hs
    constructor
    · refine h.shape.setPeer (c := c) (p := (s.conn c).die) rfl id ?_ ?_
      · exact fun hfreed => ⟨rfl, (h.shape.freed c hfreed).2⟩
      · exact fun hc => h.shape.fresh c hc
    · intro x
      rw [excess_setPeer (c := c) (p := (s.conn c).die) rfl]
      change _ + (if c = x then (s.conn c).refno - (s.conn c).refno else 0) = _ + ((0 : ℕ) : ℤ)
      simp
  | setReachable b =>
    obtain rfl := Option.some.inj hs
    exact ⟨h.shape, fun x => (add_zero _).symm⟩
  | gotPdu c buf sz succ => exact gotPdu_spec h hs
  | returned => exact returned_spec h hk hs
  | take i => exact take_spec h hs
  | go i ret body =>
    obtain ⟨d, hd, hs⟩ := Option.bind_eq_some_iff.mp hs
    obtain ⟨hshape, hexcess⟩ := dispatch_spec h hd hs
    refine ⟨hshape, fun x => ?_⟩
    rw [hexcess]
    unfold RpcsEvent.leaks
    dsimp only
    rw [hd]
    rfl

theorem step_sound (h : s.Sound) (hk : s.keeps e = true) (hs : s.step e = some s') : s'.Sound := by
  obtain ⟨hshape, hexcess⟩ := step_turns h hk hs
  refine ⟨hshape, fun x => ?_⟩
  have hbelow := h.below x
  rw [hexcess]
  omega

theorem excess_init (sum : Bool) (nonce : UInt32) (procs : List Int32) (x : ℕ) :
    (Rpcs.init sum nonce procs).excess x = 0 := by
  have hzero : (Rpcs.init sum nonce procs).holders x = 0 := by
    unfold Rpcs.holders Rpcs.listed Rpcs.jobs Rpcs.recorded Rpcs.init
    simp
  unfold Rpcs.excess
  rw [hzero]
  rfl

theorem sound_init (sum : Bool) (nonce : UInt32) (procs : List Int32) :
    (Rpcs.init sum nonce procs).Sound := by
  constructor
  · constructor
    · exact fun _ _ => le_rfl
    · intro x hx
      cases hx
    · intro n x hx
      cases hx
    · intro x hx
      cases hx
  · intro x
    rw [excess_init]

end Step

end Yfs.Rpc
