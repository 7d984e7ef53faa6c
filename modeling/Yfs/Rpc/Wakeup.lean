import Yfs.Rpc.Waits

/-! Who is left blocked when a connection has died. -/
namespace Yfs.Rpc

open Effect

namespace Waits

variable {s s' : Waits} {e : WaitEvent}

/-- The one partial writer runs: nobody else is blocked until a PDU is out. -/
theorem Sound.sendComplete_nil (h : s.Sound) {t : ℕ} (hown : (s.conn.sender.threads t).Owns)
    (ht : t ∉ s.sendComplete) : s.sendComplete = [] := by
  rw [List.eq_nil_iff_forall_not_mem]
  intro u hu
  obtain ⟨i, hi⟩ := h.writing u hu
  have hut : u = t := h.owned.unique u t (by rw [hi]; trivial) hown
  rw [hut] at hu
  exact ht hu

/-- Nobody waits where `waiters` is 0. -/
theorem sendWait_nil {n : Sender} {c : CondVar ℕ} (hcounts : n.Counts fun _ => False)
    (hblocked : ∀ t ∈ c, ∃ b, n.threads t = .waiting b) (h0 : ¬ 0 < n.waiters) : c = [] := by
  obtain ⟨F, hF, hmem⟩ := hcounts
  rw [List.eq_nil_iff_forall_not_mem]
  intro t ht
  have htF : t ∈ F := (hmem t).mpr (Or.inr (hblocked t ht))
  have hpos := Finset.card_pos.mpr ⟨t, htF⟩
  omega

theorem settle_conn (s : Waits) (t : ℕ) (c : Conn) : (s.settle t c).conn = c := by
  unfold settle broadcast
  split
  · rfl
  · rfl
  · rfl
  · split_ifs
    · rfl
    · rfl
    · rfl

/-- The end of `send` leaves nobody blocked before the loop. -/
theorem settle_ends {c : Conn} {t : ℕ} (hcounts : c.sender.Counts fun _ => False)
    (hblocked : ∀ t ∈ s.sendWait, ∃ b, c.sender.threads t = .waiting b)
    (ht : c.sender.threads t = .outside)
    (hret : c.sender.returned.length ≠ s.conn.sender.returned.length) :
    s.settle t c = ⟨c, [], s.sendComplete⟩ := by
  simp only [settle, ht, if_neg hret, broadcast]
  split_ifs with h0
  · rfl
  · rw [sendWait_nil hcounts hblocked h0]

/-- A thread that is not blocked moves: the others are where they were. -/
theorem Sound.blocked_of_update (h : s.Sound) {n : Sender} {t : ℕ} {a : Sending}
    (hn : n.threads = Function.update s.conn.sender.threads t a) (ht : t ∉ s.sendWait) :
    ∀ u ∈ s.sendWait, ∃ b, n.threads u = .waiting b := by
  intro u hu
  rw [Sender.threads_of_update hn, if_neg (by rintro rfl; exact ht hu)]
  exact h.blocked u hu

theorem Sound.removing_of_update (h : s.Sound) {c : Conn} {t : ℕ} {a : Sending}
    (hn : c.sender.threads = Function.update s.conn.sender.threads t a)
    (hother : ∀ u, u ≠ t → c.removal u = s.conn.removal u)
    (hself : ∀ i, c.sender.threads t = .removing i → c.removal t ≠ .none) :
    ∀ u i, c.sender.threads u = .removing i → c.removal u ≠ .none := by
  intro u i hu
  by_cases hut : u = t
  · rw [hut] at hu ⊢
    exact hself i hu
  · rw [Sender.threads_of_update hn, if_neg hut] at hu
    rw [hother u hut]
    exact h.removing u i hu

/-- What the end of `send` makes of a sound state. -/
theorem Sound.ends (h : s.Sound) {c : Conn} {t i : ℕ} (hown : (s.conn.sender.threads t).Owns)
    (ht : t ∉ s.sendComplete) (hsender : c.sender = s.conn.sender.finish t i)
    (hother : ∀ u, u ≠ t → c.removal u = s.conn.removal u) :
    s.settle t c = ⟨c, [], []⟩ ∧ (s.settle t c).Sound := by
  have hthreads : c.sender.threads = Function.update s.conn.sender.threads t .outside := by
    rw [hsender]
    rfl
  have hself : c.sender.threads t = .outside := by
    rw [hthreads, Function.update_self]
  have hwait : t ∉ s.sendWait := by
    intro hmem
    obtain ⟨b, hb⟩ := h.blocked t hmem
    rw [hb] at hown
    exact hown
  have hcounts : c.sender.Counts fun _ => False := by
    obtain ⟨F, hF, hmem⟩ := h.counts
    refine ⟨F, by rw [hsender]; exact hF, fun u => ?_⟩
    rw [hmem, Sender.threads_of_update hthreads]
    split_ifs with hut
    · rw [hut]
      constructor
      · rintro (hf | ⟨b, hb⟩)
        · exact hf.elim
        · rw [hb] at hown
          exact hown.elim
      · rintro (hf | ⟨b, hb⟩)
        · exact hf.elim
        · cases hb
    · exact Iff.rfl
  have hsettle : s.settle t c = ⟨c, [], []⟩ := by
    rw [settle_ends hcounts (h.blocked_of_update hthreads hwait) hself
      (by simp [hsender, Sender.finish]), h.sendComplete_nil hown ht]
  refine ⟨hsettle, ?_⟩
  rw [hsettle]
  constructor
  · rw [hsender]
    exact h.owned.finish hown
  · exact hcounts
  · simp
  · simp
  · simp
  · simp
  · apply h.removing_of_update hthreads hother
    intro i hi
    rw [hself] at hi
    cases hi

theorem Sound.writing_of_update (h : s.Sound) {n : Sender} {t : ℕ} {a : Sending}
    (hn : n.threads = Function.update s.conn.sender.threads t a)
    (ht : ¬ (s.conn.sender.threads t).Owns) :
    ∀ u ∈ s.sendComplete, ∃ i, n.threads u = .completing i := by
  intro u hu
  obtain ⟨i, hi⟩ := h.writing u hu
  have hne : u ≠ t := by
    rintro rfl
    exact ht (by rw [hi]; trivial)
  rw [Sender.threads_of_update hn, if_neg hne]
  exact ⟨i, hi⟩

/-- What a section of `send` that starts at the loop makes of a sound state. A PDU whose write has
failed is in the way until `block_remove_fd` is over. -/
theorem Sound.enters (h : s.Sound) {m : Sender} {c : Conn} {t : ℕ}
    (hm : m = s.conn.sender ∨ m = { s.conn.sender with waiters := s.conn.sender.waiters + 1 })
    (hcounts : m.Counts (· = t)) (ht : t ∉ s.sendWait) (hown : ¬ (m.threads t).Owns)
    (he : m.Entered t c.sender) (hother : ∀ u, u ≠ t → c.removal u = s.conn.removal u)
    (hself : ∀ i, c.sender.threads t = .removing i → c.removal t ≠ .none) :
    (s.settle t c).Sound ∧ (c.sender.dead = true →
      (s.settle t c).sendComplete = s.sendComplete ∧
        (s.conn.sender.dead = true ∧ (s.settle t c).sendWait = s.sendWait ∧
            c.sender.threads = Function.update s.conn.sender.threads t .outside ∨
          s.sendComplete = [] ∧ ∃ i, c.sender.threads t = .removing i)) := by
  have hsame : m.threads = s.conn.sender.threads ∧ m.wpdu = s.conn.sender.wpdu ∧
      m.dead = s.conn.sender.dead ∧ m.returned = s.conn.sender.returned ∧ m.Owned := by
    obtain rfl | rfl := hm
    · exact ⟨rfl, rfl, rfl, rfl, h.owned⟩
    · exact ⟨rfl, rfl, rfl, rfl, h.owned.waiters _⟩
  obtain ⟨hthreads, hwpdu, hdeadm, hretm, hownedm⟩ := hsame
  have howned := he.owned hownedm hown
  have hcounts' := he.counts hcounts
  rw [hthreads] at hown
  have hempty : s.conn.sender.wpdu.buf = none → s.sendComplete = [] := by
    intro hb
    rw [List.eq_nil_iff_forall_not_mem]
    intro u hu
    obtain ⟨i, hi⟩ := h.writing u hu
    exact h.owned.free hb u (by rw [hi]; trivial)
  cases he with
  | waits b hn hdead hbuf =>
    have hup : c.sender.threads = Function.update s.conn.sender.threads t (.waiting b) := by
      rw [hn, ← hthreads]
      rfl
    have ht' : c.sender.threads t = .waiting b := by rw [hup, Function.update_self]
    have hsettle : s.settle t c = ⟨c, t :: s.sendWait, s.sendComplete⟩ := by
      simp only [settle, ht', CondVar.block]
    have hdeadc : c.sender.dead = false := by
      rw [hn]
      exact hdead
    rw [hsettle]
    refine ⟨⟨howned, hcounts', ?_, h.writing_of_update hup hown, h.single, fun _ => ?_,
      h.removing_of_update hup hother hself⟩, fun hd => absurd (hdeadc.symm.trans hd)
        Bool.false_ne_true⟩
    · intro u hu
      obtain rfl | hu := List.mem_cons.mp hu
      · exact ⟨b, ht'⟩
      · exact h.blocked_of_update hup ht u hu
    · rw [hn]
      exact hbuf
  | refused hn hdead =>
    have hup : c.sender.threads = Function.update s.conn.sender.threads t .outside := by
      rw [hn, ← hthreads]
      rfl
    have hsettle : s.settle t c = ⟨c, s.sendWait, s.sendComplete⟩ := by
      have hret : c.sender.returned = s.conn.sender.returned := by
        rw [hn, ← hretm]
        rfl
      simp only [settle, hup, Function.update_self, hret, if_true]
    rw [hsettle]
    refine ⟨⟨howned, hcounts', h.blocked_of_update hup ht, h.writing_of_update hup hown, h.single,
      fun hw => ?_, h.removing_of_update hup hother hself⟩, fun _ => ⟨rfl, Or.inl ⟨?_, rfl, hup⟩⟩⟩
    · have hbuf : c.sender.wpdu = s.conn.sender.wpdu := by
        rw [hn, ← hwpdu]
        rfl
      rw [hbuf]
      exact h.busy hw
    · rwa [← hdeadm]
  | failed i hup hwaiters hnew hbuf =>
    rw [hthreads] at hup
    have ht' : c.sender.threads t = .removing i := by rw [hup, Function.update_self]
    have hsettle : s.settle t c = ⟨c, s.sendWait, s.sendComplete⟩ := by
      simp only [settle, ht']
    rw [hsettle]
    exact ⟨⟨howned, hcounts', h.blocked_of_update hup ht, h.writing_of_update hup hown, h.single,
      fun _ => hnew, h.removing_of_update hup hother hself⟩,
      fun _ => ⟨rfl, Or.inr ⟨hempty (hwpdu ▸ hbuf), i, ht'⟩⟩⟩
  | sent hup hwaiters hnew hbuf hdead hret =>
    rw [hthreads] at hup
    rw [hretm] at hret
    have ht' : c.sender.threads t = .outside := by rw [hup, Function.update_self]
    have hblocked := h.blocked_of_update hup ht
    rw [settle_ends hcounts' hblocked ht' hret]
    exact ⟨⟨howned, hcounts', by simp, h.writing_of_update hup hown, h.single, by simp,
      h.removing_of_update hup hother hself⟩, fun hd => absurd (hdead.symm.trans hd)
        Bool.false_ne_true⟩
  | started i hup hwaiters hnew hbuf hdead =>
    rw [hthreads] at hup
    rw [hwpdu] at hbuf
    have ht' : c.sender.threads t = .completing i := by rw [hup, Function.update_self]
    have hsettle : s.settle t c = ⟨c, s.sendWait, [t]⟩ := by
      simp only [settle, ht', CondVar.block, hempty hbuf]
    rw [hsettle]
    refine ⟨⟨howned, hcounts', h.blocked_of_update hup ht, ?_, by simp, fun _ => hnew,
      h.removing_of_update hup hother hself⟩, fun hd => absurd (hdead.symm.trans hd)
        Bool.false_ne_true⟩
    intro u hu
    rw [List.mem_singleton.mp hu]
    exact ⟨i, ht'⟩

theorem Sound.step (h : s.Sound) (hs : s.step e = some s') : s'.Sound := by
  cases h.step_turn hs with
  | enters t m c hm hcounts ht hown he hother hself hs =>
    rw [hs]
    exact (h.enters hm hcounts ht hown he hother hself).1
  | ends t i c hown ht hsender hother hs =>
    rw [hs]
    exact (h.ends hown ht hsender hother).2
  | waitsAgain t i ht hthread hdead hs =>
    have hnil := h.sendComplete_nil (by rw [hthread]; trivial) ht
    rw [hs]
    refine ⟨h.owned, h.counts, h.blocked, ?_, ?_, h.busy, h.removing⟩
    · rw [hnil]
      intro u hu
      rw [List.mem_singleton.mp hu]
      exact ⟨i, hthread⟩
    · rw [hnil]
      exact le_rfl
  | frame hthreads hwaiters hbuf hremoval hwait hcomplete hlength =>
    refine ⟨⟨?_, ?_, ?_⟩, ?_, ?_, ?_, hlength.trans h.single, ?_, ?_⟩
    · rw [hbuf, hthreads]
      exact h.owned.free
    · rw [ne_eq, hbuf, hthreads]
      exact h.owned.held
    · rw [hthreads]
      exact h.owned.unique
    · unfold Sender.Counts
      rw [hthreads, hwaiters]
      exact h.counts
    · rw [hthreads]
      exact fun t ht => h.blocked t (hwait ht)
    · rw [hthreads]
      exact fun t ht => h.writing t (hcomplete ht)
    · rw [ne_eq, ne_eq, hbuf]
      exact fun hne => h.busy fun hnil => hne (List.subset_nil.mp (hnil ▸ hwait))
    · rw [hthreads]
      exact fun t i ht => hremoval t i ht (h.removing t i ht)

/-- On a dead connection nothing but a spurious wake-up reaches a blocked partial writer. -/
theorem Sound.stays_blocked (h : s.Sound) (hs : s.step e = some s')
    (hdead : s.conn.sender.dead = true) {u : ℕ} (hu : u ∈ s.sendComplete)
    (hne : ∀ t, e ≠ .spurious t) : s'.conn.sender.dead = true ∧ u ∈ s'.sendComplete := by
  cases h.step_turn hs with
  | enters t m c hm hcounts ht hown he hother hself hs =>
    have hconn : s'.conn = c := by rw [hs, settle_conn]
    have hmd : m.dead = true := by
      obtain rfl | rfl := hm
      · exact hdead
      · exact hdead
    have hcd : c.sender.dead = true := he.dead hmd
    rw [hconn, hs, ((h.enters hm hcounts ht hown he hother hself).2 hcd).1]
    exact ⟨hcd, hu⟩
  | ends t i c hown ht =>
    rw [h.sendComplete_nil hown ht] at hu
    cases hu
  | waitsAgain t i ht hthread hd => exact absurd (hd.symm.trans hdead) Bool.false_ne_true
  | frame hthreads hwaiters hbuf hremoval hwait hcomplete hlength hsp hcl hkept =>
    obtain ⟨hd, hsame⟩ := hkept hdead
    rw [hsame hne]
    exact ⟨hd, hu⟩

/-- On a dead connection nobody stays blocked until a PDU is out. -/
theorem Sound.woken_step (h : s.Sound) (hspares : s.Spares e) (hs : s.step e = some s')
    (hw : s.conn.sender.dead = true → s.sendComplete = []) (hd : s'.conn.sender.dead = true) :
    s'.sendComplete = [] := by
  cases h.step_turn hs with
  | enters t m c hm hcounts ht hown he hother hself hs =>
    have hconn : s'.conn = c := by rw [hs, settle_conn]
    rw [hconn] at hd
    obtain ⟨hsame, hcase⟩ := (h.enters hm hcounts ht hown he hother hself).2 hd
    rw [hs, hsame]
    obtain ⟨hdead, -⟩ | ⟨hnil, -⟩ := hcase
    · exact hw hdead
    · exact hnil
  | ends t i c hown ht hsender hother hs =>
    rw [hs, (h.ends hown ht hsender hother).1]
  | waitsAgain t i ht hthread hdead hs =>
    rw [hs] at hd
    exact absurd (hdead.symm.trans hd) Bool.false_ne_true
  | frame hthreads hwaiters hbuf hremoval hwait hcomplete hlength hsp =>
    obtain hdead | hnil := hsp hspares hd
    · rw [hw hdead] at hcomplete
      exact List.subset_nil.mp hcomplete
    · exact hnil

/-- If nobody waits for its turn when another than a sender sets `dead_`, then on a dead connection
senders are blocked before the loop only while the one that has set `dead_` is in
`block_remove_fd`. -/
theorem Sound.freed_step (h : s.Sound) (hclear : s.Clear e) (hs : s.step e = some s')
    (hw : s.conn.sender.dead = true → s.sendWait ≠ [] →
      ∃ t i, s.conn.sender.threads t = .removing i)
    (hd : s'.conn.sender.dead = true) (hne : s'.sendWait ≠ []) :
    ∃ t i, s'.conn.sender.threads t = .removing i := by
  cases h.step_turn hs with
  | enters t m c hm hcounts ht hown he hother hself hs =>
    have hconn : s'.conn = c := by rw [hs, settle_conn]
    rw [hconn] at hd ⊢
    rw [hs] at hne
    obtain ⟨-, ⟨hdead, hwait, hup⟩ | ⟨-, i, hi⟩⟩ :=
      (h.enters hm hcounts ht hown he hother hself).2 hd
    · rw [hwait] at hne
      obtain ⟨u, i, hu⟩ := hw hdead hne
      refine ⟨u, i, ?_⟩
      rw [Sender.threads_of_update hup, if_neg, hu]
      rintro rfl
      have hthreads : m.threads = s.conn.sender.threads := by
        obtain rfl | rfl := hm
        · rfl
        · rfl
      rw [hthreads, hu] at hown
      exact hown trivial
    · exact ⟨t, i, hi⟩
  | ends t i c hown ht hsender hother hs =>
    rw [hs, (h.ends hown ht hsender hother).1] at hne
    exact absurd rfl hne
  | waitsAgain t i ht hthread hdead hs =>
    rw [hs] at hd
    exact absurd (hdead.symm.trans hd) Bool.false_ne_true
  | frame hthreads hwaiters hbuf hremoval hwait hcomplete hlength hsp hcl =>
    obtain hdead | hnil := hcl hclear hd
    · rw [hthreads]
      exact hw hdead fun hnil => hne (List.subset_nil.mp (hnil ▸ hwait))
    · exact absurd hnil hne

theorem Sound.start (pipe fd name : ℕ) : (start pipe fd name).Sound where
  owned := ⟨fun _ _ => id, fun hb => absurd rfl hb, fun _ _ ht => ht.elim⟩
  counts := ⟨∅, rfl, fun u => by simp [Waits.start, Conn.start, Sender.start]⟩
  blocked _ ht := by cases ht
  writing _ ht := by cases ht
  single := Nat.zero_le _
  busy hne := absurd rfl hne
  removing _ _ ht := by cases ht

theorem Clear.spares (h : s.Clear e) : s.Spares e := by
  unfold Spares
  split
  · exact h.imp id And.left
  · trivial

/-- Nobody is blocked without a signal that is still to be taken. -/
def Free (s : Waits) : Prop := s.sendWait = [] ∧ s.sendComplete = []

/-- The connection is dead, whoever has set `dead_` has returned, and nobody watches the
descriptor. -/
structure Gone (s : Waits) : Prop where
  alive : s.conn.crashed = false
  dead : s.conn.sender.dead = true
  returned : ∀ t, s.conn.removal t = .none
  unread : s.conn.poll.aio.rfds s.conn.fd = false
  unwritten : s.conn.poll.aio.wfds s.conn.fd = false

/-- On a dead connection a partial writer that runs lets everybody go. -/
theorem Sound.completed_frees (h : s.Sound) (halive : s.conn.crashed = false)
    (hdead : s.conn.sender.dead = true) {t i : ℕ}
    (ht : s.conn.sender.threads t = .completing i) (hfree : t ∉ s.sendComplete) (w : ℕ) :
    ∃ s', s.step (.conn (.completed t) w) = some s' ∧ s'.Free := by
  have hown : (s.conn.sender.threads t).Owns := by rw [ht]; trivial
  have hsettle := (h.ends (c := { s.conn with sender := s.conn.sender.finish t i }) hown hfree rfl
    fun _ _ => rfl).1
  refine ⟨_, ?_, congrArg sendWait hsettle, congrArg sendComplete hsettle⟩
  simp [Waits.step, mayRun, hfree, Conn.step, halive, Sender.step, ht, Sender.complete, hdead,
    after]

end Waits

/-- No sender is stranded on a dead connection if `closeconn` finds no partial writer blocked: the
one that is left to run lets the others go. If besides no sender waits for its turn when another
than a sender sets `dead_`, nobody is blocked at the end. -/
theorem no_sender_stranded (pipe fd name : ℕ) {events : List WaitEvent} {s : Waits}
    (hrun : runs Waits.step events (.start pipe fd name) = some s) (hgone : s.Gone) :
    (Meets Waits.step Waits.Spares events (.start pipe fd name) →
      s.Free ∨ ∃ t ∉ s.sendComplete, ∀ w, ∃ s',
        s.step (.conn (.completed t) w) = some s' ∧ s'.Free) ∧
      (Meets Waits.step Waits.Clear events (.start pipe fd name) → s.Free) := by
  constructor
  · intro hspares
    obtain ⟨hsound, hwoken⟩ := hspares.invariant Waits.step
      (I := fun s => s.Sound ∧ (s.conn.sender.dead = true → s.sendComplete = []))
      (fun _ _ _ h hp hs => ⟨h.1.step hs, h.1.woken_step hp hs h.2⟩)
      ⟨Waits.Sound.start pipe fd name, fun _ => rfl⟩ hrun
    have hnil := hwoken hgone.dead
    by_cases hw : s.sendWait = []
    · exact Or.inl ⟨hw, hnil⟩
    · obtain ⟨t, ht⟩ := hsound.owned.held (hsound.busy hw)
      cases hthread : s.conn.sender.threads t with
      | outside => simp [hthread, Sending.Owns] at ht
      | waiting b => simp [hthread, Sending.Owns] at ht
      | removing i => exact absurd (hgone.returned t) (hsound.removing t i hthread)
      | completing i =>
        have hfree : t ∉ s.sendComplete := by simp [hnil]
        exact Or.inr ⟨t, hfree, hsound.completed_frees hgone.alive hgone.dead hthread hfree⟩
  · intro hclear
    obtain ⟨hsound, hwoken, hfreed⟩ := hclear.invariant Waits.step
      (I := fun s => s.Sound ∧ (s.conn.sender.dead = true → s.sendComplete = []) ∧
        (s.conn.sender.dead = true → s.sendWait ≠ [] →
          ∃ t i, s.conn.sender.threads t = .removing i))
      (fun _ _ _ h hp hs => ⟨h.1.step hs, h.1.woken_step hp.spares hs h.2.1,
        h.1.freed_step hp hs h.2.2⟩)
      ⟨Waits.Sound.start pipe fd name, fun _ => rfl, fun _ hne => absurd rfl hne⟩ hrun
    refine ⟨?_, hwoken hgone.dead⟩
    by_contra hne
    obtain ⟨t, i, ht⟩ := hfreed hgone.dead hne
    exact hsound.removing t i ht (hgone.returned t)

/-- A partial writer that is blocked when the connection dies is so for good: no section of the
connection wakes it. -/
theorem blocked_for_good (pipe fd name : ℕ) {events more : List WaitEvent} {s s' : Waits}
    (hrun : runs Waits.step events (.start pipe fd name) = some s)
    (hdead : s.conn.sender.dead = true) {u : ℕ} (hu : u ∈ s.sendComplete)
    (hmore : runs Waits.step more s = some s') (hne : ∀ e ∈ more, ∀ t, e ≠ .spurious t) :
    u ∈ s'.sendComplete := by
  have hsound := runs_invariant Waits.step (fun _ _ _ h hs => Waits.Sound.step h hs)
    (Waits.Sound.start pipe fd name) hrun
  have hkept : s'.Sound ∧ s'.conn.sender.dead = true ∧ u ∈ s'.sendComplete :=
    runs_invariant_of (I := fun s => s.Sound ∧ s.conn.sender.dead = true ∧ u ∈ s.sendComplete)
      Waits.step (fun _ _ _ h hne hs => ⟨h.1.step hs, h.1.stays_blocked hs h.2.1 h.2.2 hne⟩)
      hne ⟨hsound, hdead, hu⟩ hmore
  exact hkept.2.2

/-- A PDU is half out and another waits for its turn. -/
def halfSent : List WaitEvent :=
  [.conn (.send 0 [0, 0, 0, 0, 1] (.wrote 2)) 0, .conn (.send 1 [0, 0, 0, 0, 2] .again) 0]

/-- `read_cb` finds that the other end is gone. -/
def readDead : List WaitEvent :=
  halfSent ++ [.conn (.poll .loopTop) 0, .conn (.poll .copySets) 0,
    .conn (.poll (.selected (fun _ => true, fun _ => true))) 0, .conn (.poll .invoke) 0,
    .conn (.readCb false) 0]

theorem no_sender_stranded_example :
    ∃ s, runs Waits.step readDead (.start 3 5 1) = some s ∧ s.sendWait = [1] ∧
      (s.Free ∨ ∃ t ∉ s.sendComplete, ∀ w, ∃ s',
        s.step (.conn (.completed t) w) = some s' ∧ s'.Free) := by
  have hrun : ∃ s, runs Waits.step readDead (.start 3 5 1) = some s ∧ s.sendWait = [1] ∧ s.Gone :=
    ⟨_, rfl, rfl, rfl, rfl, fun _ => rfl, rfl, rfl⟩
  obtain ⟨s, hs, hwait, hgone⟩ := hrun
  exact ⟨s, hs, hwait, (no_sender_stranded 3 5 1 hs hgone).1 (by decide)⟩

/-- `closeconn` on a connection with a PDU half out. -/
def closedHalf : List WaitEvent :=
  halfSent ++ [.conn (.closeconn 2) 0, .conn (.removeBegin 2) 0, .conn (.poll .loopTop) 0,
    .conn (.removeEnd 2) 0, .conn (.return 2) 0]

/-- `closeconn` does not signal: both senders stay blocked. -/
theorem closeconn_strands :
    ∃ s, runs Waits.step closedHalf (.start 3 5 1) = some s ∧ s.Gone ∧
      s.sendWait = [1] ∧ s.sendComplete = [0] := by
  refine ⟨_, rfl, ⟨rfl, rfl, fun t => ?_, rfl, rfl⟩, rfl, rfl⟩
  change Function.update (Function.update (Function.update (Function.update
    (fun _ => Removal.none) 2 .due) 2 .begun) 2 .over) 2 .none t = .none
  simp [Function.update_apply]

theorem blocked_for_good_example :
    ∃ s s', runs Waits.step closedHalf (.start 3 5 1) = some s ∧
      runs Waits.step [.conn (.send 3 [0, 0, 0, 0, 3] .again) 0] s = some s' ∧
      0 ∈ s'.sendComplete := by
  have hrun : ∃ s s', runs Waits.step closedHalf (.start 3 5 1) = some s ∧
      runs Waits.step [.conn (.send 3 [0, 0, 0, 0, 3] .again) 0] s = some s' ∧
      s.conn.sender.dead = true ∧ s.sendComplete = [0] :=
    ⟨_, _, rfl, rfl, rfl, rfl⟩
  obtain ⟨s, s', hs, hmore, hdead, hblocked⟩ := hrun
  exact ⟨s, s', hs, hmore, blocked_for_good 3 5 1 hs hdead (hblocked ▸ List.mem_singleton_self 0)
    hmore (by simp)⟩

end Yfs.Rpc
