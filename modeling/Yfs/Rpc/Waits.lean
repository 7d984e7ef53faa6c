import Yfs.Effect.CondVar
import Yfs.Rpc.Shutdown
import Mathlib.Data.Finset.Card

/-! The condition variables of a connection: who waits for its turn to send, who waits until its
PDU is out, and who wakes them when the connection dies. -/
namespace Yfs.Rpc

open Effect

/-- The thread has the write buffer. -/
def Sending.Owns : Sending → Prop
  | .removing _ | .completing _ => True
  | _ => False

namespace Sender

variable {s n : Sender} {t : ℕ} {b : List UInt8} {io : IoWrite} {c : Sending}

/-- `waiters` counts the threads that wait for their turn, together with the `extra` ones. -/
def Counts (s : Sender) (extra : ℕ → Prop) : Prop :=
  ∃ F : Finset ℕ, F.card = s.waiters ∧ ∀ u, u ∈ F ↔ extra u ∨ ∃ b, s.threads u = .waiting b

/-- The buffer is in use exactly when one thread has it. -/
structure Owned (s : Sender) : Prop where
  free : s.wpdu.buf = none → ∀ t, ¬ (s.threads t).Owns
  held : s.wpdu.buf ≠ none → ∃ t, (s.threads t).Owns
  unique : ∀ t u, (s.threads t).Owns → (s.threads u).Owns → t = u

/-- A thread that calls `send` counts while it looks. -/
theorem Counts.enter (h : s.Counts fun _ => False) (ht : s.threads t = .outside) :
    { s with waiters := s.waiters + 1 }.Counts (· = t) := by
  obtain ⟨F, hF, hmem⟩ := h
  have htF : t ∉ F := by
    rw [hmem, ht]
    simp
  refine ⟨insert t F, ?_, fun u => ?_⟩
  · rw [Finset.card_insert_of_notMem htF, hF]
  · rw [Finset.mem_insert, hmem, false_or]

/-- And one that has waited does so already. -/
theorem Counts.wake (h : s.Counts fun _ => False) (ht : s.threads t = .waiting b) :
    s.Counts (· = t) := by
  obtain ⟨F, hF, hmem⟩ := h
  refine ⟨F, hF, fun u => ?_⟩
  rw [hmem]
  by_cases hu : u = t
  · simp [hu, ht]
  · simp [hu]

theorem writepdu_buf {w : Wpdu} {r : Written} (h : writepdu w io = some r) :
    r.wpdu.buf = none ↔ w.buf = none := by
  have hst : w.stamped = none ↔ w.buf = none := by
    unfold Wpdu.stamped
    split_ifs
    · exact Option.map_eq_none_iff
    · exact Iff.rfl
  unfold writepdu at h
  split_ifs at h
  · rw [← Option.some.inj h]
  · cases io with
    | wrote k =>
      dsimp only at h
      split_ifs at h
      rw [← Option.some.inj h]
      exact hst
    | again =>
      rw [← Option.some.inj h]
      exact hst
    | failed =>
      rw [← Option.some.inj h]
      exact hst

theorem writepdu_failed {w : Wpdu} {r : Written} (h : writepdu w io = some r)
    (hok : r.ok = false) : io = .failed := by
  unfold writepdu at h
  split_ifs at h
  · rw [← Option.some.inj h] at hok
    cases hok
  · cases io with
    | failed => rfl
    | again =>
      rw [← Option.some.inj h] at hok
      cases hok
    | wrote k =>
      dsimp only at h
      split_ifs at h
      rw [← Option.some.inj h] at hok
      cases hok

/-- How a section of `send` ends that starts at the loop before the buffer is the thread's own. -/
inductive Entered (s : Sender) (t : ℕ) (n : Sender) : Prop where
  | waits (b : List UInt8) (hn : n = s.move t (.waiting b)) (hdead : s.dead = false)
      (hbuf : s.wpdu.buf ≠ none)
  | refused (hn : n = { s with waiters := s.waiters - 1 }.move t .outside)
      (hdead : s.dead = true)
  | failed (i : ℕ) (hthreads : n.threads = Function.update s.threads t (.removing i))
      (hwaiters : n.waiters = s.waiters - 1) (hnew : n.wpdu.buf ≠ none)
      (hbuf : s.wpdu.buf = none) (hdead : n.dead = true)
  | sent (hthreads : n.threads = Function.update s.threads t .outside)
      (hwaiters : n.waiters = s.waiters - 1) (hnew : n.wpdu.buf = none)
      (hbuf : s.wpdu.buf = none) (hdead : n.dead = false)
      (hret : n.returned.length ≠ s.returned.length) (hold : s.dead = false)
  | started (i : ℕ) (hthreads : n.threads = Function.update s.threads t (.completing i))
      (hwaiters : n.waiters = s.waiters - 1) (hnew : n.wpdu.buf ≠ none)
      (hbuf : s.wpdu.buf = none) (hdead : n.dead = false) (hold : s.dead = false)

theorem enter_cases (h : s.enter t b io = some n) : Entered s t n := by
  unfold enter at h
  split_ifs at h with hwait hdead
  · rw [Bool.and_eq_true, Option.isSome_iff_ne_none, Bool.not_eq_true'] at hwait
    exact .waits b (Option.some.inj h).symm hwait.1 hwait.2
  · exact .refused (Option.some.inj h).symm hdead
  · have hd : s.dead = false := by simpa using hdead
    have hb : s.wpdu.buf = none := by simpa [hd] using hwait
    unfold acquire at h
    split at h
    · cases h
    · next r hr =>
      have hnew : r.wpdu.buf ≠ none := fun hnone =>
        absurd ((writepdu_buf hr).mp hnone) (Option.some_ne_none b)
      split_ifs at h
      · rw [← Option.some.inj h]
        exact .failed _ rfl rfl hnew hb rfl
      · rw [← Option.some.inj h]
        exact .sent rfl rfl rfl hb hd (by simp [finish]) hd
      · rw [← Option.some.inj h]
        exact .started _ rfl rfl hnew hb hd hd

/-- A connection does not come back to life. -/
theorem Entered.dead (h : Entered s t n) (hd : s.dead = true) : n.dead = true := by
  cases h with
  | waits b hn => rw [hn]; exact hd
  | refused hn => rw [hn]; exact hd
  | failed i hthreads hwaiters hnew hbuf hdead => exact hdead
  | sent hthreads hwaiters hnew hbuf hdead hret hold =>
    exact absurd (hold.symm.trans hd) Bool.false_ne_true
  | started i hthreads hwaiters hnew hbuf hdead hold =>
    exact absurd (hold.symm.trans hd) Bool.false_ne_true

theorem threads_of_update {u : ℕ} (h : n.threads = Function.update s.threads t c) :
    n.threads u = if u = t then c else s.threads u := by
  rw [h, Function.update_apply]

/-- A thread that was counted leaves the loop. -/
theorem Counts.leave (hc : s.Counts (· = t)) (hw : n.waiters = s.waiters - 1)
    (hn : n.threads = Function.update s.threads t c) (hne : ∀ b, c ≠ .waiting b) :
    n.Counts fun _ => False := by
  obtain ⟨F, hF, hmem⟩ := hc
  refine ⟨F.erase t, ?_, fun u => ?_⟩
  · rw [Finset.card_erase_of_mem ((hmem t).mpr (Or.inl rfl)), hF, hw]
  · rw [Finset.mem_erase, hmem, threads_of_update hn]
    by_cases hu : u = t
    · simp [hu, hne]
    · simp [hu]

/-- A thread that was counted waits, or waits again. -/
theorem Counts.stay (hc : s.Counts (· = t)) :
    (s.move t (.waiting b)).Counts fun _ => False := by
  obtain ⟨F, hF, hmem⟩ := hc
  refine ⟨F, hF, fun u => ?_⟩
  rw [hmem, threads_move]
  by_cases hu : u = t
  · simp [hu]
  · simp [hu]

theorem Entered.counts (h : Entered s t n) (hc : s.Counts (· = t)) :
    n.Counts fun _ => False := by
  cases h with
  | waits b hn => rw [hn]; exact hc.stay
  | refused hn =>
    rw [hn]
    exact hc.leave rfl rfl fun b hb => by cases hb
  | failed i hthreads hwaiters => exact hc.leave hwaiters hthreads fun b hb => by cases hb
  | sent hthreads hwaiters => exact hc.leave hwaiters hthreads fun b hb => by cases hb
  | started i hthreads hwaiters => exact hc.leave hwaiters hthreads fun b hb => by cases hb

/-- The buffer changes hands: nobody had it, and now at most `t` does. -/
theorem Owned.take (h : s.Owned) (hbuf : s.wpdu.buf = none)
    (hn : n.threads = Function.update s.threads t c) (hc : n.wpdu.buf ≠ none ↔ c.Owns) :
    n.Owned := by
  have hold : ∀ u, (n.threads u).Owns → u = t ∧ c.Owns := by
    intro u hu
    rw [threads_of_update hn] at hu
    split_ifs at hu with hut
    · exact ⟨hut, hu⟩
    · exact absurd hu (h.free hbuf u)
  refine ⟨fun hb u hu => ?_, fun hb => ⟨t, ?_⟩, fun u v hu hv => ?_⟩
  · exact hc.mpr (hold u hu).2 hb
  · rw [threads_of_update hn, if_pos rfl]
    exact hc.mp hb
  · rw [(hold u hu).1, (hold v hv).1]

/-- A thread without the buffer moves on without it. -/
theorem Owned.move (h : s.Owned) (ht : ¬ (s.threads t).Owns) (hc : ¬ c.Owns) :
    (s.move t c).Owned := by
  have hsame : ∀ u, ((s.move t c).threads u).Owns ↔ (s.threads u).Owns := by
    intro u
    rw [threads_move]
    split_ifs with hu
    · simp [hu, ht, hc]
    · exact Iff.rfl
  refine ⟨fun hb u => ?_, fun hb => ?_, fun u v => ?_⟩
  · rw [hsame]
    exact h.free hb u
  · obtain ⟨u, hu⟩ := h.held hb
    exact ⟨u, (hsame u).mpr hu⟩
  · rw [hsame, hsame]
    exact h.unique u v

/-- The thread that has the buffer gives it up. -/
theorem Owned.finish (h : s.Owned) {i : ℕ} (ht : (s.threads t).Owns) : (s.finish t i).Owned := by
  have hnone : ∀ u, ¬ ((s.finish t i).threads u).Owns := by
    intro u hu
    rw [threads_finish] at hu
    split_ifs at hu with hut
    · exact hu
    · exact hut (h.unique u t hu ht)
  exact ⟨fun _ => hnone, fun hb => absurd rfl hb, fun u _ hu => absurd hu (hnone u)⟩

theorem Owned.waiters (h : s.Owned) (k : ℕ) : { s with waiters := k }.Owned := ⟨h.1, h.2, h.3⟩

theorem Entered.owned (h : Entered s t n) (ho : s.Owned) (ht : ¬ (s.threads t).Owns) :
    n.Owned := by
  cases h with
  | waits b hn => rw [hn]; exact ho.move ht id
  | refused hn => rw [hn]; exact (ho.waiters _).move ht id
  | failed i hthreads hwaiters hnew hbuf =>
    exact ho.take hbuf hthreads (by simp [hnew, Sending.Owns])
  | sent hthreads hwaiters hnew hbuf =>
    exact ho.take hbuf hthreads (by simp [hnew, Sending.Owns])
  | started i hthreads hwaiters hnew hbuf =>
    exact ho.take hbuf hthreads (by simp [hnew, Sending.Owns])

end Sender

/-- A connection, with the threads that wait on `send_wait_` and on `send_complete_` and have not
been woken. -/
structure Waits where
  conn : Conn
  sendWait : CondVar ℕ
  sendComplete : CondVar ℕ

/-- A section of the connection, with the thread that a signal in it wakes; or a wake-up without a
signal. -/
inductive WaitEvent where
  | conn (e : ConnEvent) (w : ℕ)
  | spurious (t : ℕ)

namespace Waits

def start (pipe fd name : ℕ) : Waits := ⟨.start pipe fd name, [], []⟩

/-- What the end of `send` does for those that wait for their turn. -/
def broadcast (s : Waits) : Waits :=
  if 0 < s.conn.sender.waiters then { s with sendWait := [] } else s

/-- A section of `send` is over: the thread waits, or it goes to `block_remove_fd`, or returns. -/
def settle (s : Waits) (t : ℕ) (n : Conn) : Waits :=
  match n.sender.threads t with
  | .waiting _ => { s with conn := n, sendWait := s.sendWait.block t }
  | .completing _ => { s with conn := n, sendComplete := s.sendComplete.block t }
  | .removing _ => { s with conn := n }
  | .outside =>
    -- a thread that has found the connection dead returns before the end of `send`
    if n.sender.returned.length = s.conn.sender.returned.length then { s with conn := n }
    else { s with conn := n }.broadcast

/-- `read_cb` signals when it has set `dead_`. -/
def readCb (s : Waits) (n : Conn) (w : ℕ) : Waits :=
  if n.sender.dead = s.conn.sender.dead then { s with conn := n }
  else { s with conn := n, sendComplete := s.sendComplete.signal w }

/-- `write_cb` signals when there is a PDU, and its write has failed or all of it is out. -/
def writeCb (s : Waits) (n : Conn) (w : ℕ) : Waits :=
  if s.conn.sender.dead = true ∨ s.conn.sender.wpdu.sz = 0 then { s with conn := n }
  else if n.sender.dead = false ∧ n.sender.wpdu.solong < n.sender.wpdu.sz then
    { s with conn := n }
  else { s with conn := n, sendComplete := s.sendComplete.signal w }

/-- A thread that waits runs only once it has been woken. -/
def mayRun (s : Waits) : ConnEvent → Bool
  | .woken t _ => t ∉ s.sendWait
  | .completed t => t ∉ s.sendComplete
  | _ => true

def after (s : Waits) (e : ConnEvent) (w : ℕ) (n : Conn) : Waits :=
  match e with
  | .send t _ _ | .woken t _ | .completed t | .return t => s.settle t n
  | .readCb _ => s.readCb n w
  | .writeCb _ => s.writeCb n w
  | _ => { s with conn := n }

def step (s : Waits) : WaitEvent → Option Waits
  | .conn e w => if s.mayRun e then (s.conn.step e).map (s.after e w) else none
  | .spurious t => some { s with
      sendWait := s.sendWait.stir t
      sendComplete := s.sendComplete.stir t }

/-- `closeconn` finds nobody blocked until its PDU is out. -/
def Spares (s : Waits) : WaitEvent → Prop
  | .conn (.closeconn _) _ => s.conn.sender.dead = true ∨ s.sendComplete = []
  | _ => True

/-- Whoever but a sender sets `dead_` finds nobody blocked for whom it does not signal. -/
def Clear (s : Waits) : WaitEvent → Prop
  | .conn (.closeconn _) _ =>
    s.conn.sender.dead = true ∨ s.sendComplete = [] ∧ s.sendWait = []
  | .conn (.readCb false) _ | .conn (.writeCb .failed) _ =>
    s.conn.sender.dead = true ∨ s.sendWait = []
  | _ => True

instance (s : Waits) (e : WaitEvent) : Decidable (s.Spares e) := by
  unfold Spares
  split <;> infer_instance

instance (s : Waits) (e : WaitEvent) : Decidable (s.Clear e) := by
  unfold Clear
  split <;> infer_instance

/-- Who can be blocked, and who then has the buffer. -/
structure Sound (s : Waits) : Prop where
  owned : s.conn.sender.Owned
  counts : s.conn.sender.Counts fun _ => False
  blocked : ∀ t ∈ s.sendWait, ∃ b, s.conn.sender.threads t = .waiting b
  writing : ∀ t ∈ s.sendComplete, ∃ i, s.conn.sender.threads t = .completing i
  single : s.sendComplete.length ≤ 1
  busy : s.sendWait ≠ [] → s.conn.sender.wpdu.buf ≠ none
  removing : ∀ t i, s.conn.sender.threads t = .removing i → s.conn.removal t ≠ .none

/-- What one event can do. -/
inductive Turn (s : Waits) (e : WaitEvent) (s' : Waits) : Prop where
  /-- A thread comes to the loop before the buffer is its own. -/
  | enters (t : ℕ) (m : Sender) (c : Conn)
      (hm : m = s.conn.sender ∨ m = { s.conn.sender with waiters := s.conn.sender.waiters + 1 })
      (hcounts : m.Counts (· = t)) (ht : t ∉ s.sendWait) (hown : ¬ (m.threads t).Owns)
      (he : m.Entered t c.sender) (hother : ∀ u, u ≠ t → c.removal u = s.conn.removal u)
      (hself : ∀ i, c.sender.threads t = .removing i → c.removal t ≠ .none)
      (hs : s' = s.settle t c)
  /-- The thread that has the buffer comes to the end of `send`. -/
  | ends (t i : ℕ) (c : Conn) (hown : (s.conn.sender.threads t).Owns) (ht : t ∉ s.sendComplete)
      (hsender : c.sender = s.conn.sender.finish t i)
      (hother : ∀ u, u ≠ t → c.removal u = s.conn.removal u) (hs : s' = s.settle t c)
  /-- The thread that has the buffer waits again until its PDU is out. -/
  | waitsAgain (t i : ℕ) (ht : t ∉ s.sendComplete)
      (hthread : s.conn.sender.threads t = .completing i) (hdead : s.conn.sender.dead = false)
      (hs : s' = { s with sendComplete := s.sendComplete.block t })
  /-- No thread of `send` moves. -/
  | frame (hthreads : s'.conn.sender.threads = s.conn.sender.threads)
      (hwaiters : s'.conn.sender.waiters = s.conn.sender.waiters)
      (hbuf : s'.conn.sender.wpdu.buf = none ↔ s.conn.sender.wpdu.buf = none)
      (hremoval : ∀ t i, s.conn.sender.threads t = .removing i → s.conn.removal t ≠ .none →
        s'.conn.removal t ≠ .none)
      (hwait : s'.sendWait ⊆ s.sendWait) (hcomplete : s'.sendComplete ⊆ s.sendComplete)
      (hlength : s'.sendComplete.length ≤ s.sendComplete.length)
      (hspares : s.Spares e → s'.conn.sender.dead = true →
        s.conn.sender.dead = true ∨ s'.sendComplete = [])
      (hclear : s.Clear e → s'.conn.sender.dead = true →
        s.conn.sender.dead = true ∨ s'.sendWait = [])
      (hkept : s.conn.sender.dead = true → s'.conn.sender.dead = true ∧
        ((∀ t, e ≠ .spurious t) → s'.sendComplete = s.sendComplete))

variable {s s' : Waits} {e : WaitEvent}

theorem afterSend_spec {c c' : Conn} {t : ℕ} {n : Sender} (h : c.afterSend t n = some c') :
    c'.sender = n ∧ (∀ u, u ≠ t → c'.removal u = c.removal u) ∧
      ∀ i, c'.sender.threads t = .removing i → c'.removal t ≠ .none := by
  unfold Conn.afterSend at h
  split at h
  · next i hi =>
    obtain ⟨p, -, rfl⟩ := Option.map_eq_some_iff.mp h
    refine ⟨rfl, fun _ _ => rfl, fun j hj => ?_⟩
    rw [hi] at hj
    cases hj
  · rw [← Option.some.inj h]
    refine ⟨rfl, fun u hu => Function.update_of_ne hu _ _, fun _ _ => ?_⟩
    simp [Conn.setRemoval]
  · next hc hr =>
    rw [← Option.some.inj h]
    exact ⟨rfl, fun _ _ => rfl, fun i hi => absurd hi (hr i)⟩

/-- The removal of a thread that is not in `send`, or one that goes on, leaves the others' alone. -/
theorem removal_kept {c : Conn} {t : ℕ} {r : Removal}
    (h : r ≠ .none ∨ ∀ i, c.sender.threads t ≠ .removing i) (u i : ℕ)
    (hu : c.sender.threads u = .removing i) (hr : c.removal u ≠ .none) :
    (c.setRemoval t r).removal u ≠ .none := by
  simp only [Conn.setRemoval, Function.update_apply]
  split_ifs with hut
  · obtain hr | hno := h
    · exact hr
    · exact absurd (hut ▸ hu) (hno i)
  · exact hr

theorem Turn.quiet {c : Conn} (hsender : c.sender = s.conn.sender)
    (hremoval : ∀ t i, s.conn.sender.threads t = .removing i → s.conn.removal t ≠ .none →
      c.removal t ≠ .none) : s.Turn e { s with conn := c } :=
  .frame (by rw [hsender]) (by rw [hsender]) (by rw [hsender]) hremoval (fun _ => id) (fun _ => id)
    le_rfl (fun _ hd => Or.inl (by rwa [← hsender])) (fun _ hd => Or.inl (by rwa [← hsender]))
    fun hd => ⟨by rwa [hsender], fun _ => rfl⟩

/-- A callback signals: the one partial writer that can be blocked is woken. -/
theorem Sound.signal_turn (h : s.Sound) (hdead : s.conn.sender.dead = false) {c : Conn} (w : ℕ)
    (hthreads : c.sender.threads = s.conn.sender.threads)
    (hwaiters : c.sender.waiters = s.conn.sender.waiters)
    (hbuf : c.sender.wpdu.buf = none ↔ s.conn.sender.wpdu.buf = none)
    (hremoval : c.removal = s.conn.removal)
    (hclear : s.Clear e → c.sender.dead = true → s.conn.sender.dead = true ∨ s.sendWait = []) :
    s.Turn e { s with conn := c, sendComplete := s.sendComplete.signal w } := by
  apply Turn.frame hthreads hwaiters hbuf
  · intro t i _ ht
    rwa [hremoval]
  · exact fun _ => id
  · exact fun u hu => CondVar.mem_of_mem_signal hu
  · simp [CondVar.length_signal]
  · exact fun _ _ => Or.inr (CondVar.signal_eq_nil h.single w)
  · exact hclear
  · exact fun hd => absurd (hdead.symm.trans hd) Bool.false_ne_true

theorem Sound.readCb_turn (h : s.Sound) {c : Conn} {ok : Bool} (w : ℕ)
    (hsender : c.sender = (s.conn.readCb ok).sender) (hremoval : c.removal = s.conn.removal) :
    s.Turn (.conn (.readCb ok) w) (s.readCb c w) := by
  unfold Conn.readCb at hsender
  unfold readCb
  split_ifs at hsender with hdead
  · rw [if_pos (by rw [hsender])]
    exact .quiet hsender fun u i _ hu => by rwa [hremoval]
  · simp only [Bool.or_eq_true, not_or, Bool.not_eq_true] at hdead
    obtain ⟨hd, rfl⟩ := hdead
    rw [if_neg (by simp [hsender, hd])]
    apply h.signal_turn hd w
    · rw [hsender]
    · rw [hsender]
    · rw [hsender]
    · exact hremoval
    · exact fun hclear _ => hclear

theorem Sound.writeCb_turn (h : s.Sound) {c m : Conn} {io : IoWrite} (w : ℕ)
    (hm : s.conn.writeCb io = some m) (hsender : c.sender = m.sender)
    (hremoval : c.removal = m.removal) : s.Turn (.conn (.writeCb io) w) (s.writeCb c w) := by
  unfold Conn.writeCb at hm
  unfold writeCb
  by_cases hnone : s.conn.sender.dead = true ∨ s.conn.sender.wpdu.sz = 0
  · have hsame : m.sender = s.conn.sender ∧ m.removal = s.conn.removal := by
      split_ifs at hm
      · rw [← Option.some.inj hm]
        exact ⟨rfl, rfl⟩
      · rw [← Option.some.inj hm]
        exact ⟨rfl, rfl⟩
      · simp_all
    rw [if_pos hnone]
    apply Turn.quiet
    · rw [hsender, hsame.1]
    · intro t i _ ht
      rwa [hremoval, hsame.2]
  · rw [if_neg hnone]
    rw [not_or] at hnone
    rw [if_neg hnone.1, if_neg hnone.2] at hm
    split at hm
    · cases hm
    · next n hn =>
      obtain rfl := Option.some.inj hm
      have hd : s.conn.sender.dead = false := by simpa using hnone.1
      simp only [Sender.writeCb, if_neg hnone.1, if_neg hnone.2] at hn
      split at hn
      · cases hn
      · next r hr =>
        obtain rfl := Option.some.inj hn
        have hbuf := Sender.writepdu_buf hr
        split_ifs with hmore
        · apply Turn.frame
          · rw [hsender]
          · rw [hsender]
          · rw [hsender]
            exact hbuf
          · intro t i _ ht
            rwa [hremoval]
          · exact fun _ => id
          · exact fun _ => id
          · exact le_rfl
          · exact fun _ hdead => absurd (hmore.1.symm.trans hdead) Bool.false_ne_true
          · exact fun _ hdead => absurd (hmore.1.symm.trans hdead) Bool.false_ne_true
          · exact fun hdead => absurd (hd.symm.trans hdead) Bool.false_ne_true
        · apply h.signal_turn hd w
          · rw [hsender]
          · rw [hsender]
          · rw [hsender]
            exact hbuf
          · exact hremoval
          · intro hclear hdead
            rw [hsender] at hdead
            have hfail : io = .failed := Sender.writepdu_failed hr (by simpa using hdead)
            subst hfail
            exact hclear

theorem Sound.step_turn (h : s.Sound) (hs : s.step e = some s') : s.Turn e s' := by
  cases e with
  | spurious t =>
    rw [← Option.some.inj hs]
    exact .frame rfl rfl Iff.rfl (fun _ _ _ => id) (fun u hu => CondVar.mem_of_mem_stir hu)
      (fun u hu => CondVar.mem_of_mem_stir hu) (CondVar.length_stir_le _ _) (fun _ => Or.inl)
      (fun _ => Or.inl) fun hd => ⟨hd, fun hne => absurd rfl (hne t)⟩
  | conn e w =>
    simp only [step, Option.ite_none_right_eq_some, Option.map_eq_some_iff] at hs
    obtain ⟨hmay, c, hc, rfl⟩ := hs
    unfold Conn.step at hc
    split at hc
    · cases hc
    cases e with
    | send t b io =>
      dsimp only at hc
      split_ifs at hc
      obtain ⟨n, hn, hc⟩ := Option.bind_eq_some_iff.mp hc
      obtain ⟨rfl, hother, hself⟩ := afterSend_spec hc
      simp only [Sender.step] at hn
      split at hn
      · next ht =>
        split_ifs at hn
        refine .enters t _ c (Or.inr rfl) (h.counts.enter ht) ?_ ?_ (Sender.enter_cases hn) hother
          hself rfl
        · intro hmem
          obtain ⟨b', hb'⟩ := h.blocked t hmem
          rw [ht] at hb'
          cases hb'
        · simp [ht, Sending.Owns]
      · cases hn
    | woken t io =>
      obtain ⟨n, hn, hc⟩ := Option.bind_eq_some_iff.mp hc
      obtain ⟨rfl, hother, hself⟩ := afterSend_spec hc
      simp only [Sender.step] at hn
      split at hn
      · next b ht =>
        refine .enters t _ c (Or.inl rfl) (h.counts.wake ht) ?_ ?_ (Sender.enter_cases hn) hother
          hself rfl
        · simpa [mayRun] using hmay
        · simp [ht, Sending.Owns]
      · cases hn
    | completed t =>
      obtain ⟨n, hn, rfl⟩ := Option.map_eq_some_iff.mp hc
      simp only [Sender.step] at hn
      have hfree : t ∉ s.sendComplete := by simpa [mayRun] using hmay
      split at hn
      · next i ht =>
        rw [← Option.some.inj hn]
        have hown : (s.conn.sender.threads t).Owns := by rw [ht]; trivial
        unfold Sender.complete
        split_ifs with hmore
        · refine .waitsAgain t i hfree ht ?_ ?_
          · simp only [Bool.and_eq_true, Bool.not_eq_true'] at hmore
            exact hmore.1.1
          · simp [after, settle, ht]
        · exact .ends t i { s.conn with sender := s.conn.sender.finish t i } hown hfree rfl
            (fun _ _ => rfl) rfl
      · cases hn
    | closeconn t =>
      dsimp only at hc
      split at hc
      · next ht hr =>
        split_ifs at hc with hd
        · obtain rfl := Option.some.inj hc
          exact .quiet rfl fun _ _ _ => id
        · rw [← Option.some.inj hc]
          exact .frame rfl rfl Iff.rfl (removal_kept (Or.inr (by simp [ht]))) (fun _ => id)
            (fun _ => id) le_rfl (fun hsp _ => hsp) (fun hcl _ => hcl.imp id And.right)
            fun _ => ⟨rfl, fun _ => rfl⟩
      · cases hc
    | removeBegin t =>
      dsimp only at hc
      split_ifs at hc
      obtain ⟨p, -, rfl⟩ := Option.map_eq_some_iff.mp hc
      exact .quiet rfl (removal_kept (Or.inl (by decide)))
    | removeEnd t =>
      dsimp only at hc
      split_ifs at hc
      obtain ⟨p, -, rfl⟩ := Option.map_eq_some_iff.mp hc
      exact .quiet rfl (removal_kept (Or.inl (by decide)))
    | «return» t =>
      dsimp only at hc
      split_ifs at hc
      unfold Conn.returned at hc
      split at hc
      · next i ht =>
        rw [← Option.some.inj hc]
        have hown : (s.conn.sender.threads t).Owns := by rw [ht]; trivial
        refine .ends t i _ hown ?_ rfl (fun u hu => Function.update_of_ne hu _ _) rfl
        intro hmem
        obtain ⟨j, hj⟩ := h.writing t hmem
        rw [ht] at hj
        cases hj
      · next ht =>
        obtain rfl := Option.some.inj hc
        have hsame : s.after (.return t) w (s.conn.setRemoval t .none) =
            { s with conn := s.conn.setRemoval t .none } := by
          simp [after, settle, Conn.setRemoval, ht]
        rw [hsame]
        exact .quiet rfl (removal_kept (Or.inr (by simp [ht])))
      · cases hc
    | readCb ok =>
      dsimp only at hc
      split at hc
      · split_ifs at hc
        obtain rfl := Option.some.inj hc
        refine h.readCb_turn w rfl ?_
        change (s.conn.readCb ok).removal = s.conn.removal
        unfold Conn.readCb
        split_ifs
        · rfl
        · rfl
      · cases hc
    | writeCb io =>
      dsimp only at hc
      split at hc
      · split_ifs at hc
        obtain ⟨m, hm, rfl⟩ := Option.map_eq_some_iff.mp hc
        exact h.writeCb_turn w hm rfl rfl
      · cases hc
    | poll e =>
      dsimp only at hc
      split_ifs at hc
      obtain ⟨p, -, rfl⟩ := Option.map_eq_some_iff.mp hc
      exact .quiet rfl fun _ _ _ => id

end Waits

end Yfs.Rpc
