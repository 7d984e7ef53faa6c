import Yfs.Rpc.Shutdown

/-! When `write_cb` can find its connection dead. -/
namespace Yfs.Rpc

open Effect

/-- The poll thread has `write_cb` of a descriptor before it. -/
def Poll.WillWrite (fd : ℕ) : Poll → Prop
  | .top => False
  | .entering => False
  | .selecting c => c.wfds fd = true
  | .calling _ writable => fd ∈ writable
  | .running g flag _ writable => g = fd ∧ flag = .wronly ∨ fd ∈ writable

/-- The poll thread has called `write_cb`, which has not got the lock yet. -/
def Poll.Writing (fd : ℕ) : Poll → Prop
  | .running g flag _ _ => g = fd ∧ flag = .wronly
  | _ => False

instance (fd : ℕ) (p : Poll) : Decidable (p.WillWrite fd) := by
  unfold Poll.WillWrite
  split <;> infer_instance

namespace PollMgr

variable {p p' : PollMgr} {fd : ℕ} {e : PollEvent}

/-- A descriptor is watched for writing, or was when the poll thread looked. -/
def Armed (fd : ℕ) (p : PollMgr) : Prop := p.aio.wfds fd = true ∨ p.poll.WillWrite fd

instance (fd : ℕ) (p : PollMgr) : Decidable (Armed fd p) := inferInstanceAs (Decidable (_ ∨ _))

/-- No `write_cb` will be called for a descriptor until a callback is added. -/
def Disarmed (fd : ℕ) (p : PollMgr) : Prop :=
  ¬ Armed fd p ∨ p.callbacks fd = none ∧ ¬ p.poll.Writing fd

theorem wfds_unwatchFd {a : SelectAIO} {g : ℕ} {flag : PollFlag} (h : a.wfds fd = false) :
    (a.unwatchFd g flag).2.wfds fd = false := by
  have hclear : (a.clear g flag).wfds fd = false := by
    simp only [ SelectAIO.clear]
    split_ifs
    · exact h
    · exact SelectAIO.clr_eq_false h
  unfold SelectAIO.unwatchFd
  dsimp only
  split_ifs
  · exact hclear
  · exact hclear

theorem wfds_watchFd {a : SelectAIO} {g : ℕ} {flag : PollFlag} (hg : fd ≠ g)
    (h : a.wfds fd = false) : (a.watchFd g flag).wfds fd = false := by
  simp only [ SelectAIO.watchFd, FdSet.set]
  split_ifs
  · exact h
  · rw [Function.update_of_ne hg, h]

theorem not_armed_iff : ¬ Armed fd p ↔ p.aio.wfds fd = false ∧ ¬ p.poll.WillWrite fd := by
  unfold Armed
  rw [not_or, Bool.not_eq_true]

/-- The next callback is one of those that were to come, and one that is still there. -/
theorem invoke_writes (p : PollMgr) (fd : ℕ) (readable writable : List ℕ) :
    ((p.invoke readable writable).poll.WillWrite fd → fd ∈ writable) ∧
      ((p.invoke readable writable).poll.Writing fd → p.callbacks fd ≠ none) := by
  cases readable with
  | cons g readable =>
    simp only [invoke]
    split_ifs
    · exact ⟨fun hw => hw.resolve_left (by simp), fun hw => absurd hw.2 (by simp)⟩
    · exact ⟨id, False.elim⟩
  | nil =>
    cases writable with
    | nil => exact ⟨False.elim, False.elim⟩
    | cons g writable =>
      simp only [invoke]
      split_ifs with hg
      · refine ⟨fun hw => ?_, fun hw => ?_⟩
        · obtain ⟨rfl, -⟩ | hw := hw
          · exact List.mem_cons_self
          · exact List.mem_cons_of_mem _ hw
        · rw [← hw.1]
          exact Option.isSome_iff_ne_none.mp hg
      · exact ⟨List.mem_cons_of_mem _, False.elim⟩

/-- What one event of the manager does to the sets, the callbacks and the poll thread, as far as
they concern a descriptor for which it adds nothing. -/
theorem step_frame (hs : p.step e = some p') (hadd : ¬ Adds fd e) :
    (p.aio.wfds fd = false → p'.aio.wfds fd = false) ∧
      (p.callbacks fd = none → p'.callbacks fd = none) ∧
      (¬ Armed fd p → ¬ p'.poll.WillWrite fd) ∧
      (p.callbacks fd = none → ¬ p.poll.Writing fd → ¬ p'.poll.Writing fd) := by
  cases turns_of_step hs with
  | @addCallback g ch flag =>
    have hg : fd ≠ g := fun hg => hadd ⟨flag, ch, by rw [hg]⟩
    exact ⟨wfds_watchFd hg, fun hc => (Function.update_of_ne hg _ _).trans hc,
      fun ha => (not_armed_iff.mp ha).2, fun _ hw => hw⟩
  | @delCallback g flag =>
    refine ⟨wfds_unwatchFd, fun hc => ?_, fun ha => (not_armed_iff.mp ha).2, fun _ hw => hw⟩
    simp only [delCallback]
    split_ifs
    · rw [Function.update_apply]
      split_ifs
      · rfl
      · exact hc
    · exact hc
  | removeBegin hfree =>
    exact ⟨wfds_unwatchFd, id, fun ha => (not_armed_iff.mp ha).2, fun _ hw => hw⟩
  | removeEnd hwoken =>
    refine ⟨id, fun hc => ?_, fun ha => (not_armed_iff.mp ha).2, fun _ hw => hw⟩
    dsimp only
    rw [Function.update_apply]
    split_ifs
    · rfl
    · exact hc
  | loopTop hpoll =>
    unfold PollMgr.loopTop
    split_ifs
    · exact ⟨id, id, fun _ => id, fun _ _ => id⟩
    · exact ⟨id, id, fun _ => id, fun _ _ => id⟩
  | copySets hpoll => exact ⟨id, id, fun ha hw => ha (Or.inl hw), fun _ _ => id⟩
  | @selected ready c hpoll =>
    refine ⟨id, id, fun ha hw => ?_, fun _ _ => id⟩
    have hno := (not_armed_iff.mp ha).2
    rw [hpoll] at hno
    have hfalse : c.wfds fd = false := by simpa [Poll.WillWrite] using hno
    have hmem : fd ∈ ( SelectAIO.waitReady p.aio.pipe c ready).2 := hw
    simp [ SelectAIO.waitReady, hfalse] at hmem
  | interrupted hpoll => exact ⟨id, id, fun _ => List.not_mem_nil, fun _ _ => id⟩
  | @invoke readable writable hpoll =>
    obtain ⟨hwill, hwriting⟩ := p.invoke_writes fd readable writable
    refine ⟨?_, ?_, fun ha hw => ?_, fun hn _ hw => hwriting hw hn⟩
    · rw [(p.invoke_frame readable writable).1]
      exact id
    · rw [callbacks_invoke]
      exact id
    · have hno := (not_armed_iff.mp ha).2
      rw [hpoll] at hno
      exact hno (hwill hw)
  | «return» hpoll =>
    refine ⟨id, id, fun ha hw => ?_, fun _ _ => id⟩
    have hno := (not_armed_iff.mp ha).2
    rw [hpoll] at hno
    exact hno (Or.inr hw)

theorem Disarmed.step (h : Disarmed fd p) (hs : p.step e = some p') (hadd : ¬ Adds fd e) :
    Disarmed fd p' := by
  obtain ⟨hwatch, hcall, hwill, hwriting⟩ := step_frame hs hadd
  obtain ha | ⟨hn, hw⟩ := h
  · exact Or.inl (not_armed_iff.mpr ⟨hwatch (not_armed_iff.mp ha).1, hwill ha⟩)
  · exact Or.inr ⟨hcall hn, hwriting hn hw⟩

theorem callbacks_delCallback (p : PollMgr) (fd : ℕ) :
    (p.delCallback fd .rdwr).callbacks fd = none := by
  have hunset : (p.aio.unwatchFd fd .rdwr).1 = true := by
    change (p.aio.clear fd .rdwr).unset fd = true
    rw [← SelectAIO.unset_unwatchFd]
    exact SelectAIO.unset_unwatchFd_self
  rw [delCallback, hunset]
  exact Function.update_self ..

end PollMgr

namespace Sender

variable {s n : Sender} {t : ℕ} {b : List UInt8} {io : IoWrite}

/-- What a section of `send` can do to `dead_`. -/
theorem enter_dead (hs : s.enter t b io = some n) :
    (s.dead = true → n.dead = true ∧ n.threads t = .outside) ∧
      (s.dead = false → n.dead = true →
        io = .failed ∧ s.wpdu.buf = none ∧ ∃ i, n.threads t = .removing i) := by
  unfold enter at hs
  split_ifs at hs with hwait hdead
  · rw [← Option.some.inj hs]
    have hd : s.dead = false := by
      cases hd : s.dead with
      | false => rfl
      | true =>
        rw [hd] at hwait
        cases hwait
    exact ⟨fun h => absurd (hd.symm.trans h) Bool.false_ne_true,
      fun h h' => absurd (h.symm.trans h') Bool.false_ne_true⟩
  · rw [← Option.some.inj hs]
    exact ⟨fun h => ⟨h, Function.update_self ..⟩,
      fun h => absurd (h.symm.trans hdead) Bool.false_ne_true⟩
  · have hd : s.dead = false := by simpa using hdead
    have hb : s.wpdu.buf = none := by simpa [hd] using hwait
    refine ⟨fun h => absurd h hdead, fun _ hn => ?_⟩
    unfold acquire at hs
    split at hs
    · cases hs
    · next r hr =>
      split_ifs at hs with hok
      · rw [← Option.some.inj hs]
        refine ⟨?_, hb, s.acquired.length, Function.update_self ..⟩
        unfold writepdu at hr
        split_ifs at hr
        · rw [← Option.some.inj hr] at hok
          cases hok
        · cases io with
          | failed => rfl
          | again =>
            rw [← Option.some.inj hr] at hok
            cases hok
          | wrote k =>
            dsimp only at hr
            split_ifs at hr
            rw [← Option.some.inj hr] at hok
            cases hok
      · rw [← Option.some.inj hs] at hn
        exact absurd (hd.symm.trans hn) Bool.false_ne_true
      · rw [← Option.some.inj hs] at hn
        exact absurd (hd.symm.trans hn) Bool.false_ne_true

end Sender

namespace Conn

variable {s s' : Conn}

/-- `closeconn` and a send that fails set `dead_` only while the descriptor is not watched for
writing and the poll thread does not have its `write_cb` before it. -/
def Clear (s : Conn) : ConnEvent → Prop
  | .closeconn _ => s.sender.dead = true ∨ ¬ PollMgr.Armed s.fd s.poll
  | .send _ _ io | .woken _ io =>
    io = .failed → s.sender.dead = false → s.sender.wpdu.buf = none →
      ¬ PollMgr.Armed s.fd s.poll
  | _ => True

instance (s : Conn) (e : ConnEvent) : Decidable (Clear s e) := by
  unfold Clear
  split <;> infer_instance

/-- A dead connection gets no `write_cb`. -/
structure Quiet (s : Conn) : Prop where
  alive : s.crashed = false
  dead : s.sender.dead = true → PollMgr.Disarmed s.fd s.poll

theorem Quiet.afterSend (h : s.Quiet) {t : ℕ} {b : List UInt8} {io : IoWrite} {m n : Sender}
    (hm : m.dead = s.sender.dead ∧ m.wpdu = s.sender.wpdu) (hn : m.enter t b io = some n)
    (hclear : io = .failed → s.sender.dead = false → s.sender.wpdu.buf = none →
      ¬ PollMgr.Armed s.fd s.poll) (hs : s.afterSend t n = some s') : s'.Quiet := by
  obtain ⟨hdead, hfail⟩ := Sender.enter_dead hn
  rw [hm.1] at hdead hfail
  rw [hm.2] at hfail
  unfold Conn.afterSend at hs
  cases hd : s.sender.dead with
  | true =>
    obtain ⟨-, hout⟩ := hdead hd
    rw [hout] at hs
    rw [← Option.some.inj hs]
    exact ⟨h.alive, fun _ => h.dead hd⟩
  | false =>
    have hstill : n.dead = true → (∃ i, n.threads t = .removing i) ∧
        PollMgr.Disarmed s.fd s.poll := by
      intro hnd
      obtain ⟨hio, hb, hrem⟩ := hfail hd hnd
      exact ⟨hrem, Or.inl (hclear hio hd hb)⟩
    split at hs
    · next i hi =>
      obtain ⟨p, hp, rfl⟩ := Option.map_eq_some_iff.mp hs
      refine ⟨h.alive, fun hnd => ?_⟩
      obtain ⟨⟨j, hj⟩, -⟩ := hstill hnd
      rw [hi] at hj
      cases hj
    · rw [← Option.some.inj hs]
      exact ⟨h.alive, fun hnd => (hstill hnd).2⟩
    · rw [← Option.some.inj hs]
      exact ⟨h.alive, fun hnd => (hstill hnd).2⟩

/-- The poll thread comes back from a callback of the connection. -/
theorem resume_disarmed {flag : PollFlag} {readable writable : List ℕ}
    (hp : s.poll.poll = .running s.fd flag readable writable)
    (h : PollMgr.Disarmed s.fd s.poll) :
    PollMgr.Disarmed s.fd (s.resume readable writable).poll := by
  apply h.step (e := .return) _ fun hadd => by
    obtain ⟨_, _, hadd⟩ := hadd
    cases hadd
  rw [PollMgr.step, hp]
  rfl

theorem Quiet.readCb (h : s.Quiet) {flag : PollFlag} {readable writable : List ℕ}
    (hp : s.poll.poll = .running s.fd flag readable writable) (ok : Bool) :
    ((s.readCb ok).resume readable writable).Quiet := by
  unfold Conn.readCb
  split_ifs with hd
  · exact ⟨h.alive, fun hdead => resume_disarmed (s := s) hp (h.dead hdead)⟩
  · exact ⟨h.alive, fun _ => Or.inr ⟨PollMgr.callbacks_delCallback _ _, id⟩⟩

theorem Quiet.writeCb (h : s.Quiet) {io : IoWrite} {readable writable : List ℕ}
    (hp : s.poll.poll = .running s.fd .wronly readable writable)
    (hs : s.writeCb io = some s') : (s'.resume readable writable).Quiet := by
  unfold Conn.writeCb at hs
  split_ifs at hs with hd hsz
  · -- the callback that is running was still to come when the connection died
    obtain ha | ⟨-, hw⟩ := h.dead hd
    · refine absurd (Or.inr ?_) ha
      rw [hp]
      exact Or.inl ⟨rfl, rfl⟩
    · rw [hp] at hw
      exact absurd ⟨rfl, rfl⟩ hw
  · rw [← Option.some.inj hs]
    exact ⟨h.alive, fun hdead => absurd hdead hd⟩
  · split at hs
    · cases hs
    · next n hn =>
      rw [← Option.some.inj hs]
      refine ⟨h.alive, fun hdead => ?_⟩
      have hnd : n.dead = true := hdead
      rw [if_pos hnd]
      exact Or.inr ⟨PollMgr.callbacks_delCallback _ _, id⟩

theorem not_adds_of_foreign {e : PollEvent} (h : s.Foreign e = true) : ¬ PollMgr.Adds s.fd e := by
  intro hadd
  obtain ⟨flag, ch, rfl⟩ := hadd
  simp [Foreign] at h

theorem Quiet.removal (h : s.Quiet) {e : PollEvent} {p : PollMgr} {t : ℕ} {r : Removal}
    (hp : s.poll.step e = some p) (hadd : ¬ PollMgr.Adds s.fd e) :
    ({ s with poll := p }.setRemoval t r).Quiet :=
  ⟨h.alive, fun hd => (h.dead hd).step hp hadd⟩

theorem complete_dead (m : Sender) (t i : ℕ) : (m.complete t i).dead = m.dead := by
  unfold Sender.complete
  split_ifs <;> rfl

theorem Quiet.step (h : s.Quiet) {e : ConnEvent} (hclear : Clear s e)
    (hs : s.step e = some s') : s'.Quiet := by
  unfold Conn.step at hs
  rw [if_neg (by rw [h.alive]; exact Bool.false_ne_true)] at hs
  cases e with
  | send t b io =>
    dsimp only at hs
    split_ifs at hs
    obtain ⟨n, hn, hs⟩ := Option.bind_eq_some_iff.mp hs
    simp only [Sender.step] at hn
    split at hn
    · split_ifs at hn
      exact h.afterSend (m := { s.sender with waiters := s.sender.waiters + 1 }) ⟨rfl, rfl⟩ hn
        hclear hs
    · cases hn
  | woken t io =>
    obtain ⟨n, hn, hs⟩ := Option.bind_eq_some_iff.mp hs
    simp only [Sender.step] at hn
    split at hn
    · exact h.afterSend ⟨rfl, rfl⟩ hn hclear hs
    · cases hn
  | completed t =>
    obtain ⟨n, hn, rfl⟩ := Option.map_eq_some_iff.mp hs
    simp only [Sender.step] at hn
    split at hn
    · rw [← Option.some.inj hn]
      exact ⟨h.alive, fun hd => h.dead ((complete_dead _ _ _).symm.trans hd)⟩
    · cases hn
  | closeconn t =>
    dsimp only at hs
    split at hs
    · split_ifs at hs with hd
      · rw [← Option.some.inj hs]
        exact h
      · rw [← Option.some.inj hs]
        exact ⟨h.alive, fun _ => Or.inl (hclear.resolve_left hd)⟩
    · cases hs
  | removeBegin t =>
    dsimp only at hs
    split_ifs at hs
    obtain ⟨p, hp, rfl⟩ := Option.map_eq_some_iff.mp hs
    exact h.removal (e := .removeBegin t s.fd) hp fun ⟨_, _, hadd⟩ => by cases hadd
  | removeEnd t =>
    dsimp only at hs
    split_ifs at hs
    obtain ⟨p, hp, rfl⟩ := Option.map_eq_some_iff.mp hs
    exact h.removal (e := .removeEnd t) hp fun ⟨_, _, hadd⟩ => by cases hadd
  | «return» t =>
    dsimp only at hs
    split_ifs at hs
    unfold Conn.returned at hs
    split at hs
    · rw [← Option.some.inj hs]
      exact ⟨h.alive, h.dead⟩
    · rw [← Option.some.inj hs]
      exact ⟨h.alive, h.dead⟩
    · cases hs
  | readCb ok =>
    dsimp only at hs
    split at hs
    · next fd readable writable hp =>
      split_ifs at hs with hfd
      rw [← Option.some.inj hs]
      rw [hfd] at hp
      exact h.readCb hp ok
    · cases hs
  | writeCb io =>
    dsimp only at hs
    split at hs
    · next fd readable writable hp =>
      split_ifs at hs with hfd
      obtain ⟨m, hm, rfl⟩ := Option.map_eq_some_iff.mp hs
      rw [hfd] at hp
      exact h.writeCb hp hm
    · cases hs
  | poll e =>
    dsimp only at hs
    split_ifs at hs with hforeign
    obtain ⟨p, hp, rfl⟩ := Option.map_eq_some_iff.mp hs
    exact ⟨h.alive, fun hd => (h.dead hd).step hp (not_adds_of_foreign hforeign)⟩

theorem Quiet.start (pipe fd name : ℕ) : (start pipe fd name).Quiet :=
  ⟨rfl, fun hd => by cases hd⟩

end Conn

/-- As long as the connection dies only while no `write_cb` is to come, `write_cb` never finds it
dead. -/
theorem writeCb_alive (pipe fd name : ℕ) (events : List ConnEvent) (s : Conn)
    (hclear : Meets Conn.step Conn.Clear events (.start pipe fd name))
    (hrun : runs Conn.step events (.start pipe fd name) = some s) : s.crashed = false :=
  (hclear.invariant Conn.step (fun _ _ _ h he hs => Conn.Quiet.step h he hs)
    (Conn.Quiet.start pipe fd name) hrun).alive

/-- A turn of the poll loop in which the descriptor is ready. -/
def oneTurn : List ConnEvent :=
  [.poll .loopTop, .poll .copySets, .poll (.selected (fun _ => true, fun _ => true)),
    .poll .invoke]

/-- A connection that is closed after its write watch is gone. -/
def closedClear : List ConnEvent :=
  [.send 0 [0, 0, 0, 0, 1] .again] ++ oneTurn ++ [.readCb true, .poll .invoke,
    .writeCb (.wrote 5), .poll .invoke, .completed 0] ++ oneTurn ++ [.readCb true, .poll .invoke,
    .writeCb .again, .poll .invoke, .closeconn 1, .removeBegin 1, .poll .loopTop, .removeEnd 1,
    .return 1]

theorem writeCb_alive_example : ∃ s, runs Conn.step closedClear (.start 3 5 1) = some s ∧
    s.sender.dead = true ∧ s.crashed = false :=
  ⟨_, rfl, rfl, writeCb_alive 3 5 1 closedClear _ (by decide) rfl⟩

/-- A connection that is closed while a PDU is on its way. -/
def closedArmed : List ConnEvent :=
  [.send 0 [0, 0, 0, 0, 1] .again, .closeconn 1] ++ oneTurn ++ [.readCb true, .poll .invoke,
    .writeCb .again]

/-- `closeconn` sets `dead_` and shuts the descriptor down before it takes the watch away, and the
poll thread comes in between. -/
theorem writeCb_finds_dead :
    ∃ s, runs Conn.step closedArmed (.start 3 5 1) = some s ∧ s.crashed = true :=
  ⟨_, rfl, rfl⟩

end Yfs.Rpc
