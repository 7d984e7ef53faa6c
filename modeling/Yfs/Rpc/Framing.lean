import Yfs.Rpc.Sender
import Yfs.Rpc.Reader

/-! What a reader accepts of the bytes that the senders on the other end write. -/
namespace Yfs.Rpc

open Effect

/-- A PDU as it goes out: its first four bytes hold its length. -/
def frame (b : List UInt8) : List UInt8 := stamp b.length b

def IsFrame (f : List UInt8) : Prop := 4 ≤ f.length ∧ netInt f = f.length

section Frame

variable {b f g : List UInt8} {sz : ℤ}

theorem netInt_append (h : 4 ≤ f.length) : netInt (f ++ g) = netInt f := by
  rw [netInt, netInt, ← netWord_take h, ← netWord_take (l := f ++ g) (by simp; omega),
    List.take_append_of_le_length h]

theorem length_stamp (h : 4 ≤ b.length) : (stamp sz b).length = b.length := by
  rw [stamp, List.length_append, length_netBytes, List.length_drop]
  omega

theorem stamp_stamp (sz : ℤ) (b : List UInt8) : stamp sz (stamp sz b) = stamp sz b := by
  rw [stamp, stamp]
  rfl

theorem Sender.Sendable.isFrame (h : Sender.Sendable b) : IsFrame (frame b) := by
  obtain ⟨h4, hlt⟩ := h
  have hlen : (frame b).length = b.length := length_stamp (by omega)
  refine ⟨by omega, ?_⟩
  rw [hlen, netInt, frame, stamp, netWord_append]
  exact Int32.toInt_ofInt_of_le (by omega) (by omega)

/-- Two frames that start the same row of bytes are the same. -/
theorem IsFrame.eq_of_prefix {as fs : List (List UInt8)} (ha : ∀ a ∈ as, IsFrame a)
    (hf : ∀ f ∈ fs, IsFrame f) (h : as.flatten <+: fs.flatten) : as <+: fs := by
  induction as generalizing fs with
  | nil => exact List.nil_prefix
  | cons a as ih =>
    obtain ⟨⟨ha4, hna⟩, has⟩ := List.forall_mem_cons.mp ha
    cases fs with
    | nil =>
      have hnil := List.prefix_nil.mp h
      rw [List.flatten_cons, List.append_eq_nil_iff] at hnil
      rw [hnil.1] at ha4
      exact absurd ha4 (by decide)
    | cons f fs =>
      obtain ⟨⟨hf4, hnf⟩, hfs⟩ := List.forall_mem_cons.mp hf
      rw [List.flatten_cons, List.flatten_cons] at h
      obtain ⟨rest, hrest⟩ := h
      rw [List.append_assoc] at hrest
      have hn : netInt a = netInt f := by
        rw [← netInt_append ha4, hrest, netInt_append hf4]
      have hlen : a.length = f.length := by omega
      obtain ⟨rfl, htail⟩ := List.append_inj hrest hlen
      obtain ⟨t, rfl⟩ := ih has hfs ⟨rest, htail⟩
      exact ⟨t, rfl⟩

end Frame

/-- The buffer holds PDU `b`, of which `solong` bytes are out. -/
structure InFlight (b : List UInt8) (w : Wpdu) : Prop where
  sendable : Sender.Sendable b
  sz : w.sz = b.length
  solong : 0 ≤ w.solong ∧ w.solong ≤ w.sz
  buf : ∃ buf, w.buf = some buf ∧ stamp w.sz buf = frame b ∧ (0 < w.solong → buf = frame b)

/-- One write of a PDU in flight. -/
theorem InFlight.writepdu {b : List UInt8} {w : Wpdu} {io : IoWrite} {r : Written}
    (h : InFlight b w) (hr : writepdu w io = some r) :
    (r.ok = true → InFlight b r.wpdu ∧
        (frame b).take r.wpdu.solong.toNat = (frame b).take w.solong.toNat ++ r.out) ∧
      (r.ok = false → r.out = []) := by
  obtain ⟨buf, hbuf, hstamp, hpos⟩ := h.buf
  obtain ⟨h0, hle⟩ := h.solong
  have hnew : w.stamped = some (frame b) := by
    rw [Wpdu.stamped, hbuf]
    split_ifs with hz
    · exact congrArg some hstamp
    · exact congrArg some (hpos (by omega))
  have hframe : stamp w.sz (frame b) = frame b := by
    rw [h.sz]
    exact stamp_stamp _ b
  unfold Rpc.writepdu at hr
  rw [if_neg (by omega)] at hr
  split_ifs at hr with hall
  · rw [← Option.some.inj hr]
    exact ⟨fun _ => ⟨h, (List.append_nil _).symm⟩, fun hok => absurd hok.symm Bool.false_ne_true⟩
  · rw [hnew] at hr
    cases io with
    | wrote n =>
      dsimp only at hr
      split_ifs at hr with hn
      rw [← Option.some.inj hr]
      refine ⟨fun _ => ⟨⟨h.sendable, h.sz, ?_, frame b, rfl, hframe, fun _ => rfl⟩, ?_⟩,
        fun hok => absurd hok.symm Bool.false_ne_true⟩
      · dsimp only
        omega
      · have hsum : (w.solong + n).toNat = w.solong.toNat + n := by omega
        dsimp only [Option.getD]
        rw [hsum, List.take_add]
    | again =>
      rw [← Option.some.inj hr]
      exact ⟨fun _ => ⟨⟨h.sendable, h.sz, h.solong, frame b, rfl, hframe, fun _ => rfl⟩,
        (List.append_nil _).symm⟩, fun hok => absurd hok.symm Bool.false_ne_true⟩
    | failed =>
      rw [← Option.some.inj hr]
      exact ⟨fun hok => absurd hok Bool.false_ne_true, fun _ => rfl⟩

theorem InFlight.buf_ne_none {b : List UInt8} {w : Wpdu} (h : InFlight b w) : w.buf ≠ none := by
  obtain ⟨buf, hbuf, -⟩ := h.buf
  rw [hbuf]
  exact Option.some_ne_none buf

/-- Once all of a PDU is out, its frame is. -/
theorem InFlight.take_all {b : List UInt8} {w : Wpdu} (h : InFlight b w) (hall : w.sz ≤ w.solong) :
    (frame b).take w.solong.toNat = frame b := by
  apply List.take_of_length_le
  have hlen : (frame b).length = b.length := length_stamp (by have := h.sendable.1; omega)
  have hsz := h.sz
  omega

namespace Sender

variable {s s' : Sender}

/-- The frames of the PDUs that have acquired the buffer. -/
def frames (s : Sender) : List (List UInt8) := s.acquired.map frame

/-- How the bytes that are out and the PDUs belong together. -/
structure Framed (s : Sender) : Prop where
  sendable : ∀ b ∈ s.acquired, Sendable b
  waiting : ∀ t b, s.threads t = .waiting b → Sendable b
  out : s.out <+: s.frames.flatten
  idle : s.dead = false → s.wpdu.buf = none →
    s.wpdu = .blank ∧ s.out = s.frames.flatten ∧ ∀ t i, s.threads t ≠ .completing i
  busy : s.dead = false → s.wpdu.buf ≠ none → ∃ done b, s.acquired = done ++ [b] ∧
    InFlight b s.wpdu ∧
    s.out = (done.map frame).flatten ++ (frame b).take s.wpdu.solong.toNat ∧
    ∀ t i u j, s.threads t = .completing i → s.threads u = .completing j → t = u ∧ i = done.length
  removing : ∀ t i, s.threads t = .removing i → s.dead = true
  returned : ∀ i, (i, true) ∈ s.returned →
    i < s.acquired.length ∧ (s.frames.take (i + 1)).flatten <+: s.out

/-- A section that changes neither the buffer nor what is out. -/
theorem Framed.move (h : s.Framed) {t : ℕ} {c : Sending}
    (hc : ∀ i, c ≠ .completing i) (hr : ∀ i, c = .removing i → s.dead = true)
    (hw : ∀ b, c = .waiting b → Sendable b) : (s.move t c).Framed where
  sendable := h.sendable
  waiting u b hu := by
    rw [threads_move] at hu
    split_ifs at hu
    · exact hw b hu
    · exact h.waiting u b hu
  out := h.out
  idle hd hb := by
    obtain ⟨hblank, hout, hnone⟩ := h.idle hd hb
    refine ⟨hblank, hout, fun u i hu => ?_⟩
    rw [threads_move] at hu
    split_ifs at hu
    · exact hc i hu
    · exact hnone u i hu
  busy hd hb := by
    obtain ⟨done, b, hacq, hflight, hout, huniq⟩ := h.busy hd hb
    have hold : ∀ u i, (s.move t c).threads u = .completing i → s.threads u = .completing i := by
      intro u i hu
      rw [threads_move] at hu
      split_ifs at hu
      · exact absurd hu (hc i)
      · exact hu
    exact ⟨done, b, hacq, hflight, hout, fun u i v j hu hv =>
      huniq u i v j (hold u i hu) (hold v j hv)⟩
  removing u i hu := by
    rw [threads_move] at hu
    split_ifs at hu
    · exact hr i hu
    · exact h.removing u i hu
  returned := h.returned

theorem Framed.waiters (h : s.Framed) (n : ℕ) : { s with waiters := n }.Framed := { h with }

theorem Framed.die (h : s.Framed) : { s with dead := true }.Framed where
  sendable := h.sendable
  waiting := h.waiting
  out := h.out
  idle hd := by cases hd
  busy hd := by cases hd
  removing _ _ _ := rfl
  returned := h.returned

/-- A thread that returns from `send` leaves the buffer free. -/
theorem Framed.finish (h : s.Framed) {t i : ℕ}
    (hdone : s.dead = false → s.out = s.frames.flatten ∧ i + 1 = s.acquired.length ∧
      ∀ u j, s.threads u = .completing j → u = t) : (s.finish t i).Framed where
  sendable := h.sendable
  waiting u b hu := by
    rw [threads_finish] at hu
    split_ifs at hu
    exact h.waiting u b hu
  out := h.out
  idle hd _ := by
    obtain ⟨hout, -, huniq⟩ := hdone hd
    refine ⟨rfl, hout, fun u j hu => ?_⟩
    rw [threads_finish] at hu
    split_ifs at hu with hut
    exact hut (huniq u j hu)
  busy _ hb := absurd rfl hb
  removing u j hu := by
    rw [threads_finish] at hu
    split_ifs at hu
    exact h.removing u j hu
  returned j hj := by
    obtain hj | hj := List.mem_append.mp hj
    · exact h.returned j hj
    · obtain ⟨rfl, hret⟩ := Prod.mk.inj (List.mem_singleton.mp hj)
      have hd : s.dead = false := by
        cases hd : s.dead with
        | false => rfl
        | true =>
          rw [hd] at hret
          cases hret
      obtain ⟨hout, hlen, -⟩ := hdone hd
      have hlt : j < s.acquired.length := by omega
      refine ⟨hlt, ?_⟩
      have htake : (s.frames.take (j + 1)) = s.frames := by
        apply List.take_of_length_le
        rw [frames, List.length_map]
        omega
      change (s.frames.take (j + 1)).flatten <+: s.out
      have hall : (s.frames.take (j + 1)).flatten = s.out := htake.symm ▸ hout.symm
      exact hall ▸ List.prefix_rfl

/-- A PDU acquires the buffer and its first bytes go out. -/
theorem Framed.acquired (h : s.Framed) {b : List UInt8} {r : Written} {io : IoWrite}
    (hd : s.dead = false) (hb : s.wpdu.buf = none) (hsend : Sendable b)
    (hr : writepdu ⟨some b, b.length, 0⟩ io = some r) :
    ({ s with
      wpdu := r.wpdu
      out := s.out ++ r.out
      acquired := s.acquired ++ [b]
      dead := !r.ok } : Sender).Framed ∧
      (r.ok = true → r.wpdu.buf ≠ none) ∧ ∀ t i, s.threads t ≠ .completing i := by
  obtain ⟨-, hout, hnone⟩ := h.idle hd hb
  have hstart : InFlight b ⟨some b, b.length, 0⟩ :=
    ⟨hsend, rfl, ⟨Int.le_refl 0, Int.natCast_nonneg _⟩, b, rfl, rfl,
      fun h0 => absurd h0 (Int.lt_irrefl 0)⟩
  obtain ⟨hok, hfail⟩ := hstart.writepdu hr
  have hlast : ∀ o, o = (frame b).take r.wpdu.solong.toNat ∨ o = [] → s.out ++ o <+:
      (s.frames ++ [frame b]).flatten := by
    intro o ho
    rw [List.flatten_append, hout, List.flatten_singleton, List.prefix_append_right_inj]
    obtain rfl | rfl := ho
    · exact List.take_prefix _ _
    · exact List.nil_prefix
  refine ⟨⟨?_, h.waiting, ?_, ?_, ?_, ?_, ?_⟩, fun hk => (hok hk).1.buf_ne_none, hnone⟩
  · intro a ha
    obtain ha | ha := List.mem_append.mp ha
    · exact h.sendable a ha
    · rw [List.mem_singleton.mp ha]
      exact hsend
  · change s.out ++ r.out <+: (List.map frame (s.acquired ++ [b])).flatten
    rw [List.map_append]
    apply hlast
    cases hk : r.ok with
    | true => exact Or.inl (hok hk).2.symm
    | false => exact Or.inr (hfail hk)
  · intro hk hnb
    exact absurd hnb (hok (by simpa using hk)).1.buf_ne_none
  · intro hk _
    obtain ⟨hflight, htake⟩ := hok (by simpa using hk)
    refine ⟨s.acquired, b, rfl, hflight, ?_, fun t i _ _ ht => absurd ht (hnone t i)⟩
    change s.out ++ r.out = _
    rw [hout, htake]
    rfl
  · intro t i ht
    have := h.removing t i ht
    rw [hd] at this
    cases this
  · intro i hi
    obtain ⟨hlt, hpre⟩ := h.returned i hi
    refine ⟨by simp only [List.length_append]; omega, ?_⟩
    change ((List.map frame (s.acquired ++ [b])).take (i + 1)).flatten <+: s.out ++ r.out
    rw [List.map_append, List.take_append_of_le_length (by rw [List.length_map]; omega)]
    exact hpre.trans (List.prefix_append _ _)

/-- A PDU that is out as a whole is the last of the frames. -/
theorem Framed.all_out (h : s.Framed) (hd : s.dead = false) (hb : s.wpdu.buf ≠ none)
    (hall : s.wpdu.sz ≤ s.wpdu.solong) : s.out = s.frames.flatten := by
  obtain ⟨done, b, hacq, hflight, hout, -⟩ := h.busy hd hb
  rw [hout, hflight.take_all hall, frames, hacq, List.map_append, List.flatten_append]
  exact congrArg _ (List.flatten_singleton).symm

/-- The thread that owns the buffer waits until its PDU is out. -/
theorem Framed.own (h : s.Framed) {t i : ℕ} (hb : s.dead = false → s.wpdu.buf ≠ none)
    (hlast : i + 1 = s.acquired.length) (hnone : ∀ u j, s.threads u ≠ .completing j) :
    (s.move t (.completing i)).Framed where
  sendable := h.sendable
  waiting u b hu := by
    rw [threads_move] at hu
    split_ifs at hu
    exact h.waiting u b hu
  out := h.out
  idle hd hnb := absurd hnb (hb hd)
  busy hd hnb := by
    obtain ⟨done, b, hacq, hflight, hout, -⟩ := h.busy hd hnb
    have hlen := congrArg List.length hacq
    rw [List.length_append, List.length_singleton] at hlen
    have howner : ∀ u j, (s.move t (.completing i)).threads u = .completing j → u = t ∧ j = i := by
      intro u j hu
      rw [threads_move] at hu
      split_ifs at hu with hut
      · exact ⟨hut, (Sending.completing.inj hu).symm⟩
      · exact absurd hu (hnone u j)
    refine ⟨done, b, hacq, hflight, hout, fun u j v k hu hv => ?_⟩
    obtain ⟨rfl, rfl⟩ := howner u j hu
    obtain ⟨rfl, -⟩ := howner v k hv
    exact ⟨rfl, by omega⟩
  removing u j hu := by
    rw [threads_move] at hu
    split_ifs at hu
    exact h.removing u j hu
  returned := h.returned

theorem Framed.acquire (h : s.Framed) {t : ℕ} {b : List UInt8} {io : IoWrite}
    (hd : s.dead = false) (hb : s.wpdu.buf = none) (hsend : Sendable b)
    (hs : s.acquire t b io = some s') : s'.Framed := by
  unfold Sender.acquire at hs
  cases hr : writepdu ⟨some b, b.length, 0⟩ io with
  | none =>
    rw [hr] at hs
    cases hs
  | some r =>
    rw [hr] at hs
    obtain ⟨hframed, hbuf, hnone⟩ := h.acquired hd hb hsend hr
    have hlen : s.acquired.length + 1 = (s.acquired ++ [b]).length := by
      rw [List.length_append, List.length_singleton]
    dsimp only at hs
    split_ifs at hs with hfail hall
    · rw [← Option.some.inj hs]
      rw [hfail] at hframed
      exact hframed.move (fun i hi => by cases hi) (fun _ _ => rfl) (fun b hb => by cases hb)
    · have hok : r.ok = true := by simpa using hfail
      rw [← Option.some.inj hs]
      rw [hok, Bool.not_true, ← hd] at hframed
      apply hframed.finish
      exact fun _ => ⟨hframed.all_out hd (hbuf hok) (Int.le_of_eq hall.symm), hlen,
        fun u j hu => absurd hu (hnone u j)⟩
    · have hok : r.ok = true := by simpa using hfail
      rw [← Option.some.inj hs]
      rw [hok, Bool.not_true, ← hd] at hframed
      exact hframed.own (fun _ => hbuf hok) hlen hnone

theorem Framed.enter (h : s.Framed) {t : ℕ} {b : List UInt8} {io : IoWrite} (hsend : Sendable b)
    (hs : s.enter t b io = some s') : s'.Framed := by
  unfold Sender.enter at hs
  split_ifs at hs with hwait hdead
  · rw [← Option.some.inj hs]
    exact h.move (fun i hi => by cases hi) (fun i hi => by cases hi)
      (fun a ha => (Sending.waiting.inj ha) ▸ hsend)
  · rw [← Option.some.inj hs]
    exact (h.waiters _).move (fun i hi => by cases hi) (fun i hi => by cases hi)
      (fun b hb => by cases hb)
  · have hd : s.dead = false := by simpa using hdead
    have hb : s.wpdu.buf = none := by simpa [hd] using hwait
    exact (h.waiters (s.waiters - 1)).acquire hd hb hsend hs

theorem Framed.complete (h : s.Framed) {t i : ℕ} (ht : s.threads t = .completing i) :
    (s.complete t i).Framed := by
  unfold Sender.complete
  split_ifs with hmore
  · exact h
  · apply h.finish
    intro hd
    have hb : s.wpdu.buf ≠ none := fun hb => (h.idle hd hb).2.2 t i ht
    obtain ⟨done, b, hacq, hflight, -, huniq⟩ := h.busy hd hb
    obtain ⟨h0, hle⟩ := hflight.solong
    have hall : s.wpdu.sz ≤ s.wpdu.solong := by
      simpa [hd, h0] using hmore
    have hlen := congrArg List.length hacq
    rw [List.length_append, List.length_singleton] at hlen
    obtain ⟨-, rfl⟩ := huniq t i t i ht ht
    exact ⟨h.all_out hd hb hall, by omega, fun u j hu => (huniq t done.length u j ht hu).1.symm⟩

theorem Framed.writeCb (h : s.Framed) {io : IoWrite} (hs : s.writeCb io = some s') :
    s'.Framed := by
  unfold Sender.writeCb at hs
  split_ifs at hs with hdead hsz
  · rw [← Option.some.inj hs]
    exact h
  · have hd : s.dead = false := by simpa using hdead
    have hb : s.wpdu.buf ≠ none := by
      intro hb
      rw [(h.idle hd hb).1] at hsz
      exact hsz rfl
    obtain ⟨done, b, hacq, hflight, hout, huniq⟩ := h.busy hd hb
    cases hr : writepdu s.wpdu io with
    | none =>
      rw [hr] at hs
      cases hs
    | some r =>
      rw [hr] at hs
      obtain ⟨hok, hfail⟩ := hflight.writepdu hr
      have hpre : s.out ++ r.out <+: s.frames.flatten := by
        cases hk : r.ok with
        | false =>
          rw [hfail hk, List.append_nil]
          exact h.out
        | true =>
          rw [hout, List.append_assoc, ← (hok hk).2, frames, hacq, List.map_append,
            List.flatten_append, List.prefix_append_right_inj]
          change _ <+: [frame b].flatten
          rw [List.flatten_singleton]
          exact List.take_prefix _ _
      rw [← Option.some.inj hs]
      refine ⟨h.sendable, h.waiting, hpre, ?_, ?_, ?_, ?_⟩
      · intro hk hnb
        exact absurd hnb (hok (by simpa using hk)).1.buf_ne_none
      · intro hk _
        obtain ⟨hflight', htake⟩ := hok (by simpa using hk)
        refine ⟨done, b, hacq, hflight', ?_, huniq⟩
        change s.out ++ r.out = _
        rw [hout, htake, List.append_assoc]
      · intro t i ht
        have := h.removing t i ht
        rw [hd] at this
        cases this
      · intro i hi
        obtain ⟨hlt, hpre'⟩ := h.returned i hi
        exact ⟨hlt, hpre'.trans (List.prefix_append _ _)⟩

theorem Framed.step (h : s.Framed) {e : SendEvent} (hs : s.step e = some s') : s'.Framed := by
  cases e with
  | send t b io =>
    simp only [Sender.step] at hs
    split at hs
    · split_ifs at hs with hsend
      exact (h.waiters _).enter hsend hs
    · cases hs
  | woken t io =>
    simp only [Sender.step] at hs
    split at hs
    · next b hb => exact h.enter (h.waiting t b hb) hs
    · cases hs
  | removed t =>
    simp only [Sender.step] at hs
    split at hs
    · next i hi =>
      rw [← Option.some.inj hs]
      apply h.finish
      intro hd
      rw [h.removing t i hi] at hd
      cases hd
    · cases hs
  | completed t =>
    simp only [Sender.step] at hs
    split at hs
    · next i hi =>
      rw [← Option.some.inj hs]
      exact h.complete hi
    · cases hs
  | writeCb io => exact h.writeCb hs
  | die =>
    rw [← Option.some.inj hs]
    exact h.die

theorem Framed.start : Sender.start.Framed where
  sendable _ h := by cases h
  waiting _ _ h := by cases h
  out := List.prefix_rfl
  idle _ _ := ⟨rfl, rfl, fun _ _ h => by cases h⟩
  busy _ h := absurd rfl h
  removing _ _ h := by cases h
  returned _ h := by cases h

theorem out_acquire {t : ℕ} {b : List UInt8} {io : IoWrite} (hs : s.acquire t b io = some s') :
    s.out <+: s'.out := by
  unfold Sender.acquire at hs
  split at hs
  · cases hs
  · split_ifs at hs
    · rw [← Option.some.inj hs]
      exact List.prefix_append _ _
    · rw [← Option.some.inj hs]
      exact List.prefix_append _ _
    · rw [← Option.some.inj hs]
      exact List.prefix_append _ _

theorem out_enter {t : ℕ} {b : List UInt8} {io : IoWrite} (hs : s.enter t b io = some s') :
    s.out <+: s'.out := by
  unfold Sender.enter at hs
  split_ifs at hs
  · obtain rfl := Option.some.inj hs
    exact List.prefix_rfl
  · obtain rfl := Option.some.inj hs
    exact List.prefix_rfl
  · exact out_acquire (s := { s with waiters := s.waiters - 1 }) hs

/-- What is out stays out. -/
theorem out_step {e : SendEvent} (hs : s.step e = some s') : s.out <+: s'.out := by
  cases e with
  | send t b io =>
    simp only [Sender.step] at hs
    split at hs
    · split_ifs at hs
      exact out_enter (s := { s with waiters := s.waiters + 1 }) hs
    · cases hs
  | woken t io =>
    simp only [Sender.step] at hs
    split at hs
    · exact out_enter hs
    · cases hs
  | removed t =>
    simp only [Sender.step] at hs
    split at hs
    · obtain rfl := Option.some.inj hs
      exact List.prefix_rfl
    · cases hs
  | completed t =>
    simp only [Sender.step] at hs
    split at hs
    · rw [← Option.some.inj hs, Sender.complete]
      split_ifs
      · exact List.prefix_rfl
      · exact List.prefix_rfl
    · cases hs
  | writeCb io =>
    simp only [Sender.step, Sender.writeCb] at hs
    split_ifs at hs
    · obtain rfl := Option.some.inj hs
      exact List.prefix_rfl
    · split at hs
      · cases hs
      · rw [← Option.some.inj hs]
        exact List.prefix_append _ _
  | die =>
    obtain rfl := Option.some.inj hs
    exact List.prefix_rfl

end Sender

/-- The buffer holds the start of a frame. -/
structure Filling (r : Rpdu) (c : Chunk) : Prop where
  length : (c.bytes.length : ℤ) = r.solong
  header : 4 ≤ c.bytes.length
  sz : netInt c.bytes = r.sz

/-- Reading on into the buffer. -/
theorem Filling.readBody {p : Rpdu} {c : Chunk} {io : IoRead} (h : Filling p c)
    (hc : p.buf = some c) (hio : io.Fits (p.sz - p.solong)) :
    (∃ c', (readBody p io).rpdu.buf = some c' ∧ Filling (readBody p io).rpdu c' ∧
        c'.bytes = c.bytes ++ (readBody p io).took ∧ (readBody p io).ok = true) ∨
      (readBody p io).ok = false ∧ (readBody p io).rpdu.buf = none := by
  rcases readBody_cases hio with ⟨bs, -, -, he⟩ | he | he
  · rw [he, hc]
    refine Or.inl ⟨⟨c.cap, c.bytes ++ bs⟩, rfl, ⟨?_, ?_, ?_⟩, rfl, rfl⟩
    · have := h.length
      simp only [List.length_append]
      omega
    · have := h.header
      simp only [List.length_append]
      omega
    · dsimp only
      rw [netInt_append h.header, h.sz]
  · rw [he]
    exact Or.inl ⟨c, hc, h, (List.append_nil _).symm, rfl⟩
  · rw [he]
    exact Or.inr ⟨rfl, rfl⟩

/-- How the bytes that have been taken and the accepted PDUs belong together. -/
structure Reader.Parsed (r : Reader) : Prop where
  frames : ∀ a ∈ r.accepted, IsFrame a
  took : r.accepted.flatten <+: r.took
  empty : r.dead = false → r.rpdu.buf = none → r.rpdu.sz = 0 ∧ r.took = r.accepted.flatten
  filling : ∀ c, r.dead = false → r.rpdu.buf = some c →
    Filling r.rpdu c ∧ r.took = r.accepted.flatten ++ c.bytes

namespace Reader

variable {r r' : Reader}

theorem Parsed.offer (h : r.Parsed) (accept : Bool)
    (hdead : r.dead = true → r.rpdu.buf = none) : (r.offer accept).Parsed := by
  unfold Reader.offer
  split
  · exact h
  · next c hc =>
    split_ifs with hfull
    · have hd : r.dead = false := by
        cases hd : r.dead with
        | false => rfl
        | true =>
          rw [hdead hd] at hc
          cases hc
      obtain ⟨hfill, htook⟩ := h.filling c hd hc
      have hsz : r.rpdu.sz = r.rpdu.solong := by
        simp only [Bool.and_eq_true, decide_eq_true_eq] at hfull
        exact hfull.1
      have hlen := hfill.length
      have htake : c.bytes.take r.rpdu.sz.toNat = c.bytes :=
        List.take_of_length_le (by omega)
      have hflat : (r.accepted ++ [c.bytes]).flatten = r.took := by
        rw [List.flatten_append, List.flatten_singleton, htook]
      rw [htake]
      refine ⟨?_, ?_, fun _ _ => ⟨rfl, hflat.symm⟩, fun c' _ hc' => by cases hc'⟩
      · intro a ha
        obtain ha | ha := List.mem_append.mp ha
        · exact h.frames a ha
        · rw [List.mem_singleton.mp ha]
          exact ⟨hfill.header, by rw [hfill.sz, hsz, hfill.length]⟩
      · exact hflat ▸ List.prefix_rfl
    · exact h

/-- Bytes that have gone into the buffer, or the end of the connection. -/
theorem Parsed.readBody (h : r.Parsed) {p : Rpdu} {c : Chunk} {io : IoRead} {took : List UInt8}
    (used : List Access) (hfill : Filling p c) (hc : p.buf = some c)
    (hio : io.Fits (p.sz - p.solong)) (htook : took = r.accepted.flatten ++ c.bytes)
    (accept : Bool) :
    (Reader.offer
      { rpdu := (Rpc.readBody p io).rpdu
        dead := !(Rpc.readBody p io).ok
        used := used
        took := took ++ (Rpc.readBody p io).took
        accepted := r.accepted } accept).Parsed := by
  have hpre : r.accepted.flatten <+: took ++ (Rpc.readBody p io).took := by
    rw [htook, List.append_assoc]
    exact List.prefix_append _ _
  obtain ⟨c', hc', hfill', hbytes, hok⟩ | ⟨hok, hnone⟩ := hfill.readBody hc hio
  · apply Parsed.offer
    · refine ⟨h.frames, hpre, fun _ hn => ?_, fun d _ hd => ?_⟩
      · rw [show (Rpc.readBody p io).rpdu.buf = none from hn] at hc'
        cases hc'
      · obtain rfl : c' = d := Option.some.inj (hc'.symm.trans hd)
        refine ⟨hfill', ?_⟩
        dsimp only
        rw [hbytes, htook, List.append_assoc]
    · intro hd
      rw [hok] at hd
      cases hd
  · apply Parsed.offer
    · rw [hok]
      exact ⟨h.frames, hpre, (fun hd => by cases hd), (fun _ hd => by cases hd)⟩
    · exact fun _ => hnone

theorem Parsed.readpdu (h : r.Parsed) (hd : r.dead = false) {first second : IoRead} {t : Taken}
    (hmore : r.rpdu.buf = none ∨ r.rpdu.solong < r.rpdu.sz)
    (ht : Rpc.readpdu r.rpdu first second = some t) (accept : Bool) :
    (Reader.offer
      { r with
        rpdu := t.rpdu
        dead := !t.ok
        used := r.used ++ t.used
        took := r.took ++ t.took } accept).Parsed := by
  have hnone : r.rpdu.sz = 0 → r.rpdu.buf = none := by
    intro hz
    obtain hb | hlt := hmore
    · exact hb
    · cases hb : r.rpdu.buf with
      | none => rfl
      | some c =>
        have hlen := (h.filling c hd hb).1.length
        omega
  rcases readpdu_cases ht with ⟨hz, rfl⟩ | ⟨hz, bs, rfl, h4, -, -, hsecond, rfl⟩ |
    ⟨hz, hsecond, rfl⟩
  · apply Parsed.offer
    · exact ⟨h.frames, h.took.trans (List.prefix_append _ _), (fun hd => by cases hd),
        (fun _ hd => by cases hd)⟩
    · exact fun _ => hnone hz
  · have hfill : Filling (.ofLength bs) ⟨mallocSize (netInt bs), bs⟩ :=
      ⟨by simp only [Rpdu.ofLength]; omega, by dsimp only; omega, rfl⟩
    have htook : r.took ++ bs = r.accepted.flatten ++ bs := by
      rw [(h.empty hd (hnone hz)).2]
    have hbody := h.readBody (r.used ++ ⟨0, 4, mallocSize (netInt bs)⟩ ::
      (Rpc.readBody (.ofLength bs) second).used) hfill rfl hsecond htook accept
    rw [List.append_assoc] at hbody
    exact hbody
  · cases hb : r.rpdu.buf with
    | none => exact absurd (h.empty hd hb).1 hz
    | some c =>
      obtain ⟨hfill, htook⟩ := h.filling c hd hb
      exact h.readBody _ hfill hb hsecond htook accept

theorem Parsed.step (h : r.Parsed) {e : ReadEvent} (hs : r.step e = some r') : r'.Parsed := by
  cases e with
  | die =>
    cases hs
    exact ⟨h.frames, h.took, (fun hd => by cases hd), (fun _ hd => by cases hd)⟩
  | readCb first second accept =>
    simp only [Reader.step, readCb] at hs
    split_ifs at hs with hdead hmore
    · cases hs
      exact h
    · have hd : r.dead = false := by simpa using hdead
      cases ht : Rpc.readpdu r.rpdu first second with
      | none =>
        rw [ht] at hs
        cases hs
      | some t =>
        rw [ht] at hs
        cases hs
        exact h.readpdu hd (by simpa using hmore) ht accept
    · cases hs
      exact h.offer accept fun hd => absurd hd hdead

theorem Parsed.start : Reader.start.Parsed where
  frames _ h := by cases h
  took := List.prefix_rfl
  empty _ _ := ⟨rfl, rfl⟩
  filling _ _ h := by cases h

end Reader

/-- Two connections over one stream of bytes. -/
structure Link where
  sender : Sender
  reader : Reader

inductive LinkEvent where
  | send (e : SendEvent)
  | read (e : ReadEvent)

namespace Link

def start : Link := ⟨.start, .start⟩

/-- The bytes that the reader takes are a prefix of those that are out. -/
def step (l : Link) : LinkEvent → Option Link
  | .send e => (l.sender.step e).map fun s => { l with sender := s }
  | .read e =>
    match l.reader.step e with
    | none => none
    | some r => if r.took.isPrefixOf l.sender.out then some { l with reader := r } else none

structure Coherent (l : Link) : Prop where
  framed : l.sender.Framed
  parsed : l.reader.Parsed
  stream : l.reader.took <+: l.sender.out

theorem Coherent.step {l l' : Link} (h : l.Coherent) {e : LinkEvent} (hs : l.step e = some l') :
    l'.Coherent := by
  cases e with
  | send e =>
    obtain ⟨s, hse, rfl⟩ := Option.map_eq_some_iff.mp hs
    exact ⟨h.framed.step hse, h.parsed, h.stream.trans (Sender.out_step hse)⟩
  | read e =>
    simp only [Link.step] at hs
    split at hs
    · cases hs
    · next r hr =>
      split_ifs at hs with hpre
      rw [← Option.some.inj hs]
      exact ⟨h.framed, h.parsed.step hr, List.isPrefixOf_iff_prefix.mp hpre⟩

end Link

/-- The reader accepts a prefix of the PDUs in the order in which they acquired the buffer, each as
a frame of its own, and `send` only returns true for a PDU that is out as a whole. -/
theorem framing (events : List LinkEvent) (l : Link)
    (hrun : runs Link.step events .start = some l) :
    l.reader.accepted <+: l.sender.acquired.map frame ∧
      (∀ f ∈ l.reader.accepted, 4 ≤ f.length ∧ netInt f = f.length) ∧
      ∀ i, (i, true) ∈ l.sender.returned → i < l.sender.acquired.length ∧
        ((l.sender.acquired.map frame).take (i + 1)).flatten <+: l.sender.out := by
  have h0 : Link.start.Coherent := ⟨.start, .start, List.prefix_rfl⟩
  have h := runs_invariant _ (fun l e l' hl hs => hl.step hs) h0 hrun
  have hsent : ∀ f ∈ l.sender.acquired.map frame, IsFrame f := by
    intro f hf
    obtain ⟨b, hb, rfl⟩ := List.mem_map.mp hf
    exact (h.framed.sendable b hb).isFrame
  exact ⟨IsFrame.eq_of_prefix h.parsed.frames hsent
    (h.parsed.took.trans (h.stream.trans h.framed.out)), h.parsed.frames, h.framed.returned⟩

/-- A PDU goes out in two pieces, is refused at first, and the next one waits. -/
def twoSenders : List LinkEvent :=
  [.send (.send 0 [0, 0, 0, 0, 1] (.wrote 4)), .send (.send 1 [0, 0, 0, 0, 2, 3] .again),
    .read (.readCb (.data [0, 0, 0, 5]) (.failed true) true), .send (.writeCb (.wrote 1)),
    .send (.completed 0), .read (.readCb (.eof true) (.data [1]) false),
    .send (.woken 1 (.wrote 6)), .read (.readCb (.eof true) (.eof true) true)]

theorem framing_example : ∃ l, runs Link.step twoSenders .start = some l ∧
    l.sender.returned = [(0, true), (1, true)] ∧ l.reader.accepted = [[0, 0, 0, 5, 1]] ∧
    l.reader.accepted <+: l.sender.acquired.map frame :=
  ⟨_, rfl, rfl, rfl, (framing twoSenders _ rfl).1⟩

end Yfs.Rpc
