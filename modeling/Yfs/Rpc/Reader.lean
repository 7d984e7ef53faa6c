import Yfs.Rpc.Connection
import Yfs.Effect.Transition
import Mathlib.Tactic.SplitIfs

/-! The reading side of a connection: `read_cb` over a stream from which any bytes may come. -/
namespace Yfs.Rpc

open Effect

/-- The reading side, with the memory it has used, the bytes it has taken from the stream and
the PDUs its manager has accepted. -/
structure Reader where
  rpdu : Rpdu
  dead : Bool
  used : List Access
  took : List UInt8
  accepted : List (List UInt8)

/-- A call of `read_cb` with what its reads return and what `got_pdu` answers, or the death of
the connection for another reason. -/
inductive ReadEvent where
  | readCb (first second : IoRead) (accept : Bool)
  | die

namespace Reader

def start : Reader := ⟨.blank, false, [], [], []⟩

/-- Offers a PDU that is complete. -/
def offer (r : Reader) (accept : Bool) : Reader :=
  match r.rpdu.buf with
  | none => r
  | some c =>
    if r.rpdu.sz = r.rpdu.solong && accept then
      { r with rpdu := .blank, accepted := r.accepted ++ [c.bytes.take r.rpdu.sz.toNat] }
    else r

def readCb (r : Reader) (first second : IoRead) (accept : Bool) : Option Reader :=
  if r.dead then some r
  else if r.rpdu.buf.isNone || r.rpdu.solong < r.rpdu.sz then
    match readpdu r.rpdu first second with
    | none => none
    | some t => some (offer
        { r with
          rpdu := t.rpdu
          dead := !t.ok
          used := r.used ++ t.used
          took := r.took ++ t.took } accept)
  else some (r.offer accept)

def step (r : Reader) : ReadEvent → Option Reader
  | .readCb first second accept => r.readCb first second accept
  | .die => some { r with dead := true }

end Reader

section Spec

variable {r : Rpdu} {first second io : IoRead} {t : Taken}

theorem readBody_cases (h : io.Fits (r.sz - r.solong)) :
    (∃ bs, io = .data bs ∧ bs.length ≤ r.sz - r.solong ∧
        readBody r io = ⟨true, ⟨r.buf.map fun c => { c with bytes := c.bytes ++ bs }, r.sz,
          r.solong + bs.length⟩, [⟨r.solong, r.sz - r.solong, r.cap⟩], bs⟩) ∨
      readBody r io = ⟨true, r, [⟨r.solong, r.sz - r.solong, r.cap⟩], []⟩ ∨
      readBody r io = ⟨false, .blank, [⟨r.solong, r.sz - r.solong, r.cap⟩], []⟩ := by
  cases io with
  | data bs => exact Or.inl ⟨bs, rfl, h.2, rfl⟩
  | eof again =>
    cases again with
    | true => exact Or.inr (Or.inl rfl)
    | false => exact Or.inr (Or.inr rfl)
  | failed again =>
    cases again with
    | true => exact Or.inr (Or.inl rfl)
    | false => exact Or.inr (Or.inr rfl)

theorem readBody_used (r : Rpdu) (io : IoRead) :
    (readBody r io).used = [⟨r.solong, r.sz - r.solong, r.cap⟩] := by
  unfold readBody
  cases io with
  | data bs => rfl
  | eof again => cases again <;> rfl
  | failed again => cases again <;> rfl

/-- The buffer once a length word has come. -/
def Rpdu.ofLength (bs : List UInt8) : Rpdu := ⟨some ⟨mallocSize (netInt bs), bs⟩, netInt bs, 4⟩

theorem readLength_cases (r : Rpdu) (io : IoRead) :
    readLength r io = .fail ∨ readLength r io = .abort ∨
      ∃ bs, io = .data bs ∧ bs.length = 4 ∧ netInt bs ≤ maxPdu ∧ mallocSize (netInt bs) < 2 ^ 63 ∧
        readLength r io = .next (.ofLength bs, [⟨0, 4, mallocSize (netInt bs)⟩]) := by
  unfold readLength
  cases io with
  | eof again => exact Or.inl rfl
  | failed again =>
    cases again with
    | true => exact Or.inr (Or.inl rfl)
    | false => exact Or.inl rfl
  | data bs =>
    dsimp only
    split_ifs with hlen hmax hbuf hsize
    · exact Or.inl rfl
    · exact Or.inl rfl
    · exact Or.inr (Or.inl rfl)
    · exact Or.inr (Or.inl rfl)
    · exact Or.inr (Or.inr ⟨bs, rfl, not_not.mp hlen, Int.not_lt.mp hmax, Nat.not_le.mp hsize, rfl⟩)

/-- The ways in which `readpdu` returns. -/
theorem readpdu_cases (h : readpdu r first second = some t) :
    (r.sz = 0 ∧ t = ⟨false, r, [], first.got⟩) ∨
      (r.sz = 0 ∧ ∃ bs, first = .data bs ∧ bs.length = 4 ∧ netInt bs ≤ maxPdu ∧
        mallocSize (netInt bs) < 2 ^ 63 ∧ second.Fits (netInt bs - 4) ∧
        t = { readBody (.ofLength bs) second with
          used := ⟨0, 4, mallocSize (netInt bs)⟩ :: (readBody (.ofLength bs) second).used
          took := bs ++ (readBody (.ofLength bs) second).took }) ∨
      r.sz ≠ 0 ∧ second.Fits (r.sz - r.solong) ∧ t = readBody r second := by
  unfold readpdu at h
  split_ifs at h with hz hfirst hsecond
  · rcases readLength_cases r first with hl | hl | ⟨bs, hbs, hlen, hmax, hsize, hl⟩
    · rw [hl] at h
      exact Or.inl ⟨hz, (Option.some.inj h).symm⟩
    · rw [hl] at h
      cases h
    · rw [hl] at h
      dsimp only at h
      split_ifs at h with hsecond
      refine Or.inr (Or.inl ⟨hz, bs, hbs, hlen, hmax, hsize, hsecond, ?_⟩)
      rw [← Option.some.inj h, hbs]
      rfl
  · exact Or.inr (Or.inr ⟨hz, hsecond, (Option.some.inj h).symm⟩)

end Spec

/-- A buffer that is being filled holds what has been read and has room for the rest. -/
structure Rpdu.Sound (r : Rpdu) : Prop where
  buf : ∀ c, r.buf = some c → 4 ≤ r.solong ∧ r.solong ≤ r.sz ∧ r.sz ≤ maxPdu ∧ r.sz ≤ c.cap
  empty : r.buf = none → r.sz = 0

theorem Rpdu.Sound.blank : Rpdu.blank.Sound where
  buf c h := by cases h
  empty _ := rfl

/-- What the reader needs of the length words. -/
def LengthOk (r : Reader) : ReadEvent → Prop
  | .readCb (.data bs) _ _ => r.dead = false → r.rpdu.sz = 0 → bs.length = 4 → 4 ≤ netInt bs
  | _ => True

section Sound

variable {r : Rpdu} {io first second : IoRead} {t : Taken}

theorem Rpdu.Sound.readBody (h : r.Sound) (hz : r.sz ≠ 0) (hio : io.Fits (r.sz - r.solong)) :
    (Rpc.readBody r io).rpdu.Sound ∧ ∀ a ∈ (Rpc.readBody r io).used, a.InBounds := by
  obtain ⟨c, hc⟩ := Option.ne_none_iff_exists'.mp (mt h.empty hz)
  obtain ⟨h4, hle, hmax, hcap⟩ := h.buf c hc
  have hin : Access.InBounds ⟨r.solong, r.sz - r.solong, r.cap⟩ := by
    rw [Rpdu.cap, hc]
    simp only [Access.InBounds, Option.elim]
    omega
  constructor
  · rcases readBody_cases hio with ⟨bs, -, hlen, he⟩ | he | he
    · rw [he]
      constructor
      · intro c' hc'
        rw [hc] at hc'
        cases hc'
        dsimp only
        omega
      · intro hn
        rw [hc] at hn
        cases hn
    · rw [he]
      exact h
    · rw [he]
      exact .blank
  · intro a ha
    rw [readBody_used] at ha
    rw [List.mem_singleton.mp ha]
    exact hin

theorem mallocSize_of_le {sz : ℤ} (h4 : 4 ≤ sz) (hmax : sz ≤ maxPdu) :
    (mallocSize sz : ℤ) = sz + 4 := by
  unfold maxPdu at hmax
  unfold mallocSize
  omega

theorem Rpdu.Sound.ofLength {bs : List UInt8} (h4 : 4 ≤ netInt bs) (hmax : netInt bs ≤ maxPdu) :
    (Rpdu.ofLength bs).Sound where
  buf c hc := by
    cases hc
    have hm := mallocSize_of_le h4 hmax
    simp only [Rpdu.ofLength]
    omega
  empty h := by cases h

theorem Rpdu.Sound.readpdu (h : r.Sound) (ht : Rpc.readpdu r first second = some t)
    (hlen : r.sz = 0 → ∀ bs, first = .data bs → bs.length = 4 → 4 ≤ netInt bs) :
    t.rpdu.Sound ∧ ∀ a ∈ t.used, a.InBounds := by
  rcases readpdu_cases ht with ⟨-, rfl⟩ | ⟨hz, bs, rfl, h4, hmax, -, hsecond, rfl⟩ |
    ⟨hz, hsecond, rfl⟩
  · exact ⟨h, List.forall_mem_nil _⟩
  · have hn := hlen hz bs rfl h4
    have hz' : (Rpdu.ofLength bs).sz ≠ 0 := by
      simp only [Rpdu.ofLength]
      omega
    obtain ⟨hs, hused⟩ := (Rpdu.Sound.ofLength hn hmax).readBody hz' hsecond
    refine ⟨hs, List.forall_mem_cons.mpr ⟨?_, hused⟩⟩
    have hm := mallocSize_of_le hn hmax
    simp only [Access.InBounds]
    omega
  · exact h.readBody hz hsecond

end Sound

/-- The reader has stayed inside its memory. -/
structure Reader.Safe (r : Reader) : Prop where
  rpdu : r.rpdu.Sound
  used : ∀ a ∈ r.used, a.InBounds

namespace Reader

variable {r r' : Reader}

theorem offer_used (r : Reader) (accept : Bool) : (r.offer accept).used = r.used := by
  unfold offer
  split
  · rfl
  · split_ifs <;> rfl

theorem offer_dead (r : Reader) (accept : Bool) : (r.offer accept).dead = r.dead := by
  unfold offer
  split
  · rfl
  · split_ifs <;> rfl

theorem Safe.offer (h : r.Safe) (accept : Bool) : (r.offer accept).Safe where
  rpdu := by
    unfold Reader.offer
    split
    · exact h.rpdu
    · split_ifs
      · exact .blank
      · exact h.rpdu
  used := by
    rw [offer_used]
    exact h.used

theorem Safe.step (h : r.Safe) {e : ReadEvent} (he : LengthOk r e) (hs : r.step e = some r') :
    r'.Safe := by
  cases e with
  | die =>
    cases hs
    exact ⟨h.rpdu, h.used⟩
  | readCb first second accept =>
    simp only [Reader.step, readCb] at hs
    split_ifs at hs with hdead hmore
    · cases hs
      exact h
    · cases ht : readpdu r.rpdu first second with
      | none =>
        rw [ht] at hs
        cases hs
      | some t =>
        rw [ht] at hs
        cases hs
        have hlen : r.rpdu.sz = 0 → ∀ bs, first = .data bs → bs.length = 4 → 4 ≤ netInt bs := by
          intro hz bs hbs h4
          subst hbs
          exact he (by simpa using hdead) hz h4
        obtain ⟨hr, hused⟩ := h.rpdu.readpdu ht hlen
        apply Safe.offer
        refine ⟨hr, fun a ha => ?_⟩
        obtain ha | ha := List.mem_append.mp ha
        · exact h.used a ha
        · exact hused a ha
    · cases hs
      exact h.offer accept

/-- A length word that is out of range ends the connection. -/
theorem Safe.dead_of_length (h : r.Safe) {bs : List UInt8} {second : IoRead} {accept : Bool}
    (hok : LengthOk r (.readCb (.data bs) second accept)) (hdead : r.dead = false)
    (hz : r.rpdu.sz = 0) (h4 : bs.length = 4) (hbad : netInt bs < 4 ∨ maxPdu < netInt bs)
    (hs : r.step (.readCb (.data bs) second accept) = some r') : r'.dead = true := by
  have hn := hok hdead hz h4
  have hbuf : r.rpdu.buf = none := by
    cases hb : r.rpdu.buf with
    | none => rfl
    | some c =>
      have := h.rpdu.buf c hb
      omega
  simp only [Reader.step, readCb, hdead, hbuf, Option.isNone_none, Bool.true_or, if_true,
    Bool.false_eq_true, if_false] at hs
  cases ht : readpdu r.rpdu (.data bs) second with
  | none =>
    rw [ht] at hs
    cases hs
  | some t =>
    rw [ht] at hs
    rw [← Option.some.inj hs, offer_dead]
    rcases readpdu_cases ht with ⟨-, rfl⟩ | ⟨-, bs', hbs', -, hmax, -⟩ | ⟨hne, -⟩
    · rfl
    · cases hbs'
      omega
    · exact absurd hz hne

end Reader

/-- As long as every length word is at least 4, the reader stays inside its memory, and it dies of
a length word that is too big. -/
theorem reader_safe (events : List ReadEvent) (r : Reader)
    (hok : Meets Reader.step LengthOk events .start)
    (hrun : runs Reader.step events .start = some r) :
    (∀ c, r.rpdu.buf = some c → 4 ≤ r.rpdu.solong ∧ r.rpdu.solong ≤ r.rpdu.sz ∧
        r.rpdu.sz ≤ maxPdu ∧ r.rpdu.sz ≤ c.cap) ∧
      (∀ a ∈ r.used, a.InBounds) ∧
      ∀ bs second accept r', LengthOk r (.readCb (.data bs) second accept) → r.dead = false →
        r.rpdu.sz = 0 → bs.length = 4 → netInt bs < 4 ∨ maxPdu < netInt bs →
          r.step (.readCb (.data bs) second accept) = some r' → r'.dead = true := by
  have h0 : Reader.start.Safe := ⟨.blank, List.forall_mem_nil _⟩
  have h := hok.invariant _ (fun s e s' hs he hstep => hs.step he hstep) h0 hrun
  exact ⟨h.rpdu.buf, h.used, fun bs second accept r' hl hdead hz h4 hbad hs =>
    h.dead_of_length hl hdead hz h4 hbad hs⟩

/-- A PDU of six bytes that comes in three pieces. -/
def threePieces : List ReadEvent :=
  [.readCb (.data [0, 0, 0, 6]) (.data [1]) true, .readCb (.eof false) (.data [2]) true]

theorem reader_safe_example : ∃ r, runs Reader.step threePieces .start = some r ∧
    r.accepted = [[0, 0, 0, 6, 1, 2]] ∧ ∀ a ∈ r.used, a.InBounds := by
  have hok : Meets Reader.step LengthOk threePieces .start :=
    ⟨fun _ _ _ => by decide, fun s' _ => ⟨trivial, fun _ _ => trivial⟩⟩
  exact ⟨_, rfl, rfl, (reader_safe threePieces _ hok rfl).2.1⟩

/-- After a length word of 0 the reader asks for -4 bytes, and after one of -1 it puts four bytes
into a buffer of three. -/
theorem length_unchecked :
    (∃ r, runs Reader.step [.readCb (.data [0, 0, 0, 0]) (.failed false) true] .start = some r ∧
      ∃ a ∈ r.used, a.count = -4 ∧ ¬ a.InBounds) ∧
    ∃ r, runs Reader.step [.readCb (.data [255, 255, 255, 255]) (.failed false) true] .start =
        some r ∧
      ∃ a ∈ r.used, a.count = 4 ∧ a.cap = 3 ∧ ¬ a.InBounds := by
  constructor
  · refine ⟨_, rfl, ⟨4, -4, 4⟩, List.mem_cons_of_mem _ (List.mem_cons_self ..), rfl, by decide⟩
  · refine ⟨_, rfl, ⟨0, 4, 3⟩, List.mem_cons_self .., rfl, rfl, by decide⟩

end Yfs.Rpc
