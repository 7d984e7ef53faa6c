import Yfs.Rpc.RoundTrip

/-! Arguments out of a buffer that nobody vouches for: what the extractors read of it, and what they
accept. -/
namespace Yfs.Rpc
open Effect

/-- All that has been read lies in the buffer. -/
def Unmarshall.Safe (u : Unmarshall) : Prop := ∀ a ∈ u.used, a.InBounds ∧ a.cap = u.sz

/-- What no operation does: change the buffer, take a failure back, forget what has been read. -/
structure Keeps {α : Type} (g : Get α) : Prop where
  buf : ∀ u, (g u).2.buf = u.buf
  sz : ∀ u, (g u).2.sz = u.sz
  ok : ∀ u, (g u).2.ok = true → u.ok = true
  used : ∀ u, u.used ⊆ (g u).2.used

/-- An operation that takes `n` bytes, or fails when there are fewer. -/
structure Takes {α : Type} (g : Get α) (n : ℕ) : Prop extends Keeps g where
  rest : ∀ u, (g u).2.ok = true → u.rest.length = n + (g u).2.rest.length
  safe : ∀ u, u.Safe → (g u).2.Safe

variable {α β : Type} {g : Get α} {f : α → Get β} {n m : ℕ} {u : Unmarshall}

/-- The byte at the cursor is read, or there is none. -/
theorem rawbyte_cases (u : Unmarshall) :
    (u.sz ≤ u.ind ∧ Unmarshall.rawbyte u = (0, { u with ok := false })) ∨
    (u.ind < u.sz ∧ Unmarshall.rawbyte u = ((u.buf u.ind).toInt8.toInt32.toUInt32,
      { u with ind := u.ind + 1, used := u.used ++ [⟨u.ind, 1, u.sz⟩] })) := by
  unfold Unmarshall.rawbyte
  by_cases h : u.ind ≥ u.sz
  · exact Or.inl ⟨h, if_pos h⟩
  · exact Or.inr ⟨Nat.lt_of_not_le h, if_neg h⟩

theorem rawbytes_cases (s : List UInt8) (n : UInt32) (u : Unmarshall) :
    (u.sz < (u.ind + n.toNat) % 2 ^ 32 ∧
      Unmarshall.rawbytes s n u = (s, { u with ok := false })) ∨
    ((u.ind + n.toNat) % 2 ^ 32 ≤ u.sz ∧
      Unmarshall.rawbytes s n u = (slice u.buf u.ind n.toNat,
        { u with
          ind := (u.ind + n.toNat) % 2 ^ 32
          used := u.used ++ [⟨u.ind, n.toNat, u.sz⟩] })) := by
  unfold Unmarshall.rawbytes
  by_cases h : (u.ind + n.toNat) % 2 ^ 32 > u.sz
  · exact Or.inl ⟨h, if_pos h⟩
  · exact Or.inr ⟨Nat.le_of_not_lt h, if_neg h⟩

/-- One more access. -/
theorem Unmarshall.Safe.append (h : u.Safe) {a : Access} (ha : a.InBounds ∧ a.cap = u.sz) :
    ∀ x ∈ u.used ++ [a], x.InBounds ∧ x.cap = u.sz := by
  intro x hx
  obtain hx | hx := List.mem_append.mp hx
  · exact h x hx
  · exact List.mem_singleton.mp hx ▸ ha

namespace Keeps

theorem pure (v : α) : Keeps (Pure.pure v) :=
  ⟨fun _ => rfl, fun _ => rfl, fun _ => id, fun _ _ => id⟩

theorem bind (h : Keeps g) (h' : ∀ v, Keeps (f v)) : Keeps (g >>= f) where
  buf u := ((h' _).buf _).trans (h.buf u)
  sz u := ((h' _).sz _).trans (h.sz u)
  ok u hok := h.ok u ((h' _).ok _ hok)
  used u := List.Subset.trans (h.used u) ((h' _).used _)

theorem of_run (h : ∀ u, (g u).2.buf = u.buf ∧ (g u).2.sz = u.sz ∧
    ((g u).2.ok = true → u.ok = true) ∧ u.used ⊆ (g u).2.used) : Keeps g :=
  ⟨fun u => (h u).1, fun u => (h u).2.1, fun u => (h u).2.2.1, fun u => (h u).2.2.2⟩

theorem rawbyte : Keeps Unmarshall.rawbyte := by
  apply of_run
  intro u
  obtain ⟨-, hrun⟩ | ⟨-, hrun⟩ := rawbyte_cases u
  · rw [hrun]
    exact ⟨rfl, rfl, fun h => absurd h Bool.false_ne_true, List.Subset.refl _⟩
  · rw [hrun]
    exact ⟨rfl, rfl, id, List.subset_append_left _ _⟩

theorem rawbytes (s : List UInt8) (n : UInt32) : Keeps (Unmarshall.rawbytes s n) := by
  apply of_run
  intro u
  obtain ⟨-, hrun⟩ | ⟨-, hrun⟩ := rawbytes_cases s n u
  · rw [hrun]
    exact ⟨rfl, rfl, fun h => absurd h Bool.false_ne_true, List.Subset.refl _⟩
  · rw [hrun]
    exact ⟨rfl, rfl, id, List.subset_append_left _ _⟩

end Keeps

namespace Takes

theorem pure (v : α) : Takes (Pure.pure v) 0 where
  toKeeps := Keeps.pure v
  rest _ _ := (Nat.zero_add _).symm
  safe _ := id

theorem bind (h : Takes g n) (h' : ∀ v, Takes (f v) m) : Takes (g >>= f) (n + m) where
  toKeeps := h.toKeeps.bind fun v => (h' v).toKeeps
  rest u hok := by
    have h₁ := (h' _).rest _ hok
    have h₂ := h.rest u ((h' _).ok _ hok)
    rw [h₂, h₁, Nat.add_assoc]
    rfl
  safe u hu := (h' _).safe _ (h.safe u hu)

theorem map (h : Takes g n) (k : α → β) : Takes (do return k (← g)) n :=
  h.bind fun v => pure (k v)

theorem rawbyte : Takes Unmarshall.rawbyte 1 where
  toKeeps := Keeps.rawbyte
  rest u := by
    obtain ⟨-, hrun⟩ | ⟨hlt, hrun⟩ := rawbyte_cases u
    · rw [hrun]
      exact fun h => absurd h Bool.false_ne_true
    · rw [hrun]
      intro _
      unfold Unmarshall.rest
      rw [length_slice, length_slice]
      dsimp only
      omega
  safe u hu := by
    obtain ⟨-, hrun⟩ | ⟨hlt, hrun⟩ := rawbyte_cases u
    · rw [hrun]
      exact hu
    · rw [hrun]
      apply hu.append
      unfold Access.InBounds
      dsimp only
      omega

theorem word : Takes Unmarshall.word 4 :=
  rawbyte.bind fun _ => rawbyte.bind fun _ => rawbyte.bind fun _ => rawbyte.map _

theorem getUshort : Takes Unmarshall.getUshort 2 := rawbyte.bind fun _ => rawbyte.map _

theorem getUlonglong : Takes Unmarshall.getUlonglong 8 := word.bind fun _ => word.map _

end Takes

/-- A type of `w` bytes, every one of which is a value. -/
structure Fixed (c : Codec) (w : ℕ) : Prop where
  takes : Takes (c.get c.fresh) w
  length : ∀ v, (c.enc v).length = w
  onto : ∀ l : List UInt8, l.length = w → ∃ v, c.enc v = l

namespace Fixed

theorem uchar : Fixed .uchar 1 where
  takes := Takes.rawbyte.map _
  length _ := rfl
  onto l hl := by
    obtain ⟨b, rfl⟩ := List.length_eq_one_iff.mp hl
    exact ⟨b, rfl⟩

theorem char : Fixed .char 1 where
  takes := (Takes.rawbyte.map _).map _
  length _ := rfl
  onto l hl := by
    obtain ⟨b, rfl⟩ := List.length_eq_one_iff.mp hl
    exact ⟨b.toInt8, congrArg (fun x => [x]) (UInt8.toUInt8_toInt8 b)⟩

theorem ushort : Fixed .ushort 2 where
  takes := Takes.getUshort
  length _ := rfl
  onto l hl := ⟨shortWord l, shortBytes_of_length hl⟩

theorem short : Fixed .short 2 where
  takes := Takes.getUshort.map _
  length _ := rfl
  onto l hl := ⟨(shortWord l).toInt16, by
    have h := shortBytes_of_length hl
    rwa [← UInt16.toUInt16_toInt16 (shortWord l)] at h⟩

theorem uint : Fixed .uint 4 where
  takes := Takes.word
  length := length_netBytes
  onto l hl := ⟨netWord l, netBytes_of_length hl⟩

theorem int : Fixed .int 4 where
  takes := Takes.word.map _
  length x := length_netBytes x.toUInt32
  onto l hl := ⟨(netWord l).toInt32, by
    have h := netBytes_of_length hl
    rwa [← UInt32.toUInt32_toInt32 (netWord l)] at h⟩

theorem ulonglong : Fixed .ulonglong 8 where
  takes := Takes.getUlonglong
  length x := by
    unfold Codec.enc Codec.ulonglong
    rw [List.length_append, length_netBytes, length_netBytes]
  onto l hl := by
    have h₁ : (l.take 4).length = 4 := by
      rw [List.length_take]
      omega
    have h₂ : (l.drop 4).length = 4 := by
      rw [List.length_drop]
      omega
    obtain ⟨hh, hlow⟩ := halves_or (netWord (l.take 4)) (netWord (l.drop 4))
    refine ⟨(netWord (l.drop 4)).toUInt64 ||| (netWord (l.take 4)).toUInt64 <<< 32, ?_⟩
    unfold Codec.enc Codec.ulonglong
    dsimp only
    rw [hh, hlow, netBytes_of_length h₁, netBytes_of_length h₂, List.take_append_drop]

variable {c : Codec} {w : ℕ}

/-- Where there is room, the bytes at the cursor are those of the value. -/
theorem good (h : Fixed c w) (hok : u.ok = true) (hsz : u.sz < 2 ^ 31) (hfit : u.ind + w ≤ u.sz) :
    Consumes u w (c.get c.fresh u).2 ∧
      u.rest = c.enc (c.get c.fresh u).1 ++ (c.get c.fresh u).2.rest := by
  have hsplit : u.rest = slice u.buf u.ind w ++ slice u.buf (u.ind + w) (u.sz - u.ind - w) := by
    unfold Unmarshall.rest
    rw [← slice_add]
    congr 1
    omega
  obtain ⟨v, hv⟩ := h.onto (slice u.buf u.ind w) length_slice
  rw [← hv] at hsplit
  obtain ⟨u', hrun, hc⟩ := c.yields v u _ (by omega) hsz hok hsplit
  rw [hrun]
  dsimp only
  constructor
  · exact h.length v ▸ hc
  · rw [hc.rest hsplit]
    exact hsplit

theorem bad (h : Fixed c w) (hfit : u.rest.length < w) :
    (c.get c.fresh u).2.ok = false ∧ ¬ c.enc (c.get c.fresh u).1 <+: u.rest := by
  constructor
  · apply Bool.eq_false_iff.mpr
    intro hok
    have hrest := h.takes.rest u hok
    omega
  · intro hpre
    have hle := hpre.length_le
    rw [h.length] at hle
    omega

end Fixed

/-! Strings. -/

/-- The length of a string, where there is room for it. -/
theorem word_run (hok : u.ok = true) (hsz : u.sz < 2 ^ 31) (hfit : u.ind + 4 ≤ u.sz) :
    ∃ u', Unmarshall.word u = (netWord (slice u.buf u.ind 4), u') ∧ Consumes u 4 u' := by
  have hbytes : netBytes (netWord (slice u.buf u.ind 4)) = slice u.buf u.ind 4 :=
    netBytes_of_length length_slice
  have hsplit : u.rest = netBytes (netWord (slice u.buf u.ind 4)) ++
      slice u.buf (u.ind + 4) (u.sz - u.ind - 4) := by
    unfold Unmarshall.rest
    rw [hbytes, ← slice_add]
    congr 1
    omega
  exact Yields.word_netBytes _ u _ (by omega) hsz hok hsplit

theorem Keeps.get {f : Unmarshall → Get α} (h : ∀ u, Keeps (f u)) :
    Keeps (MonadState.get >>= f) :=
  ⟨fun u => (h u).buf u, fun u => (h u).sz u, fun u => (h u).ok u, fun u => (h u).used u⟩

theorem getString_keeps (s : List UInt8) : Keeps (Unmarshall.getString s) := by
  apply Keeps.bind Takes.word.toKeeps
  intro n
  apply Keeps.get
  intro u
  split_ifs
  · exact Keeps.rawbytes s n
  · exact Keeps.pure s

theorem getString_run (s : List UInt8) {w : UInt32} {u' : Unmarshall}
    (hrun : Unmarshall.word u = (w, u')) :
    Unmarshall.getString s u = if u'.ok = true then Unmarshall.rawbytes s w u' else (s, u') := by
  unfold Unmarshall.getString Unmarshall.getUint
  rw [run_bind hrun]
  change (if u'.ok = true then Unmarshall.rawbytes s w else pure s) u' = _
  split_ifs
  · rfl
  · rfl

/-- Once there is no room for the length, the characters are not read. -/
theorem getString_short (s : List UInt8) {w : UInt32} {u' : Unmarshall}
    (hrun : Unmarshall.word u = (w, u')) (h : u'.ok = false) :
    Unmarshall.getString s u = (s, u') := by
  rw [getString_run s hrun, if_neg (Bool.eq_false_iff.mp h)]

/-- What follows the length. -/
theorem getString_word (s : List UInt8) (hok : u.ok = true) (hsz : u.sz < 2 ^ 31)
    (hfit : u.ind + 4 ≤ u.sz) :
    ∃ u', Consumes u 4 u' ∧ (u.Safe → u'.Safe) ∧
      Unmarshall.getString s u = Unmarshall.rawbytes s (netWord (slice u.buf u.ind 4)) u' := by
  obtain ⟨u', hrun, hc⟩ := word_run hok hsz hfit
  refine ⟨u', hc, ?_, ?_⟩
  · intro hu
    have hsafe := Takes.word.safe u hu
    rwa [hrun] at hsafe
  · rw [getString_run s hrun, if_pos hc.ok]

/-- What comes of a string: the characters are there, or they are not, or the sum wraps. -/
theorem getString_cases (hok : u.ok = true) (hsz : u.sz < 2 ^ 31) (hfit : u.ind + 4 ≤ u.sz) {n : ℕ}
    (hn : (netWord (slice u.buf u.ind 4)).toNat = n) :
    (u.ind + (4 + n) ≤ u.sz →
      (Unmarshall.getString [] u).1 = slice u.buf (u.ind + 4) n ∧
      Consumes u (4 + n) (Unmarshall.getString [] u).2 ∧
      (u.Safe → (Unmarshall.getString [] u).2.Safe)) ∧
    (u.sz < u.ind + (4 + n) → u.ind + (4 + n) < 2 ^ 32 →
      (Unmarshall.getString [] u).1 = [] ∧ (Unmarshall.getString [] u).2.ok = false ∧
      (u.Safe → (Unmarshall.getString [] u).2.Safe)) ∧
    (2 ^ 32 ≤ u.ind + (4 + n) → ∃ a ∈ (Unmarshall.getString [] u).2.used, ¬ a.InBounds) := by
  obtain ⟨u', hc, hsafe, hrun⟩ := getString_word [] hok hsz hfit
  have hind := hc.ind
  have hsz' := hc.sz
  have hlt := (netWord (slice u.buf u.ind 4)).toNat_lt
  rw [hrun]
  obtain ⟨hmod, hread⟩ | ⟨hmod, hread⟩ := rawbytes_cases [] (netWord (slice u.buf u.ind 4)) u'
  · rw [hread]
    rw [hn] at hmod
    refine ⟨?_, fun _ _ => ⟨rfl, rfl, hsafe⟩, ?_⟩
    · intro h
      rw [Nat.mod_eq_of_lt (by omega)] at hmod
      omega
    · intro h
      omega
  · rw [hread]
    rw [hn] at hmod ⊢
    refine ⟨?_, ?_, ?_⟩
    · intro h
      have heq : (u'.ind + n) % 2 ^ 32 = u'.ind + n := Nat.mod_eq_of_lt (by omega)
      rw [heq, hind, hc.buf]
      refine ⟨rfl, ⟨rfl, hsz', by dsimp only; omega, hc.ok, by dsimp only; omega⟩, ?_⟩
      intro hu
      apply (hsafe hu).append
      unfold Access.InBounds
      dsimp only
      omega
    · intro h h32
      rw [Nat.mod_eq_of_lt (by omega)] at hmod
      omega
    · intro h
      refine ⟨⟨u'.ind, n, u'.sz⟩, List.mem_append_right _ List.mem_cons_self, ?_⟩
      unfold Access.InBounds
      dsimp only
      omega

theorem getString_dead (h : (Unmarshall.word u).2.ok = false) :
    (Unmarshall.getString [] u).1 = [] ∧ (Unmarshall.getString [] u).2.ok = false ∧
      (u.Safe → (Unmarshall.getString [] u).2.Safe) := by
  cases hw : Unmarshall.word u with
  | mk w u' =>
    rw [hw] at h
    have hsafe := Takes.word.safe u
    rw [hw] at hsafe
    rw [getString_short [] hw h]
    exact ⟨rfl, h, hsafe⟩

/-- The bytes that have been taken, and the rest. -/
theorem Consumes.split {u' : Unmarshall} (h : Consumes u n u') :
    u.rest = slice u.buf u.ind n ++ u'.rest := by
  have hind := h.ind
  have hsz := h.sz
  have hle := h.le
  unfold Unmarshall.rest
  rw [h.buf, h.sz, h.ind, ← slice_add]
  congr 1
  omega

theorem string_enc {n : ℕ} (hn : (netWord (slice u.buf u.ind 4)).toNat = n) :
    Codec.string.enc (slice u.buf (u.ind + 4) n) = slice u.buf u.ind (4 + n) := by
  unfold Codec.enc Codec.string
  dsimp only
  rw [length_slice, ← hn, UInt32.ofNat_toNat, netBytes_of_length length_slice, hn, ← slice_add]

/-- An empty string is not what comes next when another length does. -/
theorem not_empty_string (h : u.sz < u.ind + (4 + (netWord (slice u.buf u.ind 4)).toNat)) :
    ¬ Codec.string.enc [] <+: u.rest := by
  intro hpre
  obtain ⟨t, ht⟩ := hpre
  have hlen := congrArg List.length ht
  have hfour : (Codec.string.enc []).length = 4 := rfl
  have hrest : u.rest.length = u.sz - u.ind := length_slice
  rw [List.length_append, hfour, hrest] at hlen
  have hsplit : u.rest = slice u.buf u.ind 4 ++ slice u.buf (u.ind + 4) (u.sz - u.ind - 4) := by
    unfold Unmarshall.rest
    rw [← slice_add]
    congr 1
    omega
  rw [hsplit] at ht
  have hzero := (List.append_inj ht (by rw [hfour, length_slice])).1
  have hword : netWord (slice u.buf u.ind 4) = 0 := by
    rw [← hzero]
    rfl
  rw [hword] at h
  have h0 : UInt32.toNat 0 = 0 := rfl
  omega

/-! One argument. -/

/-- How many bytes an argument takes at this place. -/
def Arg.span (b : ℕ → UInt8) (c : ℕ) : Arg → ℕ
  | .uchar | .char => 1
  | .ushort | .short => 2
  | .uint | .int => 4
  | .ulonglong => 8
  | .string => 4 + (netWord (slice b c 4)).toNat

/-- The end of a string that begins at this place is an unsigned int. -/
def Arg.Fair (b : ℕ → UInt8) (sz c : ℕ) (a : Arg) : Prop :=
  a = .string → c + 4 ≤ sz → c + a.span b c < 2 ^ 32

/-- The value of an argument and what is left after it. -/
def Arg.extract (a : Arg) : Get a.codec.Val := a.codec.get a.codec.fresh

theorem Arg.fixed {a : Arg} (h : a ≠ .string) (b : ℕ → UInt8) (c : ℕ) :
    Fixed a.codec (a.span b c) ∧ 0 < a.span b c := by
  cases a with
  | uchar => exact ⟨Fixed.uchar, Nat.zero_lt_succ _⟩
  | char => exact ⟨Fixed.char, Nat.zero_lt_succ _⟩
  | ushort => exact ⟨Fixed.ushort, Nat.zero_lt_succ _⟩
  | short => exact ⟨Fixed.short, Nat.zero_lt_succ _⟩
  | uint => exact ⟨Fixed.uint, Nat.zero_lt_succ _⟩
  | int => exact ⟨Fixed.int, Nat.zero_lt_succ _⟩
  | ulonglong => exact ⟨Fixed.ulonglong, Nat.zero_lt_succ _⟩
  | string => exact absurd rfl h

theorem Arg.keeps (a : Arg) : Keeps a.extract := by
  by_cases h : a = .string
  · subst h
    exact getString_keeps []
  · exact (Arg.fixed h (fun _ => 0) 0).1.takes.toKeeps

/-- Where there is room, the bytes at the cursor are those of the value. -/
theorem Arg.good {a : Arg} (hok : u.ok = true) (hsz : u.sz < 2 ^ 31)
    (hfit : u.ind + a.span u.buf u.ind ≤ u.sz) :
    Consumes u (a.span u.buf u.ind) (a.extract u).2 ∧
      u.rest = a.codec.enc (a.extract u).1 ++ (a.extract u).2.rest ∧
      (u.Safe → (a.extract u).2.Safe) := by
  by_cases h : a = .string
  · subst h
    change u.ind + (4 + (netWord (slice u.buf u.ind 4)).toNat) ≤ u.sz at hfit
    obtain ⟨hval, hc, hsafe⟩ := (getString_cases hok hsz (by omega) rfl).1 hfit
    refine ⟨hc, ?_, hsafe⟩
    have henc := string_enc (u := u) rfl
    rw [← hval] at henc
    exact hc.split.trans (congrArg (· ++ _) henc.symm)
  · obtain ⟨hf, -⟩ := Arg.fixed h u.buf u.ind
    obtain ⟨hc, hrest⟩ := hf.good hok hsz hfit
    exact ⟨hc, hrest, hf.takes.safe u⟩

/-- Where there is none, the extractor fails, and its value is not what comes next. -/
theorem Arg.bad {a : Arg} (hok : u.ok = true) (hsz : u.sz < 2 ^ 31)
    (hfit : u.sz < u.ind + a.span u.buf u.ind) (hfair : a.Fair u.buf u.sz u.ind) :
    (a.extract u).2.ok = false ∧ ¬ a.codec.enc (a.extract u).1 <+: u.rest ∧
      (u.Safe → (a.extract u).2.Safe) := by
  have hlen : u.rest.length = u.sz - u.ind := length_slice
  by_cases h : a = .string
  · subst h
    have hempty := not_empty_string hfit
    have hend : (Unmarshall.getString [] u).1 = [] ∧ (Unmarshall.getString [] u).2.ok = false ∧
        (u.Safe → (Unmarshall.getString [] u).2.Safe) := by
      by_cases hroom : u.ind + 4 ≤ u.sz
      · exact (getString_cases hok hsz hroom rfl).2.1 hfit (hfair rfl hroom)
      · apply getString_dead
        apply Bool.eq_false_iff.mpr
        intro hword
        have hrest := Takes.word.rest u hword
        omega
    obtain ⟨hval, hdead, hsafe⟩ := hend
    refine ⟨hdead, ?_, hsafe⟩
    change ¬ Codec.string.enc (Unmarshall.getString [] u).1 <+: u.rest
    rw [hval]
    exact hempty
  · obtain ⟨hf, hpos⟩ := Arg.fixed h u.buf u.ind
    obtain ⟨hdead, hpre⟩ := hf.bad (u := u) (by omega)
    exact ⟨hdead, hpre, hf.takes.safe u⟩

/-- A sum that wraps is an access outside the buffer. -/
theorem Arg.wrap {a : Arg} (hok : u.ok = true) (hsz : u.sz < 2 ^ 31)
    (hfair : ¬ a.Fair u.buf u.sz u.ind) : ∃ x ∈ (a.extract u).2.used, ¬ x.InBounds := by
  unfold Arg.Fair at hfair
  push Not at hfair
  obtain ⟨rfl, hroom, hwrap⟩ := hfair
  exact (getString_cases hok hsz hroom rfl).2.2 hwrap

/-- After a failure nothing is read that is not there. -/
theorem Arg.dead (a : Arg) (hok : u.ok = false) (hu : u.Safe) : (a.extract u).2.Safe := by
  by_cases h : a = .string
  · subst h
    apply (getString_dead _).2.2 hu
    apply Bool.eq_false_iff.mpr
    intro hword
    rw [Takes.word.ok u hword] at hok
    cases hok
  · exact (Arg.fixed h (fun _ => 0) 0).1.takes.safe u hu

/-! A list of arguments. -/

/-- No string that is reached wraps the sum: the places are those of the arguments that fit. -/
def NoWrap (b : ℕ → UInt8) (sz : ℕ) : List Arg → ℕ → Prop
  | [], _ => True
  | a :: as, c => a.Fair b sz c ∧ (c + a.span b c ≤ sz → NoWrap b sz as (c + a.span b c))

instance (b : ℕ → UInt8) (sz c : ℕ) (a : Arg) : Decidable (a.Fair b sz c) :=
  inferInstanceAs (Decidable (_ → _ → _))

instance NoWrap.decidable (b : ℕ → UInt8) (sz : ℕ) :
    (as : List Arg) → (c : ℕ) → Decidable (NoWrap b sz as c)
  | [], _ => isTrue trivial
  | a :: as, c =>
    have := NoWrap.decidable b sz as (c + a.span b c)
    inferInstanceAs (Decidable (_ ∧ (_ → _)))

theorem getAll_cons (a : Arg) (as : List Arg) (u : Unmarshall) :
    getAll ((a :: as).map Ty.arg) u =
      (⟨Ty.arg a, (a.extract u).1⟩ :: (getAll (as.map Ty.arg) (a.extract u).2).1,
        (getAll (as.map Ty.arg) (a.extract u).2).2) := rfl

theorem getAll_keeps (as : List Arg) : Keeps (getAll (as.map Ty.arg)) := by
  induction as with
  | nil => exact Keeps.pure []
  | cons a as ih => exact a.keeps.bind fun v => ih.bind fun vs => Keeps.pure _

theorem getAll_dead (as : List Arg) (hok : u.ok = false) (hu : u.Safe) :
    (getAll (as.map Ty.arg) u).2.Safe := by
  induction as generalizing u with
  | nil => exact hu
  | cons a as ih =>
    have hdead : (a.extract u).2.ok = false := by
      apply Bool.eq_false_iff.mpr
      intro h
      rw [a.keeps.ok u h] at hok
      cases hok
    exact ih hdead (a.dead hok hu)

theorem okdone_of_not_ok (h : u.ok = false) : u.okdone = false := by
  unfold Unmarshall.okdone
  rw [h, Bool.false_and]

theorem getAll_not_okdone (as : List Arg) (hok : u.ok = false) :
    (getAll (as.map Ty.arg) u).2.okdone = false := by
  apply okdone_of_not_ok
  apply Bool.eq_false_iff.mpr
  intro h
  rw [(getAll_keeps as).ok u h] at hok
  cases hok

/-- Extraction ends well exactly when the values are what the buffer holds. -/
theorem getAll_accepts (as : List Arg) (hok : u.ok = true) (hsz : u.sz < 2 ^ 31)
    (hnw : NoWrap u.buf u.sz as u.ind) :
    ((getAll (as.map Ty.arg) u).2.okdone = true ↔
      u.ind ≤ u.sz ∧ (getAll (as.map Ty.arg) u).1.flatMap Value.enc = u.rest) ∧
    (u.Safe → (getAll (as.map Ty.arg) u).2.Safe) := by
  induction as generalizing u with
  | nil =>
    constructor
    · constructor
      · intro h
        have hind : u.ind = u.sz := by
          change u.okdone = true at h
          unfold Unmarshall.okdone at h
          rw [hok, Bool.true_and, beq_iff_eq] at h
          exact h
        exact ⟨hind.le, ((okdone_iff hok hind.le).mp h).symm⟩
      · rintro ⟨hle, hrest⟩
        exact (okdone_iff hok hle).mpr hrest.symm
    · exact id
  | cons a as ih =>
    rw [getAll_cons]
    dsimp only
    rw [List.flatMap_cons]
    change (_ ↔ _ ∧ a.codec.enc (a.extract u).1 ++ _ = _) ∧ _
    by_cases hfit : u.ind + a.span u.buf u.ind ≤ u.sz
    · obtain ⟨hc, hrest, hsafe⟩ := Arg.good hok hsz hfit
      have hle : u.ind ≤ u.sz := (Nat.le_add_right _ _).trans hfit
      have hnext := hnw.2 hfit
      rw [← hc.ind, ← hc.buf, ← hc.sz] at hnext
      obtain ⟨hiff, hsafe'⟩ := ih hc.ok (hc.sz ▸ hsz) hnext
      rw [hiff, hrest, List.append_right_inj]
      exact ⟨⟨fun h => ⟨hle, h.2⟩, fun h => ⟨hc.le, h.2⟩⟩, fun hu => hsafe' (hsafe hu)⟩
    · obtain ⟨hdead, hpre, hsafe⟩ := Arg.bad hok hsz (Nat.lt_of_not_le hfit) hnw.1
      constructor
      · constructor
        · intro h
          rw [getAll_not_okdone as hdead] at h
          cases h
        · rintro ⟨-, heq⟩
          exact absurd ⟨_, heq⟩ hpre
      · exact fun hu => getAll_dead as hdead (hsafe hu)

/-- Otherwise something is read that is not in the buffer. -/
theorem getAll_wraps (as : List Arg) (hok : u.ok = true) (hsz : u.sz < 2 ^ 31)
    (hnw : ¬ NoWrap u.buf u.sz as u.ind) :
    ∃ x ∈ (getAll (as.map Ty.arg) u).2.used, ¬ x.InBounds := by
  induction as generalizing u with
  | nil => exact absurd trivial hnw
  | cons a as ih =>
    rw [getAll_cons]
    dsimp only
    by_cases hfair : a.Fair u.buf u.sz u.ind
    · have hnext : ¬ (u.ind + a.span u.buf u.ind ≤ u.sz →
          NoWrap u.buf u.sz as (u.ind + a.span u.buf u.ind)) := fun h => hnw ⟨hfair, h⟩
      push Not at hnext
      obtain ⟨hfit, hnext⟩ := hnext
      obtain ⟨hc, -, -⟩ := Arg.good hok hsz hfit
      rw [← hc.ind, ← hc.buf, ← hc.sz] at hnext
      exact ih hc.ok (hc.sz ▸ hsz) hnext
    · obtain ⟨x, hx, hbad⟩ := Arg.wrap hok hsz hfair
      exact ⟨x, (getAll_keeps as).used _ hx, hbad⟩

/-! The header. -/

theorem Takes.unpack : Takes Unmarshall.unpack 4 := Takes.word.map _

variable {sum : Bool}

/-- Every stretch of bytes is a header. -/
theorem exists_header (b : ℕ → UInt8) (c : ℕ) (k : HeaderKind) :
    ∃ h : Header, h.kind = k ∧ slice b c h.enc.length = h.enc := by
  have hword : ∀ a, netBytes (netWord (slice b a 4)) = slice b a 4 :=
    fun a => netBytes_of_length length_slice
  cases k with
  | req =>
    refine ⟨.req ⟨(netWord (slice b c 4)).toInt32, (netWord (slice b (c + 4) 4)).toInt32,
      netWord (slice b (c + 8) 4), netWord (slice b (c + 12) 4),
      (netWord (slice b (c + 16) 4)).toInt32⟩, rfl, ?_⟩
    unfold Header.enc
    rw [ReqHeader.length_enc]
    unfold ReqHeader.enc
    simp only [UInt32.toUInt32_toInt32, hword]
    rw [← slice_add, ← slice_add, ← slice_add, ← slice_add]
  | reply =>
    refine ⟨.reply ⟨(netWord (slice b c 4)).toInt32, (netWord (slice b (c + 4) 4)).toInt32⟩, rfl,
      ?_⟩
    unfold Header.enc
    rw [ReplyHeader.length_enc]
    unfold ReplyHeader.enc
    simp only [UInt32.toUInt32_toInt32, hword]
    rw [← slice_add]

/-- The cursor stands behind the header, even where there is no such place. -/
structure Arrived (sum : Bool) (u u' : Unmarshall) : Prop where
  buf : u'.buf = u.buf
  sz : u'.sz = u.sz
  ind : u'.ind = rpcHeaderSz sum
  safe : u.Safe → u'.Safe

theorem Takes.arrives (h : Takes g n) (u : Unmarshall) :
    Arrived sum u (Unmarshall.inHeader sum g u).2 :=
  ⟨h.buf _, h.sz _, rfl, fun hu => h.safe _ hu⟩

theorem Arrived.map {u' : Unmarshall} (h : Arrived sum u (g u').2) (k : α → β) :
    Arrived sum u ((do return k (← g) : Get β) u').2 := h

theorem unpackHeader_arrives (k : HeaderKind) (u : Unmarshall) :
    Arrived sum u (Unmarshall.unpackHeader sum k u).2 := by
  cases k with
  | req =>
    have hf := Takes.unpack.bind fun xid => Takes.unpack.bind fun proc => Takes.unpack.bind
      fun cltNonce => Takes.unpack.bind fun srvNonce => Takes.unpack.map
        (ReqHeader.mk xid proc cltNonce.toUInt32 srvNonce.toUInt32)
    have ha : Arrived sum u _ := hf.arrives u
    exact Arrived.map (g := Unmarshall.unpackReqHeader sum) ha Header.req
  | reply =>
    have hf := Takes.unpack.bind fun xid => Takes.unpack.map (ReplyHeader.mk xid)
    have ha : Arrived sum u _ := hf.arrives u
    exact Arrived.map (g := Unmarshall.unpackReplyHeader sum) ha Header.reply

theorem unpackHeader_ok (k : HeaderKind) (hok : u.ok = true) (hlow : rpcHeaderSz sum ≤ u.sz)
    (hsz : u.sz < 2 ^ 31) : (Unmarshall.unpackHeader sum k u).2.ok = true := by
  obtain ⟨h, hk, henc⟩ := exists_header u.buf (headerAt sum) k
  obtain ⟨u', hrun, -, -, hok', -⟩ := unpackHeader_of_enc hok hlow hsz henc
  rw [← hk, hrun]
  exact hok'

/-! The whole message. -/

/-- A header and these arguments, out of a buffer of `sz` bytes. -/
def parse (sum : Bool) (k : HeaderKind) (as : List Arg) (b : ℕ → UInt8) (sz : ℕ) :
    List Value × Unmarshall :=
  let r := receive sum k (as.map Ty.arg) (Unmarshall.init b sz)
  (r.1.2, r.2)

/-- The buffer is not left, a failure lasts, and what is accepted is a header and the values as
`operator<<` writes them. -/
structure Parses (sum : Bool) (k : HeaderKind) (as : List Arg) (b : ℕ → UInt8) (sz : ℕ) : Prop where
  bounds : ∀ a ∈ (parse sum k as b sz).2.used, a.InBounds ∧ a.cap = sz
  lasts : ∀ n m, n ≤ m → (parse sum k (as.take n) b sz).2.ok = false →
    (parse sum k (as.take m) b sz).2.ok = false
  accepts : (parse sum k as b sz).2.okdone = true ↔ rpcHeaderSz sum ≤ sz ∧ ∀ heap,
    (putAll (parse sum k as b sz).1 (Marshall.init sum heap)).content sum =
      slice b (rpcHeaderSz sum) (sz - rpcHeaderSz sum)

variable {b : ℕ → UInt8} {sz : ℕ} {k : HeaderKind} {as : List Arg}

theorem parse_eq (sum : Bool) (k : HeaderKind) (as : List Arg) (b : ℕ → UInt8) (sz : ℕ) :
    parse sum k as b sz =
      getAll (as.map Ty.arg) (Unmarshall.unpackHeader sum k (Unmarshall.init b sz)).2 := rfl

theorem content_putAll (heap : ℕ → ℕ → UInt8) (vs : List Value) :
    (putAll vs (Marshall.init sum heap)).content sum = vs.flatMap Value.enc := by
  have hv : (Marshall.init sum heap).Valid sum := .init heap
  have hw := putAll_puts vs _ hv.room hv.capa_pos
  have hind := hw.ind
  have hgot := hw.got
  have hinit : (Marshall.init sum heap).ind = rpcHeaderSz sum := rfl
  rw [hinit] at hind hgot
  unfold Marshall.content
  rw [hind, Nat.add_sub_cancel_left, hgot]

theorem parse_append (as as' : List Arg) :
    (parse sum k (as ++ as') b sz).2.ok = true → (parse sum k as b sz).2.ok = true := by
  rw [parse_eq, parse_eq]
  generalize (Unmarshall.unpackHeader sum k (Unmarshall.init b sz)).2 = u
  induction as generalizing u with
  | nil => exact (getAll_keeps as').ok u
  | cons a as ih =>
    rw [List.cons_append, getAll_cons, getAll_cons]
    exact ih (a.extract u).2

theorem parse_lasts {n m : ℕ} (hnm : n ≤ m) (h : (parse sum k (as.take n) b sz).2.ok = false) :
    (parse sum k (as.take m) b sz).2.ok = false := by
  apply Bool.eq_false_iff.mpr
  intro hok
  have hsplit : as.take m = as.take n ++ (as.take m).drop n := by
    have htake : as.take n = (as.take m).take n := by rw [List.take_take, Nat.min_eq_left hnm]
    rw [htake, List.take_append_drop]
  rw [hsplit] at hok
  rw [parse_append _ _ hok] at h
  cases h

/-- Behind the header of a buffer of `sz` bytes. -/
structure Opened (sum : Bool) (b : ℕ → UInt8) (sz : ℕ) (u : Unmarshall) : Prop where
  buf : u.buf = b
  size : u.sz = sz
  ind : u.ind = rpcHeaderSz sum
  safe : u.Safe
  ok : rpcHeaderSz sum ≤ sz → u.ok = true

theorem opened (k : HeaderKind) (hsz : sz < 2 ^ 31) :
    Opened sum b sz (Unmarshall.unpackHeader sum k (Unmarshall.init b sz)).2 := by
  have ha : Arrived sum (Unmarshall.init b sz) _ := unpackHeader_arrives k (Unmarshall.init b sz)
  constructor
  · exact ha.buf
  · exact ha.sz
  · exact ha.ind
  · exact ha.safe fun x hx => absurd hx List.not_mem_nil
  · exact fun hlow => unpackHeader_ok k rfl hlow hsz

theorem Opened.rest (h : Opened sum b sz u) :
    u.rest = slice b (rpcHeaderSz sum) (sz - rpcHeaderSz sum) := by
  unfold Unmarshall.rest
  rw [h.buf, h.size, h.ind]

theorem parse_of_noWrap (hsz : sz < 2 ^ 31) (hnw : NoWrap b sz as (rpcHeaderSz sum)) :
    Parses sum k as b sz := by
  have ho : Opened sum b sz _ := opened k hsz
  have hcontent : ∀ heap, (putAll (parse sum k as b sz).1 (Marshall.init sum heap)).content sum =
      (parse sum k as b sz).1.flatMap Value.enc := fun heap => content_putAll heap _
  have hsz' : (parse sum k as b sz).2.sz = sz := by
    rw [parse_eq, (getAll_keeps as).sz, ho.size]
  have hboth : ((parse sum k as b sz).2.okdone = true ↔ rpcHeaderSz sum ≤ sz ∧
      (parse sum k as b sz).1.flatMap Value.enc =
        slice b (rpcHeaderSz sum) (sz - rpcHeaderSz sum)) ∧ (parse sum k as b sz).2.Safe := by
    rw [parse_eq, ← ho.rest]
    generalize (Unmarshall.unpackHeader sum k (Unmarshall.init b sz)).2 = u at ho
    rw [← ho.buf, ← ho.size, ← ho.ind] at hnw
    by_cases hok : u.ok = true
    · obtain ⟨hiff, hsafe⟩ := getAll_accepts as hok (ho.size ▸ hsz) hnw
      rw [ho.ind, ho.size] at hiff
      exact ⟨hiff, hsafe ho.safe⟩
    · have hdead := Bool.eq_false_iff.mpr hok
      constructor
      · rw [getAll_not_okdone as hdead]
        exact ⟨fun h => absurd h Bool.false_ne_true, fun h => absurd (ho.ok h.1) hok⟩
      · exact getAll_dead as hdead ho.safe
  constructor
  · intro a ha
    obtain ⟨hin, hcap⟩ := hboth.2 a ha
    exact ⟨hin, hcap.trans hsz'⟩
  · exact fun n m => parse_lasts
  · rw [hboth.1]
    simp only [hcontent]
    exact ⟨fun h => ⟨h.1, fun _ => h.2⟩, fun h => ⟨h.1, h.2 fun _ _ => 0⟩⟩

theorem noWrap_of_parses (hsz : sz < 2 ^ 31) (h : Parses sum k as b sz) :
    NoWrap b sz as (rpcHeaderSz sum) := by
  have ho : Opened sum b sz _ := opened k hsz
  have hbounds := h.bounds
  rw [parse_eq] at hbounds
  by_contra hnw
  cases as with
  | nil => exact hnw trivial
  | cons a as =>
    have hlow : rpcHeaderSz sum ≤ sz := by
      by_contra hlow
      apply hnw
      exact ⟨fun _ hroom => by omega, fun hfit => by omega⟩
    have hok := ho.ok hlow
    generalize (Unmarshall.unpackHeader sum k (Unmarshall.init b sz)).2 = u at ho hbounds hok
    rw [← ho.buf, ← ho.size, ← ho.ind] at hnw
    obtain ⟨x, hx, hbad⟩ := getAll_wraps (a :: as) hok (ho.size ▸ hsz) hnw
    exact hbad (hbounds x hx).1

/-- The parser does what is asked of it exactly when no length wraps the sum in its bounds test. -/
theorem parses_iff (sum : Bool) (k : HeaderKind) (as : List Arg) (b : ℕ → UInt8) {sz : ℕ}
    (hsz : sz < 2 ^ 31) : Parses sum k as b sz ↔ NoWrap b sz as (rpcHeaderSz sum) :=
  ⟨noWrap_of_parses hsz, parse_of_noWrap hsz⟩

theorem parses_iff_example :
    let b : ℕ → UInt8 := fun i => [0, 0, 0, 2, 104, 105].getD (i - 24) 0
    Parses false .req [.string] b 30 :=
  (parses_iff false .req [.string] _ (by decide)).mpr (by decide)

/-- A request of 28 bytes whose string says it is 2 ^ 32 - 1 bytes long. -/
theorem length_wraps :
    let b : ℕ → UInt8 := fun i => if i < 24 then 0 else 255
    ¬ Parses false .req [.string] b 28 := by
  intro b h
  have hnw := noWrap_of_parses (by decide) h
  exact absurd hnw (by decide)

end Yfs.Rpc
