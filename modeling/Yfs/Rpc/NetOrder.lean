import Mathlib.Data.Nat.Notation
import Mathlib.Algebra.Group.Nat.Defs

/-! Words in network byte order, and the shifts and masks that take them apart. -/
namespace Yfs.Rpc

/-- The bytes of `htonl`. -/
def netBytes (w : UInt32) : List UInt8 :=
  [UInt8.ofNat (w.toNat / 2 ^ 24), UInt8.ofNat (w.toNat / 2 ^ 16), UInt8.ofNat (w.toNat / 2 ^ 8),
    UInt8.ofNat w.toNat]

/-- `ntohl` of the first four bytes. -/
def netWord : List UInt8 → UInt32
  | a :: b :: c :: d :: _ =>
    UInt32.ofNat (a.toNat * 2 ^ 24 + b.toNat * 2 ^ 16 + c.toNat * 2 ^ 8 + d.toNat)
  | _ => 0

theorem length_netBytes (w : UInt32) : (netBytes w).length = 4 := rfl

theorem netWord_append (w : UInt32) (l : List UInt8) : netWord (netBytes w ++ l) = w := by
  have hw := w.toNat_lt
  apply UInt32.toNat_inj.mp
  simp only [netBytes, netWord, List.cons_append, UInt32.toNat_ofNat', UInt8.toNat_ofNat']
  omega

/-- Only the first four bytes count. -/
theorem netWord_take {l : List UInt8} (h : 4 ≤ l.length) : netWord (l.take 4) = netWord l := by
  match l, h with
  | _ :: _ :: _ :: _ :: _, _ => rfl

/-- The word is its first four bytes. -/
theorem netBytes_netWord (a b c d : UInt8) : netBytes (netWord [a, b, c, d]) = [a, b, c, d] := by
  have ha := a.toNat_lt
  have hb := b.toNat_lt
  have hc := c.toNat_lt
  have hd := d.toNat_lt
  simp only [netBytes, netWord, List.cons.injEq, and_true, ← UInt8.toNat_inj, UInt8.toNat_ofNat',
    UInt32.toNat_ofNat']
  omega

/-- Any four bytes are those of a word. -/
theorem netBytes_of_length {l : List UInt8} (h : l.length = 4) : netBytes (netWord l) = l := by
  match l, h with
  | [a, b, c, d], _ => exact netBytes_netWord a b c d

/-- A 16-bit word in network byte order. -/
def shortBytes (w : UInt16) : List UInt8 := [UInt8.ofNat (w.toNat / 2 ^ 8), UInt8.ofNat w.toNat]

def shortWord : List UInt8 → UInt16
  | a :: b :: _ => UInt16.ofNat (a.toNat * 2 ^ 8 + b.toNat)
  | _ => 0

theorem shortWord_shortBytes (w : UInt16) : shortWord (shortBytes w) = w := by
  have hw := w.toNat_lt
  apply UInt16.toNat_inj.mp
  simp only [shortBytes, shortWord, UInt16.toNat_ofNat', UInt8.toNat_ofNat']
  omega

theorem shortBytes_of_length {l : List UInt8} (h : l.length = 2) :
    shortBytes (shortWord l) = l := by
  match l, h with
  | [a, b], _ =>
    have ha := a.toNat_lt
    have hb := b.toNat_lt
    simp only [shortBytes, shortWord, List.cons.injEq, and_true, ← UInt8.toNat_inj,
      UInt8.toNat_ofNat', UInt16.toNat_ofNat']
    omega

/-! Shifts and masks. -/

theorem and_low_byte (n : ℕ) : n % 256 &&& 255 = n % 256 := by
  have h := Nat.and_two_pow_sub_one_eq_mod (n % 256) 8
  simpa using h

theorem shift_netBytes (x : UInt32) :
    [((x >>> 24) &&& 0xff).toUInt8, ((x >>> 16) &&& 0xff).toUInt8, ((x >>> 8) &&& 0xff).toUInt8,
      (x &&& 0xff).toUInt8] = netBytes x := by
  simp only [netBytes, List.cons.injEq, and_true, ← UInt8.toNat_inj]
  simp [Nat.shiftRight_eq_div_pow, and_low_byte]

theorem shift_shortBytes (x : UInt16) :
    [((x >>> 8) &&& 0xff).toUInt8, (x &&& 0xff).toUInt8] = shortBytes x := by
  simp only [shortBytes, List.cons.injEq, and_true, ← UInt8.toNat_inj]
  simp [Nat.shiftRight_eq_div_pow, and_low_byte]

/-- An int is shifted with its sign, of which the lowest byte has nothing. -/
theorem low_byte_sshiftRight (x : BitVec 32) {n : ℕ} (hn : n + 8 ≤ 32) :
    (x.sshiftRight n &&& 255#32).setWidth 8 = (x >>> n &&& 255#32).setWidth 8 := by
  apply BitVec.eq_of_getLsbD_eq
  intro i hi
  have hlt : n + i < 32 := by omega
  have h32 : ¬ 32 ≤ i := by omega
  simp [hi, hlt, h32, BitVec.getLsbD_sshiftRight]

theorem shift_int (x : Int32) :
    [((x >>> 24) &&& 0xff).toUInt32.toUInt8, ((x >>> 16) &&& 0xff).toUInt32.toUInt8,
      ((x >>> 8) &&& 0xff).toUInt32.toUInt8, (x &&& 0xff).toUInt32.toUInt8] =
      netBytes x.toUInt32 := by
  rw [← shift_netBytes]
  congr 1
  · exact UInt8.toBitVec_inj.mp (low_byte_sshiftRight x.toBitVec (n := 24) (by omega))
  congr 1
  · exact UInt8.toBitVec_inj.mp (low_byte_sshiftRight x.toBitVec (n := 16) (by omega))
  congr 1
  exact UInt8.toBitVec_inj.mp (low_byte_sshiftRight x.toBitVec (n := 8) (by omega))

/-- A char comes back as an unsigned int, extended with its sign. -/
theorem mask_char (c : UInt8) : c.toInt8.toInt32.toUInt32 &&& 0xff = c.toUInt32 := by
  have hm : ∀ i < 32, (255#32).getLsbD i = decide (i < 8) := by decide
  have h : c.toBitVec.signExtend 32 &&& 255#32 = c.toBitVec.setWidth 32 := by
    apply BitVec.eq_of_getLsbD_eq
    intro i hi
    rw [BitVec.getLsbD_and, BitVec.getLsbD_signExtend, BitVec.getLsbD_setWidth, hm i hi]
    by_cases h8 : i < 8
    · simp only [h8, hi, decide_true, if_true, Bool.true_and, Bool.and_true]
    · rw [BitVec.getLsbD_of_ge _ i (by omega)]
      simp only [h8, decide_false, Bool.and_false]
  exact UInt32.toBitVec_inj.mp h

theorem low_byte_char (c : UInt8) : c.toInt8.toInt32.toUInt32.toUInt8 = c := by
  have h : ∀ w : UInt8, w &&& 255 = w := fun w => UInt8.and_neg_one
  have hm := congrArg UInt32.toUInt8 (mask_char c)
  rw [UInt32.toUInt8_and, UInt8.toUInt8_toUInt32] at hm
  rw [← h c.toInt8.toInt32.toUInt32.toUInt8]
  exact hm

theorem or_add (a : ℕ) {b : ℕ} (n : ℕ) (hb : b < 2 ^ n) : a * 2 ^ n ||| b = a * 2 ^ n + b := by
  rw [← Nat.shiftLeft_eq, Nat.shiftLeft_add_eq_or_of_lt hb]

theorem or_netWord (a b c d : UInt8) :
    a.toUInt32 <<< 24 ||| b.toUInt32 <<< 16 ||| c.toUInt32 <<< 8 ||| d.toUInt32 =
      netWord [a, b, c, d] := by
  have ha := a.toNat_lt
  have hb := b.toNat_lt
  have hc := c.toNat_lt
  have hd := d.toNat_lt
  have h : a.toNat * 2 ^ 24 ||| b.toNat * 2 ^ 16 ||| c.toNat * 2 ^ 8 ||| d.toNat =
      a.toNat * 2 ^ 24 + b.toNat * 2 ^ 16 + c.toNat * 2 ^ 8 + d.toNat := by
    rw [Nat.or_assoc, Nat.or_assoc, or_add _ 8 (by omega), or_add _ 16 (by omega),
      or_add _ 24 (by omega)]
    omega
  apply UInt32.toNat_inj.mp
  simp [netWord, Nat.shiftLeft_eq]
  simp (disch := omega) only [Nat.mod_eq_of_lt]
  exact h

theorem or_shortWord (a b : UInt8) :
    (a.toUInt32 <<< 8).toUInt16 ||| b.toUInt32.toUInt16 = shortWord [a, b] := by
  have ha := a.toNat_lt
  have hb := b.toNat_lt
  have h := or_add a.toNat 8 hb
  apply UInt16.toNat_inj.mp
  simp [shortWord, Nat.shiftLeft_eq]
  simp (disch := omega) only [Nat.mod_eq_of_lt]
  exact h

/-- A long from its halves. -/
theorem halves_or (h l : UInt32) :
    ((l.toUInt64 ||| h.toUInt64 <<< 32) >>> 32).toUInt32 = h ∧
      (l.toUInt64 ||| h.toUInt64 <<< 32).toUInt32 = l := by
  have hh := h.toNat_lt
  have hl := l.toNat_lt
  have hor := or_add h.toNat 32 hl
  simp only [Nat.reducePow] at hor
  have hval : (l.toUInt64 ||| h.toUInt64 <<< 32).toNat = h.toNat * 4294967296 + l.toNat := by
    simp [Nat.shiftLeft_eq]
    simp (disch := omega) only [Nat.mod_eq_of_lt]
    rw [Nat.or_comm, hor]
  constructor
  · apply UInt32.toNat_inj.mp
    rw [UInt64.toNat_toUInt32, UInt64.toNat_shiftRight, hval, Nat.shiftRight_eq_div_pow]
    simp
    omega
  · apply UInt32.toNat_inj.mp
    rw [UInt64.toNat_toUInt32, hval]
    omega

/-- The two halves of a long. -/
theorem or_halves (x : UInt64) :
    x.toUInt32.toUInt64 ||| (x >>> 32).toUInt32.toUInt64 <<< 32 = x := by
  have hx := x.toNat_lt
  have h := or_add (x.toNat / 2 ^ 32) (b := x.toNat % 2 ^ 32) 32 (by omega)
  simp only [Nat.reducePow] at h
  apply UInt64.toNat_inj.mp
  simp [Nat.shiftLeft_eq, Nat.shiftRight_eq_div_pow]
  simp (disch := omega) only [Nat.mod_eq_of_lt]
  rw [Nat.or_comm]
  omega

end Yfs.Rpc
