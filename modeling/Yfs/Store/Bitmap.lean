import Mathlib.Data.List.GetD
import Mathlib.Data.List.Induction
import Mathlib.Data.Nat.Find
import Mathlib.Tactic.IntervalCases

/-! The bit vector behind the block allocator. A `char` is its eight bits: the tests
and updates of the source never depend on its sign. -/
namespace Yfs.Store

/-- The buffer has a byte for every bit; the constructor makes it so. -/
structure Bitmap where
  numBits : UInt32
  numChar : UInt32
  map : List (BitVec 8)
  length_map : map.length = numChar.toNat
  fits : numBits.toNat ≤ 8 * map.length

namespace Bitmap

/-- `Bitmap(nBits)`, where `nBits + 7` does not wrap around. -/
def ofBits (nBits : UInt32) (h : nBits.toNat + 7 < 2 ^ 32) : Bitmap where
  numBits := nBits
  numChar := (nBits + 7) / 8
  map := List.replicate ((nBits + 7) / 8).toNat 0
  length_map := by simp
  fits := by
    have h7 : (nBits + 7).toNat = nBits.toNat + 7 := by
      rw [UInt32.toNat_add]
      exact Nat.mod_eq_of_lt h
    simp only [List.length_replicate, UInt32.toNat_div, h7, UInt32.reduceToNat]
    omega

/-- The mask `1 << j` as a `char`. -/
def mask (j : ℕ) : BitVec 8 := 1#8 <<< j

def mark (b : Bitmap) (which : UInt32) : Bitmap :=
  if b.numBits ≤ which then b
  else
    { b with
      map := b.map.modify (which / 8).toNat (· ||| mask (which % 8).toNat)
      length_map := by rw [List.length_modify, b.length_map]
      fits := by rw [List.length_modify]; exact b.fits }

def clear (b : Bitmap) (which : UInt32) : Bitmap :=
  if b.numBits ≤ which then b
  else
    { b with
      map := b.map.modify (which / 8).toNat (· &&& ~~~ mask (which % 8).toNat)
      length_map := by rw [List.length_modify, b.length_map]
      fits := by rw [List.length_modify]; exact b.fits }

def test (b : Bitmap) (which : UInt32) : Bool :=
  if b.numBits ≤ which then false
  else (b.map.getD (which / 8).toNat 0 &&& mask (which % 8).toNat) != 0

/-- The inner loop of `find`: the first clear bit of a byte, from bit `j` on. -/
def findBit (c : BitVec 8) : (rem j : ℕ) → Option ℕ
  | 0, _ => none
  | rem + 1, j => if c &&& mask j = 0 then some j else findBit c rem (j + 1)

/-- The outer loop of `find`, at byte `i` with the bytes that are left. -/
def findFrom (numBits : UInt32) : List (BitVec 8) → (i : ℕ) → UInt32
  | [], _ => 0
  | c :: cs, i =>
    match findBit c 8 0 with
    | some j => if i * 8 + j < numBits.toNat then UInt32.ofNat (i * 8 + j) else 0
    | none => findFrom numBits cs (i + 1)

def find (b : Bitmap) : UInt32 := findFrom b.numBits b.map 0

/-- Bit `n` of a row of bytes. -/
def bitAt (cs : List (BitVec 8)) (n : ℕ) : Bool := (cs.getD (n / 8) 0).getLsbD (n % 8)

theorem mask_getLsbD (j k : ℕ) (hj : j < 8) : (mask j).getLsbD k = decide (k = j) := by
  unfold mask
  by_cases hk : k < 8
  · interval_cases j <;> interval_cases k <;> rfl
  · rw [BitVec.getLsbD_of_ge _ _ (by omega)]
    exact (decide_eq_false (by omega)).symm

theorem and_mask_eq_zero (c : BitVec 8) (j : ℕ) (hj : j < 8) :
    c &&& mask j = 0 ↔ c.getLsbD j = false := by
  constructor
  · intro h
    have hb := congrArg (fun x : BitVec 8 => x.getLsbD j) h
    simpa [mask_getLsbD j j hj] using hb
  · intro h
    apply BitVec.eq_of_getLsbD_eq
    intro k hk
    rw [BitVec.getLsbD_and, mask_getLsbD j k hj]
    by_cases he : k = j
    · simp [he, h]
    · simp [he]

theorem getD_modify (cs : List (BitVec 8)) (f : BitVec 8 → BitVec 8) (i k : ℕ)
    (hi : i < cs.length) :
    (cs.modify i f).getD k 0 = if k = i then f (cs.getD k 0) else cs.getD k 0 := by
  simp only [List.getD_eq_getElem?_getD, List.getElem?_modify]
  by_cases he : i = k
  · subst he
    simp [List.getElem?_eq_getElem hi]
  · simp [he, Ne.symm he]

theorem byte_lt (b : Bitmap) {w : UInt32} (hw : w < b.numBits) :
    (w / 8).toNat < b.map.length := by
  have hb := b.fits
  have hlt := UInt32.lt_iff_toNat_lt.mp hw
  rw [UInt32.toNat_div, show (8 : UInt32).toNat = 8 from rfl]
  omega

theorem test_eq (b : Bitmap) (w : UInt32) :
    b.test w = (decide (w < b.numBits) && bitAt b.map w.toNat) := by
  unfold test bitAt
  have hr : w.toNat % 8 < 8 := Nat.mod_lt _ (by decide)
  by_cases hw : b.numBits ≤ w
  · simp [hw, UInt32.not_lt.mpr hw]
  · rw [if_neg hw, decide_eq_true (UInt32.not_le.mp hw), Bool.true_and, UInt32.toNat_div,
      UInt32.toNat_mod, show (8 : UInt32).toNat = 8 from rfl]
    have hm := and_mask_eq_zero (b.map.getD (w.toNat / 8) 0) (w.toNat % 8) hr
    cases hb : (b.map.getD (w.toNat / 8) 0).getLsbD (w.toNat % 8) with
    | false => simpa using hm.mpr hb
    | true =>
      have hne := mt hm.mp (by rw [hb]; decide)
      simpa using hne

theorem test_of_le (b : Bitmap) {w : UInt32} (hw : b.numBits ≤ w) : b.test w = false :=
  if_pos hw

@[simp] theorem numBits_mark (b : Bitmap) (w : UInt32) : (b.mark w).numBits = b.numBits := by
  unfold mark
  split <;> rfl

@[simp] theorem numBits_clear (b : Bitmap) (w : UInt32) :
    (b.clear w).numBits = b.numBits := by
  unfold clear
  split <;> rfl

/-- The bits after one byte has been changed by a function that works bit by bit. -/
private theorem bitAt_modify (b : Bitmap) {w : UInt32} (hw : w < b.numBits)
    (f : BitVec 8 → BitVec 8) (v : UInt32) :
    bitAt (b.map.modify (w / 8).toNat f) v.toNat =
      if v.toNat / 8 = w.toNat / 8 then (f (b.map.getD (v.toNat / 8) 0)).getLsbD (v.toNat % 8)
      else bitAt b.map v.toNat := by
  unfold bitAt
  rw [getD_modify _ _ _ _ (b.byte_lt hw), UInt32.toNat_div, show (8 : UInt32).toNat = 8 from rfl]
  split <;> rfl

private theorem eq_iff_byte_bit (v w : UInt32) :
    v = w ↔ v.toNat / 8 = w.toNat / 8 ∧ v.toNat % 8 = w.toNat % 8 := by
  rw [← UInt32.toNat_inj]
  omega

theorem test_mark (b : Bitmap) (w v : UInt32) :
    (b.mark w).test v = if v = w then decide (w < b.numBits) else b.test v := by
  by_cases hw : w < b.numBits
  · have hr : w.toNat % 8 < 8 := Nat.mod_lt _ (by decide)
    have hm : (b.mark w).map =
        b.map.modify (w / 8).toNat (· ||| mask (w % 8).toNat) := by
      rw [mark, if_neg (UInt32.not_le.mpr hw)]
    rw [test_eq, test_eq, hm, bitAt_modify b hw, numBits_mark, UInt32.toNat_mod,
      show (8 : UInt32).toNat = 8 from rfl, BitVec.getLsbD_or, mask_getLsbD _ _ hr]
    by_cases hv : v = w
    · subst hv
      simp
    · have hne := mt (eq_iff_byte_bit v w).mpr hv
      by_cases h8 : v.toNat / 8 = w.toNat / 8
      · have h1 : ¬ v.toNat % 8 = w.toNat % 8 := fun h => hne ⟨h8, h⟩
        simp [hv, h8, h1, bitAt]
      · simp [hv, h8]
  · have hw' := UInt32.not_lt.mp hw
    rw [mark, if_pos hw']
    split
    · next he => rw [he, test_of_le b hw', decide_eq_false hw]
    · rfl

theorem test_clear (b : Bitmap) (w v : UInt32) :
    (b.clear w).test v = if v = w then false else b.test v := by
  by_cases hw : w < b.numBits
  · have hr : w.toNat % 8 < 8 := Nat.mod_lt _ (by decide)
    have hm : (b.clear w).map =
        b.map.modify (w / 8).toNat (· &&& ~~~ mask (w % 8).toNat) := by
      rw [clear, if_neg (UInt32.not_le.mpr hw)]
    have hv8 : v.toNat % 8 < 8 := Nat.mod_lt _ (by decide)
    rw [test_eq, test_eq, hm, bitAt_modify b hw, numBits_clear, UInt32.toNat_mod,
      show (8 : UInt32).toNat = 8 from rfl, BitVec.getLsbD_and, BitVec.getLsbD_not,
      mask_getLsbD _ _ hr]
    by_cases hv : v = w
    · subst hv
      simp
    · have hne := mt (eq_iff_byte_bit v w).mpr hv
      by_cases h8 : v.toNat / 8 = w.toNat / 8
      · have h1 : ¬ v.toNat % 8 = w.toNat % 8 := fun h => hne ⟨h8, h⟩
        simp [hv, h8, h1, hv8, bitAt]
      · simp [hv, h8]
  · have hw' := UInt32.not_lt.mp hw
    rw [clear, if_pos hw']
    split
    · next he => rw [he, test_of_le b hw']
    · rfl

theorem test_ofBits (n : UInt32) (h : n.toNat + 7 < 2 ^ 32) (w : UInt32) :
    (ofBits n h).test w = false := by
  have hz : (ofBits n h).map.getD (w.toNat / 8) 0 = 0 := by
    rw [ofBits, List.getD_eq_getElem?_getD, List.getElem?_replicate]
    split <;> rfl
  rw [test_eq, bitAt, hz]
  simp

theorem findBit_none {c : BitVec 8} {rem j : ℕ} (hj : j + rem ≤ 8)
    (h : ∀ k, j ≤ k → k < j + rem → c.getLsbD k = true) : findBit c rem j = none := by
  induction rem generalizing j with
  | zero => rfl
  | succ rem ih =>
    have h0 : c &&& mask j ≠ 0 := by
      rw [ne_eq, and_mask_eq_zero c j (by omega), h j le_rfl (by omega)]
      decide
    rw [findBit, if_neg h0]
    exact ih (by omega) fun k hk hlt => h k (by omega) (by omega)

theorem findBit_some {c : BitVec 8} {rem j k : ℕ} (hj : j + rem ≤ 8) (hjk : j ≤ k)
    (hk : k < j + rem) (hc : c.getLsbD k = false)
    (h : ∀ m, j ≤ m → m < k → c.getLsbD m = true) : findBit c rem j = some k := by
  induction rem generalizing j with
  | zero => omega
  | succ rem ih =>
    rw [findBit]
    rcases hjk.eq_or_lt with rfl | hlt
    · rw [if_pos ((and_mask_eq_zero c j (by omega)).mpr hc)]
    · have h0 : c &&& mask j ≠ 0 := by
        rw [ne_eq, and_mask_eq_zero c j (by omega), h j le_rfl hlt]
        decide
      rw [if_neg h0]
      exact ih (by omega) hlt (by omega) fun m hm hmk => h m (by omega) hmk

theorem bitAt_cons (c : BitVec 8) (cs : List (BitVec 8)) (n : ℕ) :
    bitAt (c :: cs) n = if n < 8 then c.getLsbD n else bitAt cs (n - 8) := by
  unfold bitAt
  split
  · next h => rw [Nat.div_eq_of_lt h, Nat.mod_eq_of_lt h, List.getD_cons_zero]
  · next h =>
    have h1 : n / 8 = (n - 8) / 8 + 1 := by omega
    have h2 : n % 8 = (n - 8) % 8 := by omega
    rw [h1, h2, List.getD_cons_succ]

/-- The search stops at the first clear bit, `n`, of the bytes that are left. -/
theorem findFrom_eq (numBits : UInt32) {cs : List (BitVec 8)} {n : ℕ} (i : ℕ)
    (hn : n < 8 * cs.length) (hc : bitAt cs n = false)
    (h : ∀ m < n, bitAt cs m = true) :
    findFrom numBits cs i =
      if i * 8 + n < numBits.toNat then UInt32.ofNat (i * 8 + n) else 0 := by
  induction cs generalizing n i with
  | nil => simp at hn
  | cons c cs ih =>
    rw [findFrom]
    by_cases h8 : n < 8
    · have hb : findBit c 8 0 = some n := by
        refine findBit_some (by omega) (by omega) (by omega) ?_ fun m _ hm => ?_
        · rwa [bitAt_cons, if_pos h8] at hc
        · have hm' := h m hm
          rwa [bitAt_cons, if_pos (by omega)] at hm'
      rw [hb]
    · have hb : findBit c 8 0 = none := by
        refine findBit_none (by omega) fun k _ hk => ?_
        have hk' := h k (by omega)
        rwa [bitAt_cons, if_pos (by omega)] at hk'
      rw [hb]
      have hc' : bitAt cs (n - 8) = false := by
        rwa [bitAt_cons, if_neg h8] at hc
      have h' : ∀ m < n - 8, bitAt cs m = true := fun m hm => by
        have hm' := h (m + 8) (by omega)
        rwa [bitAt_cons, if_neg (by omega), Nat.add_sub_cancel] at hm'
      have he : (i + 1) * 8 + (n - 8) = i * 8 + n := by omega
      rw [List.length_cons] at hn
      simp only [ih (i + 1) (by omega) hc' h', he]

theorem findFrom_full (numBits : UInt32) {cs : List (BitVec 8)} (i : ℕ)
    (h : ∀ m < 8 * cs.length, bitAt cs m = true) : findFrom numBits cs i = 0 := by
  induction cs generalizing i with
  | nil => rfl
  | cons c cs ih =>
    rw [List.length_cons] at h
    have hb : findBit c 8 0 = none := by
      refine findBit_none (by omega) fun k _ hk => ?_
      have hk' := h k (by omega)
      rwa [bitAt_cons, if_pos (by omega)] at hk'
    rw [findFrom, hb]
    refine ih (i + 1) fun m hm => ?_
    have hm' := h (m + 8) (by omega)
    rwa [bitAt_cons, if_neg (by omega), Nat.add_sub_cancel] at hm'

private theorem test_ofNat (b : Bitmap) {n : ℕ} (hn : n < b.numBits.toNat) :
    b.test (UInt32.ofNat n) = bitAt b.map n := by
  have hlt : n < 2 ^ 32 := by have := b.numBits.toNat_lt; omega
  have hv : (UInt32.ofNat n).toNat = n := UInt32.toNat_ofNat_of_lt' hlt
  rw [test_eq, hv, decide_eq_true (UInt32.lt_iff_toNat_lt.mpr (by rwa [hv])), Bool.true_and]

private theorem exists_first_clear {cs : List (BitVec 8)} {bound : ℕ}
    (h : ∃ n < bound, bitAt cs n = false) :
    ∃ n < bound, bitAt cs n = false ∧ ∀ m < n, bitAt cs m = true := by
  obtain ⟨hn, hc⟩ := Nat.find_spec h
  refine ⟨Nat.find h, hn, hc, fun m hm => ?_⟩
  by_contra hb
  exact Nat.find_min h hm ⟨hm.trans hn, by simpa using hb⟩

/-- While some bit is clear, `find` returns the least clear bit. -/
theorem find_spec (b : Bitmap) (h : ∃ w, w < b.numBits ∧ b.test w = false) :
    b.find < b.numBits ∧ b.test b.find = false ∧ ∀ v < b.find, b.test v = true := by
  have hex : ∃ n < b.numBits.toNat, bitAt b.map n = false := by
    obtain ⟨w, hw, ht⟩ := h
    refine ⟨w.toNat, UInt32.lt_iff_toNat_lt.mp hw, ?_⟩
    simpa [test_eq, hw] using ht
  obtain ⟨n, hn, hc, hall⟩ := exists_first_clear hex
  have hfind : b.find = UInt32.ofNat n := by
    rw [find, findFrom_eq b.numBits 0 (by have := b.fits; omega) hc hall, if_pos (by omega),
      Nat.zero_mul, Nat.zero_add]
  have hlt : n < 2 ^ 32 := by have := b.numBits.toNat_lt; omega
  have hv : (UInt32.ofNat n).toNat = n := UInt32.toNat_ofNat_of_lt' hlt
  refine ⟨?_, ?_, fun v hv' => ?_⟩
  · rw [hfind, UInt32.lt_iff_toNat_lt, hv]
    exact hn
  · rw [hfind, test_ofNat b hn]
    exact hc
  · rw [hfind, UInt32.lt_iff_toNat_lt, hv] at hv'
    rw [test_eq, decide_eq_true (UInt32.lt_iff_toNat_lt.mpr (by omega)), Bool.true_and]
    exact hall _ hv'

/-- When every bit is set, `find` returns 0, which is also the number of a bit. -/
theorem find_full (b : Bitmap) (h : ∀ w < b.numBits, b.test w = true) : b.find = 0 := by
  have hbit : ∀ m < b.numBits.toNat, bitAt b.map m = true := fun m hm => by
    have hlt : m < 2 ^ 32 := by have := b.numBits.toNat_lt; omega
    rw [← test_ofNat b hm]
    exact h _ (UInt32.lt_iff_toNat_lt.mpr (by rwa [UInt32.toNat_ofNat_of_lt' hlt]))
  by_cases hall : ∀ m < 8 * b.map.length, bitAt b.map m = true
  · exact findFrom_full b.numBits 0 hall
  · -- the first clear bit is one of the padding bits of the last byte
    obtain ⟨n, hn, hc, hbelow⟩ := exists_first_clear (by push Not at hall; simpa using hall)
    have hpad : ¬ n < b.numBits.toNat := fun hlt => by simp [hbit n hlt] at hc
    rw [find, findFrom_eq b.numBits 0 hn hc hbelow, if_neg (by omega)]

/-- `find` depends on which bits are set, and on nothing else. -/
theorem find_congr {b b' : Bitmap} (hn : b'.numBits = b.numBits)
    (ht : ∀ w, b'.test w = b.test w) : b'.find = b.find := by
  by_cases h : ∃ w, w < b.numBits ∧ b.test w = false
  · obtain ⟨-, hclear, hleast⟩ := b.find_spec h
    obtain ⟨-, hclear', hleast'⟩ := b'.find_spec (by simpa only [hn, ht] using h)
    apply UInt32.le_antisymm
    · by_contra hlt
      have hset := hleast' _ (UInt32.not_le.mp hlt)
      rw [ht, hclear] at hset
      cases hset
    · by_contra hlt
      rw [ht, hleast _ (UInt32.not_le.mp hlt)] at hclear'
      cases hclear'
  · have hall : ∀ w < b.numBits, b.test w = true := by
      intro w hw
      by_contra hc
      exact h ⟨w, hw, by simpa using hc⟩
    rw [find_full b hall, find_full b' fun w hw => by rw [ht, hall w (hn ▸ hw)]]

/-! A bitmap as a set. -/

/-- The calls that change a bitmap. -/
inductive Update where
  | mark (which : UInt32)
  | clear (which : UInt32)
deriving DecidableEq

def Update.which : Update → UInt32
  | .mark w => w
  | .clear w => w

def update (b : Bitmap) : Update → Bitmap
  | .mark w => b.mark w
  | .clear w => b.clear w

end Bitmap

end Yfs.Store
