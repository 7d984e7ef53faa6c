import Mathlib.Order.Defs.LinearOrder

/-! The order of 32-bit words and the successor of a word that does not wrap. -/
namespace Yfs.Rpc

instance linearOrderUInt32 : LinearOrder UInt32 where
  le := (· ≤ ·)
  lt := (· < ·)
  le_refl := UInt32.le_refl
  le_trans _ _ _ := UInt32.le_trans
  le_antisymm _ _ := UInt32.le_antisymm
  le_total := UInt32.le_total
  lt_iff_le_not_ge a b := by
    rw [UInt32.not_le]
    exact ⟨fun h => ⟨UInt32.le_of_lt h, h⟩, fun h => h.2⟩
  min_def _ _ := rfl
  max_def _ _ := rfl
  toDecidableLE := inferInstance
  toDecidableLT := inferInstance
  toDecidableEq := inferInstance

variable {a f x : UInt32}

theorem toNat_succ (hle : f ≤ x) (hx : f + 1 = x) : x.toNat = f.toNat + 1 := by
  have h := UInt32.le_iff_toNat_le.mp hle
  have hs := congrArg UInt32.toNat hx
  rw [UInt32.toNat_add] at hs
  have h1 : UInt32.toNat 1 = 1 := rfl
  have hlt := f.toNat_lt
  omega

theorem succ_ne (x : UInt32) : x + 1 ≠ x := by
  intro h
  have := toNat_succ le_rfl h
  omega

theorem toNat_succ_of_lt (h : f < x) : (f + 1).toNat = f.toNat + 1 := by
  have hlt := UInt32.lt_iff_toNat_lt.mp h
  have h1 : UInt32.toNat 1 = 1 := rfl
  have hx := x.toNat_lt
  rw [UInt32.toNat_add, h1]
  omega

theorem one_le_of_lt (h : f < x) : 1 ≤ x := by
  have hlt := UInt32.lt_iff_toNat_lt.mp h
  have h1 : UInt32.toNat 1 = 1 := rfl
  apply UInt32.le_iff_toNat_le.mpr
  omega

theorem succ_le_of_lt (h : f < x) : f + 1 ≤ x := by
  have hlt := UInt32.lt_iff_toNat_lt.mp h
  have hs := toNat_succ_of_lt h
  apply UInt32.le_iff_toNat_le.mpr
  omega

theorem lt_succ_of_lt (h : f < x) : f < f + 1 := by
  have hs := toNat_succ_of_lt h
  apply UInt32.lt_iff_toNat_lt.mpr
  omega

/-- Between a word and its successor there is nothing else. -/
theorem eq_of_le_succ (hx : f + 1 = x) (hfx : f ≤ x) (hfa : f ≤ a) (hax : a ≤ x) (hne : a ≠ x) :
    a = f := by
  have hs := toNat_succ hfx hx
  have h1 := UInt32.le_iff_toNat_le.mp hfa
  have h2 := UInt32.le_iff_toNat_le.mp hax
  have h3 : a.toNat ≠ x.toNat := fun h => hne (UInt32.toNat_inj.mp h)
  apply UInt32.toNat_inj.mp
  omega

theorem int_of_word {a b : Int32} (h : a.toUInt32 = b.toUInt32) : a = b := by
  rw [← a.toInt32_toUInt32, h, b.toInt32_toUInt32]

end Yfs.Rpc
