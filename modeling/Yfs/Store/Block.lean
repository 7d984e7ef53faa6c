import Mathlib.Logic.Function.Basic
import Mathlib.Data.Nat.Notation
import Mathlib.Algebra.Group.Nat.Defs
import Mathlib.Tactic.SplitIfs

/-! Disk blocks as bytes and as little-endian 32-bit words. -/
namespace Yfs.Store

abbrev blockSize : ℕ := 512
abbrev diskSize : ℕ := 1024 * 1024 * 16
abbrev blockNum : ℕ := diskSize / blockSize

/-- The number of 32-bit words in a block. -/
abbrev nIndirect : ℕ := 128

abbrev BlockId : Type := UInt32

abbrev Block : Type := Fin blockSize → UInt8

/-- Byte `k` of a word in memory. -/
def byteOf (w : UInt32) (k : ℕ) : UInt8 := UInt8.ofNat (w.toNat / 256 ^ k)

/-- The word that starts at byte `o` of a row of bytes. -/
def wordAt (f : ℕ → UInt8) (o : ℕ) : UInt32 :=
  UInt32.ofNat ((f o).toNat + 256 * (f (o + 1)).toNat + 65536 * (f (o + 2)).toNat +
    16777216 * (f (o + 3)).toNat)

theorem wordAt_eq {f : ℕ → UInt8} {o : ℕ} {w : UInt32} (h : ∀ k < 4, f (o + k) = byteOf w k) :
    wordAt f o = w := by
  have h0 := h 0 (by decide)
  have h1 := h 1 (by decide)
  have h2 := h 2 (by decide)
  have h3 := h 3 (by decide)
  have hw := w.toNat_lt
  rw [Nat.add_zero] at h0
  rw [← UInt32.toNat_inj, wordAt, h0, h1, h2, h3]
  simp only [byteOf, UInt32.toNat_ofNat', UInt8.toNat_ofNat']
  omega

theorem wordAt_congr {f g : ℕ → UInt8} {o : ℕ} (h : ∀ k < 4, f (o + k) = g (o + k)) :
    wordAt f o = wordAt g o := by
  have h0 := h 0 (by decide)
  rw [Nat.add_zero] at h0
  rw [wordAt, h0, h 1 (by decide), h 2 (by decide), h 3 (by decide), wordAt]

namespace Block

/-- Byte `o` of a block; a block has no byte from `blockSize` on. -/
def byte (b : Block) (o : ℕ) : UInt8 := if h : o < blockSize then b ⟨o, h⟩ else 0

/-- The `blockSize` bytes from `buf` on. -/
def ofBytes (buf : ℕ → UInt8) : Block := fun i => buf i

def zero : Block := fun _ => 0

theorem byte_ofBytes {f : ℕ → UInt8} {o : ℕ} (h : o < blockSize) : byte (ofBytes f) o = f o :=
  dif_pos h

theorem byte_zero (o : ℕ) : byte zero o = 0 := by
  unfold byte
  split <;> rfl

/-- Word `j` of a block read as an array of block numbers. -/
def entry (b : Block) (j : ℕ) : BlockId := wordAt b.byte (4 * j)

/-- The block with word `j` replaced. -/
def setEntry (b : Block) (j : ℕ) (w : BlockId) : Block :=
  ofBytes fun o => if 4 * j ≤ o ∧ o < 4 * j + 4 then byteOf w (o - 4 * j) else b.byte o

theorem entry_setEntry (b : Block) {j : ℕ} (hj : j < nIndirect) (w : BlockId) (k : ℕ) :
    (b.setEntry j w).entry k = if k = j then w else b.entry k := by
  unfold entry setEntry
  split_ifs with h
  · subst h
    refine wordAt_eq fun i hi => ?_
    rw [byte_ofBytes (by simp only [blockSize, nIndirect] at *; omega), if_pos (by omega),
      Nat.add_sub_cancel_left]
  · refine wordAt_congr fun i hi => ?_
    by_cases ho : 4 * k + i < blockSize
    · rw [byte_ofBytes ho, if_neg (by omega)]
    · rw [byte, dif_neg ho, byte, dif_neg ho]

theorem entry_zero (j : ℕ) : zero.entry j = 0 := by
  refine wordAt_eq fun k hk => ?_
  rw [byte_zero, byteOf]
  simp

end Block

end Yfs.Store
