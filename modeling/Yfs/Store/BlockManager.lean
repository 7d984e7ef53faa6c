import Yfs.Effect.Program
import Yfs.Store.Bitmap
import Yfs.Store.Block

/-! The disk and the block layer. What a request does between two points at which
another request may run is one command: a bitmap operation or a block transfer. -/
namespace Yfs.Store
open Effect

abbrev Disk : Type := ℕ → Block

/-- `disk::read_block`; `none` when the buffer of the caller is left as it was. -/
def Disk.readBlock (d : Disk) (id : BlockId) : Option Block :=
  if blockNum ≤ id.toNat then none else some (d id.toNat)

def Disk.writeBlock (d : Disk) (id : BlockId) (buf : Block) : Disk :=
  if blockNum ≤ id.toNat then d else Function.update d id.toNat buf

structure BlockManager where
  d : Disk
  blockBitmap : Bitmap

structure Superblock where
  size : ℕ
  nblocks : ℕ
  ninodes : ℕ

abbrev inodeNum : ℕ := 1024

/-- Bitmap bits per block. -/
abbrev bpb : ℕ := blockSize * 8

/-- The superblock that the constructor of `block_manager` fills in. -/
def sb : Superblock where
  size := blockSize * blockNum
  nblocks := blockNum
  ninodes := inodeNum

inductive Cmd where
  | find
  | mark (which : BlockId)
  | clear (which : BlockId)
  | readBlock (id : BlockId)
  | writeBlock (id : BlockId) (buf : Block)

abbrev Reply : Cmd → Type
  | .find => BlockId
  | .readBlock _ => Option Block
  | _ => Unit

def exec : (c : Cmd) → BlockManager → Reply c × BlockManager
  | .find, s => (s.blockBitmap.find, s)
  | .mark w, s => ((), { s with blockBitmap := s.blockBitmap.mark w })
  | .clear w, s => ((), { s with blockBitmap := s.blockBitmap.clear w })
  | .readBlock id, s => (s.d.readBlock id, s)
  | .writeBlock id buf, s => ((), { s with d := s.d.writeBlock id buf })

abbrev Prog : Type → Type := Program Cmd Reply

/-- What the program reads without having written it: buffers on the stack, and the
bytes that follow a string in memory. -/
structure Junk where
  stack : Block
  past : ℕ → UInt8

def allocBlock : Prog BlockId :=
  .call .find fun i => .call (.mark i) fun _ => .pure i

def freeBlock (id : BlockId) : Prog Unit := .call (.clear id) .pure

/-- `read_block` into a buffer that holds `buf`. -/
def readBlock (id : BlockId) (buf : Block) : Prog Block :=
  .call (.readBlock id) fun r => .pure (r.getD buf)

def writeBlock (id : BlockId) (buf : Block) : Prog Unit := .call (.writeBlock id buf) .pure

namespace BlockManager

/-- The blocks marked one after the other from `first` on. -/
def markFrom (b : Bitmap) (first : ℕ) : (count : ℕ) → Bitmap
  | 0 => b
  | count + 1 => (markFrom b first count).mark (UInt32.ofNat (first + count))

/-- The bitmap once the boot sector and the superblock are marked. -/
def firstMarked : Bitmap := ((Bitmap.ofBits (UInt32.ofNat blockNum) (by decide)).mark 0).mark 1

/-- The bitmap once the constructor has marked the boot sector, the superblock, the
bitmap itself and the inode table with its `ipb` inodes to a block. -/
def reservedBitmap (ipb : ℕ) : Bitmap :=
  let b := markFrom firstMarked 2 ((blockNum + bpb - 1) / bpb)
  markFrom b (2 + (blockNum + bpb - 1) / bpb) ((inodeNum + ipb - 1) / ipb + 1)

theorem test_firstMarked (b : BlockId) : firstMarked.test b = decide (b.toNat < 2) := by
  have h0 : (0 : UInt32) < UInt32.ofNat blockNum := by decide
  have h1 : (1 : UInt32) < UInt32.ofNat blockNum := by decide
  have hn : (Bitmap.ofBits (UInt32.ofNat blockNum) (by decide)).numBits =
      UInt32.ofNat blockNum := rfl
  have hz : b = 0 ↔ b.toNat = 0 := by rw [← UInt32.toNat_inj]; rfl
  have ho : b = 1 ↔ b.toNat = 1 := by rw [← UInt32.toNat_inj]; rfl
  rw [firstMarked, Bitmap.test_mark, Bitmap.test_mark, Bitmap.test_ofBits, Bitmap.numBits_mark,
    hn, decide_eq_true h1, decide_eq_true h0]
  by_cases hb1 : b = 1
  · rw [if_pos hb1, ho.mp hb1]
    rfl
  · rw [if_neg hb1]
    by_cases hb0 : b = 0
    · rw [if_pos hb0, hz.mp hb0]
      rfl
    · rw [if_neg hb0]
      rw [hz] at hb0
      rw [ho] at hb1
      exact (decide_eq_false (by omega)).symm

theorem test_markFrom (b : Bitmap) (first count : ℕ) (h : first + count ≤ b.numBits.toNat)
    (w : BlockId) :
    (markFrom b first count).test w =
      (b.test w || decide (first ≤ w.toNat ∧ w.toNat < first + count)) ∧
    (markFrom b first count).numBits = b.numBits := by
  induction count with
  | zero => exact ⟨by simp [markFrom], rfl⟩
  | succ count ih =>
    obtain ⟨ht, hn⟩ := ih (by omega)
    have hlt : first + count < 2 ^ 32 := by have := b.numBits.toNat_lt; omega
    have hv : (UInt32.ofNat (first + count)).toNat = first + count :=
      UInt32.toNat_ofNat_of_lt' hlt
    refine ⟨?_, by rw [markFrom, Bitmap.numBits_mark, hn]⟩
    rw [markFrom, Bitmap.test_mark, ht, hn]
    by_cases hw : w = UInt32.ofNat (first + count)
    · have hb : UInt32.ofNat (first + count) < b.numBits := by
        rw [UInt32.lt_iff_toNat_lt, hv]
        omega
      rw [if_pos hw, hw, decide_eq_true hb, hv]
      simp
    · have hne : w.toNat ≠ first + count := fun h => hw (by rw [← UInt32.toNat_inj, hv, h])
      rw [if_neg hw]
      congr 2
      simp only [eq_iff_iff]
      omega

end BlockManager

end Yfs.Store
