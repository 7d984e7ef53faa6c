import Yfs.Store.InodeManager
import Yfs.Store.Ownership
import Mathlib.Algebra.Order.Ring.Int

/-! Where the blocks of a file are, and what it means that a share stores a file. -/
namespace Yfs.Store
open Effect

/-- The number of blocks that a file of `size` bytes spans. -/
def blocksOf (size : ℕ) : ℕ := (size + 511) / 512

theorem blockCount_toNat {size : UInt32} (h : size.toNat + 511 < 2 ^ 32) :
    (blockCount size).toNat = blocksOf size.toNat := by
  have h1 : (size + 512).toNat = (size.toNat + 512) % 2 ^ 32 := UInt32.toNat_add size 512
  have h2 : (size + 512 - 1).toNat = size.toNat + 511 := by
    rw [UInt32.toNat_sub, h1, UInt32.toNat_one]
    omega
  rw [blockCount, UInt32.toNat_div, h2, blocksOf]
  rfl

theorem toInt_ofNat_of_lt {n : ℕ} (h : n < 2 ^ 31) : (Int32.ofNat n).toInt = n := by
  rw [Int32.toInt_ofNat']
  have h1 : (Int32.size : ℕ) = 2 ^ 32 := rfl
  rw [h1, Int.bmod_eq_of_le] <;> omega

theorem blockCountInt_ofNat {n : ℕ} (h : n + 512 < 2 ^ 31) :
    (blockCountInt (Int32.ofNat n)).toNat = blocksOf n := by
  have h1 : Int32.ofNat n + 512 = Int32.ofNat (n + 512) := (Int32.ofNat_add n 512).symm
  have h2 : Int32.ofNat n + 512 - 1 = Int32.ofNat (n + 511) := by
    rw [h1, show n + 512 = n + 511 + 1 by omega, Int32.ofNat_add]
    exact Int32.add_sub_cancel _ 1
  have h3 : Int32.ofNat (n + 511) / 512 = Int32.ofNat ((n + 511) / 512) := by
    rw [← Int32.toInt_inj, Int32.toInt_div, toInt_ofNat_of_lt (by omega),
      toInt_ofNat_of_lt (n := (n + 511) / 512) (by omega), show (512 : Int32).toInt = 512 from rfl,
      Int.tdiv_eq_ediv_of_nonneg (by omega), Int.bmod_eq_of_le] <;> omega
  rw [blockCountInt, h2, h3, Int32.toUInt32_ofNat', blocksOf,
    UInt32.toNat_ofNat_of_lt' (by simp only [UInt32.size]; omega)]

theorem toUInt32_ofNat_toNat {n : ℕ} (h : n < 2 ^ 32) :
    (Int32.ofNat n).toUInt32.toNat = n := by
  rw [Int32.toUInt32_ofNat', UInt32.toNat_ofNat_of_lt' h]

theorem lt_blocksOf_iff (i size : ℕ) : i < blocksOf size ↔ i * 512 < size := by
  unfold blocksOf
  omega

/-- A place for a block number in a file: that of its block `i`, or the last slot of
the inode. -/
inductive Pos where
  | data (i : ℕ)
  | indirect
  deriving DecidableEq

/-- The places in use in a file of `n` blocks. -/
def Pos.InUse (n : ℕ) : Pos → Prop
  | .data i => i < n
  | .indirect => nDirect < n

/-- The block number at a place, in a file with the given inode and indirect block. -/
def slotOf (ino : Inode) (ind : Block) : Pos → BlockId
  | .data i => if i < nDirect then ino.slot i else ind.entry (i - nDirect)
  | .indirect => ino.slot nDirect

theorem slotOf_setSlot (ino : Inode) (ind : Block) {i : ℕ} (hi : i < nDirect) (b : BlockId)
    (p : Pos) :
    slotOf (ino.setSlot i b) ind p = Function.update (slotOf ino ind) (.data i) b p := by
  have hs := Inode.slot_setSlot ino (show i < nDirect + 1 by omega) b
  cases p with
  | indirect =>
    rw [Function.update_of_ne (by simp), slotOf, slotOf, hs, if_neg (by omega)]
  | data j =>
    obtain rfl | hj := eq_or_ne j i
    · rw [Function.update_self, slotOf, if_pos hi, hs, if_pos rfl]
    · rw [Function.update_of_ne (by simpa using hj), slotOf, slotOf, hs, if_neg hj]

theorem slotOf_setEntry (ino : Inode) (ind : Block) {i : ℕ} (hi : nDirect ≤ i)
    (hi' : i < maxFile) (b : BlockId) (p : Pos) :
    slotOf ino (ind.setEntry (i - nDirect) b) p =
      Function.update (slotOf ino ind) (.data i) b p := by
  have he := Block.entry_setEntry ind (show i - nDirect < nIndirect by
    simp only [nDirect, nIndirect, maxFile] at *; omega) b
  cases p with
  | indirect => rw [Function.update_of_ne (by simp), slotOf, slotOf]
  | data j =>
    obtain rfl | hj := eq_or_ne j i
    · rw [Function.update_self, slotOf, if_neg (by omega), he, if_pos rfl]
    · rw [Function.update_of_ne (by simpa using hj), slotOf, slotOf]
      split
      · rfl
      · rw [he, if_neg (by omega)]

namespace BlockManager

/-- The cell of an inum in the inode table on disk. -/
def inode (s : BlockManager) (n : ℕ) : Inode := (s.d (iblock n sb.nblocks).toNat).cell (n % ipb)

/-- The block number at a place of an inum, as it is on disk. -/
def slot (s : BlockManager) (n : ℕ) : Pos → BlockId :=
  slotOf (s.inode n) (s.d ((s.inode n).slot nDirect).toNat)

def Live (s : BlockManager) (n : ℕ) : Prop := n < inodeNum ∧ (s.inode n).type ≠ 0

/-- `BLOCK_COUNT` of the size on disk. -/
def blocks (s : BlockManager) (n : ℕ) : ℕ := (blockCount (s.inode n).size).toNat

/-- A block is in an in-use slot of a live inum. -/
def Owns (s : BlockManager) (n : ℕ) (b : BlockId) : Prop :=
  s.Live n ∧ ∃ p : Pos, p.InUse (s.blocks n) ∧ s.slot n p = b

end BlockManager

namespace Share

/-- The indirect block of the file, as the owner knows it. -/
def ind (l : Share) : Block := (l.held (l.cell.slot nDirect)).getD Block.zero

/-- The block number at a place of the file of a share. -/
def slotAt (l : Share) : Pos → BlockId := slotOf l.cell l.ind

theorem idle_setHeld {l : Share} (h : l.Idle) (b : BlockId) (c : Option Block) :
    (l.setHeld b c).Idle := h

theorem idle_take {l : Share} (h : l.Idle) (b : BlockId) (c : Block) : (l.take b c).Idle :=
  ⟨rfl, h.2⟩

theorem held_setHeld (l : Share) (b : BlockId) (c : Option Block) (b' : BlockId) :
    (l.setHeld b c).held b' = if b' = b then c else l.held b' := Function.update_apply ..

theorem held_take (l : Share) (b : BlockId) (c : Block) (b' : BlockId) :
    (l.take b c).held b' = if b' = b then some c else l.held b' := Function.update_apply ..

end Share

/-- The share of an inum with a file of the given type and contents. -/
structure Stores (l : Share) (type : Int16) (bytes : List UInt8) : Prop where
  idle : l.Idle
  type_eq : l.cell.type = type
  live : type ≠ 0
  size_eq : l.cell.size.toNat = bytes.length
  small : blocksOf bytes.length < maxFile
  times : l.cell.atime = 0 ∧ l.cell.mtime = 0 ∧ l.cell.ctime = 0
  inUse : ∀ p : Pos, p.InUse (blocksOf bytes.length) → l.held (l.slotAt p) ≠ none
  inj : ∀ p q : Pos, p.InUse (blocksOf bytes.length) → q.InUse (blocksOf bytes.length) →
    l.slotAt p = l.slotAt q → p = q
  content : ∀ k < bytes.length, ∃ c, l.held (l.slotAt (.data (k / 512))) = some c ∧
    c.byte (k % 512) = bytes.getD k 0

namespace Stores

variable {l : Share} {type : Int16} {bytes : List UInt8}

theorem length_lt (h : Stores l type bytes) : bytes.length < maxFile * blockSize := by
  have hs := h.small
  simp only [blocksOf, maxFile, nDirect, nIndirect, blockSize] at *
  omega

/-- `BLOCK_COUNT` of the stored size. -/
theorem blockCount_eq (h : Stores l type bytes) :
    (blockCount l.cell.size).toNat = blocksOf bytes.length := by
  have hlt := h.length_lt
  simp only [maxFile, nDirect, nIndirect, blockSize] at hlt
  rw [blockCount_toNat (by rw [h.size_eq]; omega), h.size_eq]

theorem setCredits (h : Stores l type bytes) (k : ℕ) : Stores (l.setCredits k) type bytes :=
  { h with }

theorem type_ne (h : Stores l type bytes) : l.cell.type ≠ 0 := h.type_eq ▸ h.live

end Stores

/-! The rules, one for each operation of the layers below files. -/

section Rules

variable {α : Type} {n : ℕ} {l : Share}

theorem allocBlock_wp {Q : BlockId → Share → Prop} (hn : n < inodeNum) (hl : l.Idle)
    (hc : 0 < l.credits)
    (h : ∀ b c, IsData b → l.held b = none → Q b (l.take b c)) :
    allocBlock.wp (Rule n) Q l := by
  refine ⟨_, .find hn hl hc, ?_⟩
  rintro i _ ⟨hi, hnone, rfl⟩
  refine ⟨_, .mark hn rfl hl.2, ?_⟩
  rintro _ _ ⟨c, rfl⟩
  exact h i c hi hnone

theorem freeBlock_wp {Q : Unit → Share → Prop} {b : BlockId} (hl : l.Idle)
    (hb : l.held b ≠ none) (h : Q () (l.setHeld b none)) : (freeBlock b).wp (Rule n) Q l := by
  refine ⟨_, .clear hl hb, ?_⟩
  rintro _ _ rfl
  exact h

theorem readBlock_wp {Q : Block → Share → Prop} {b : BlockId} {c buf : Block} (hl : l.Idle)
    (hb : l.held b = some c) (h : Q c l) : (readBlock b buf).wp (Rule n) Q l := by
  refine ⟨_, .readHeld hl hb, ?_⟩
  rintro _ _ ⟨rfl, rfl⟩
  exact h

theorem writeBlock_wp {Q : Unit → Share → Prop} {b : BlockId} {buf : Block} (hl : l.Idle)
    (hb : l.held b ≠ none) (h : Q () (l.setHeld b (some buf))) :
    (writeBlock b buf).wp (Rule n) Q l := by
  refine ⟨_, .writeHeld buf hl hb, ?_⟩
  rintro _ _ rfl
  exact h

/-- The inode structure a request gets, `none` when there is none. -/
def Share.inode (l : Share) : Option Inode := if l.cell.type = 0 then none else some l.cell

theorem getInode_wp {Q : Option Inode → Share → Prop} {junk : Junk} (hn : n < inodeNum)
    (hl : l.Idle) (h : Q l.inode l) : (getInode junk n).wp (Rule n) Q l := by
  rw [getInode, if_neg (by omega)]
  refine Program.wp_bind _ ⟨_, .readCell hn hl, ?_⟩
  rintro _ _ ⟨buf, rfl, hcell, rfl⟩
  rw [Share.inode] at h
  simp only [Program.wp_pure, Option.getD_some, hcell]
  split_ifs with h0
  · rwa [if_pos h0] at h
  · rwa [if_neg h0] at h

theorem getInode_of_le {junk : Junk} (hn : inodeNum ≤ n) : getInode junk n = .pure none :=
  if_pos hn

theorem putInode_wp {Q : Unit → Share → Prop} {junk : Junk} {ino : Inode} (hn : n < inodeNum)
    (hl : l.Idle) (h : Q () (l.setCell ino)) :
    (putInode junk n ino).wp (Rule n) Q l := by
  refine Program.wp_bind _ ⟨_, .openCell hn hl, ?_⟩
  rintro _ _ ⟨buf, rfl, -, rfl⟩
  refine ⟨_, .closeCell (l := { l with window := some buf }) ino hl.1 rfl, ?_⟩
  rintro _ _ rfl
  have hw : { l with cell := ino, window := none } = l.setCell ino := by
    rw [Share.setCell, hl.2]
  rw [← hw] at h
  exact h

end Rules

end Yfs.Store
