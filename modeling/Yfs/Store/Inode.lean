import Yfs.Store.BlockManager

/-! The inode table: three inodes of 152 bytes to a block. -/
namespace Yfs.Store
open Effect

abbrev nDirect : ℕ := 32
abbrev maxFile : ℕ := nDirect + nIndirect

/-- `struct inode` as it lies in memory, with the two bytes of padding after `type`. -/
@[ext] structure Inode where
  type : Int16
  pad : UInt16
  size : UInt32
  atime : UInt32
  mtime : UInt32
  ctime : UInt32
  blocks : Fin (nDirect + 1) → BlockId

/-- `sizeof(struct inode)`. -/
abbrev inodeSize : ℕ := 152

/-- Inodes per block. -/
abbrev ipb : ℕ := blockSize / inodeSize

/-- Block containing inode `i`. -/
def iblock (i nblocks : ℕ) : BlockId := UInt32.ofNat (nblocks / bpb + i / ipb + 3)

namespace Inode

/-- The inode that `bzero` leaves. -/
def zero : Inode where
  type := 0
  pad := 0
  size := 0
  atime := 0
  mtime := 0
  ctime := 0
  blocks := fun _ => 0

/-- `blocks[i]`. -/
def slot (ino : Inode) (i : ℕ) : BlockId := if h : i < nDirect + 1 then ino.blocks ⟨i, h⟩ else 0

def setSlot (ino : Inode) (i : ℕ) (b : BlockId) : Inode :=
  { ino with blocks := fun j => if j.val = i then b else ino.blocks j }

/-- Byte `k` of the structure in memory. -/
def encode (ino : Inode) (k : ℕ) : UInt8 :=
  if k < 2 then UInt8.ofNat (ino.type.toUInt16.toNat / 256 ^ k)
  else if k < 4 then UInt8.ofNat (ino.pad.toNat / 256 ^ (k - 2))
  else if k < 8 then byteOf ino.size (k - 4)
  else if k < 12 then byteOf ino.atime (k - 8)
  else if k < 16 then byteOf ino.mtime (k - 12)
  else if k < 20 then byteOf ino.ctime (k - 16)
  else byteOf (ino.slot ((k - 20) / 4)) ((k - 20) % 4)

def halfAt (f : ℕ → UInt8) (o : ℕ) : UInt16 :=
  UInt16.ofNat ((f o).toNat + 256 * (f (o + 1)).toNat)

/-- The structure read from memory. -/
def decode (f : ℕ → UInt8) : Inode where
  type := (halfAt f 0).toInt16
  pad := halfAt f 2
  size := wordAt f 4
  atime := wordAt f 8
  mtime := wordAt f 12
  ctime := wordAt f 16
  blocks := fun i => wordAt f (20 + 4 * i)

theorem slot_setSlot (ino : Inode) {i : ℕ} (hi : i < nDirect + 1) (b : BlockId) (j : ℕ) :
    (ino.setSlot i b).slot j = if j = i then b else ino.slot j := by
  unfold slot setSlot
  by_cases hj : j < nDirect + 1
  · rw [dif_pos hj, dif_pos hj]
  · rw [dif_neg hj, dif_neg hj, if_neg (by omega)]

theorem slot_size (ino : Inode) (size : UInt32) (i : ℕ) :
    ({ ino with size := size } : Inode).slot i = ino.slot i := rfl

theorem halfAt_eq {f : ℕ → UInt8} {o : ℕ} {w : UInt16}
    (h : ∀ k < 2, f (o + k) = UInt8.ofNat (w.toNat / 256 ^ k)) : halfAt f o = w := by
  have h0 := h 0 (by decide)
  have h1 := h 1 (by decide)
  have hw := w.toNat_lt
  rw [Nat.add_zero] at h0
  rw [← UInt16.toNat_inj, halfAt, h0, h1]
  simp only [UInt16.toNat_ofNat', UInt8.toNat_ofNat']
  omega

/-- An inode survives its way through memory. -/
theorem decode_eq {f : ℕ → UInt8} {ino : Inode}
    (h : ∀ k < inodeSize, f k = ino.encode k) : decode f = ino := by
  have hword : ∀ o, o + 4 ≤ inodeSize → ∀ w, (∀ k < 4, ino.encode (o + k) = byteOf w k) →
      wordAt f o = w :=
    fun o ho w hk => wordAt_eq fun k h4 => by rw [h _ (by omega), hk k h4]
  have htype : halfAt f 0 = ino.type.toUInt16 := halfAt_eq fun k hk => by
    rw [h _ (by simp only [inodeSize]; omega), encode, if_pos (by omega), Nat.zero_add]
  have hpad : halfAt f 2 = ino.pad := halfAt_eq fun k hk => by
    rw [h _ (by simp only [inodeSize]; omega), encode, if_neg (by omega), if_pos (by omega),
      Nat.add_sub_cancel_left]
  ext1
  · rw [decode, htype, Int16.toInt16_toUInt16]
  · exact hpad
  · refine hword 4 (by decide) _ fun k hk => ?_
    rw [encode, if_neg (by omega), if_neg (by omega), if_pos (by omega), Nat.add_sub_cancel_left]
  · refine hword 8 (by decide) _ fun k hk => ?_
    rw [encode, if_neg (by omega), if_neg (by omega), if_neg (by omega), if_pos (by omega),
      Nat.add_sub_cancel_left]
  · refine hword 12 (by decide) _ fun k hk => ?_
    rw [encode, if_neg (by omega), if_neg (by omega), if_neg (by omega), if_neg (by omega),
      if_pos (by omega), Nat.add_sub_cancel_left]
  · refine hword 16 (by decide) _ fun k hk => ?_
    rw [encode, if_neg (by omega), if_neg (by omega), if_neg (by omega), if_neg (by omega),
      if_neg (by omega), if_pos (by omega), Nat.add_sub_cancel_left]
  · funext i
    have hi := i.isLt
    simp only [nDirect] at hi
    refine hword (20 + 4 * i) (by simp only [inodeSize]; omega) _ fun k hk => ?_
    rw [encode, if_neg (by omega), if_neg (by omega), if_neg (by omega), if_neg (by omega),
      if_neg (by omega), if_neg (by omega), show (20 + 4 * i.val + k - 20) / 4 = i by omega,
      show (20 + 4 * i.val + k - 20) % 4 = k by omega, slot, dif_pos i.isLt]

theorem decode_congr {f g : ℕ → UInt8} (h : ∀ k < inodeSize, f k = g k) :
    decode f = decode g := by
  have hword : ∀ o, o + 4 ≤ inodeSize → wordAt f o = wordAt g o := fun o ho =>
    wordAt_congr fun k hk => h _ (by omega)
  have hhalf : ∀ o, o + 2 ≤ inodeSize → halfAt f o = halfAt g o := fun o ho => by
    rw [halfAt, h o (by omega), h (o + 1) (by omega), halfAt]
  ext1
  · rw [decode, hhalf 0 (by decide), decode]
  · exact hhalf 2 (by decide)
  · exact hword 4 (by decide)
  · exact hword 8 (by decide)
  · exact hword 12 (by decide)
  · exact hword 16 (by decide)
  · funext i
    have hi := i.isLt
    simp only [nDirect] at hi
    exact hword (20 + 4 * i) (by simp only [inodeSize]; omega)

end Inode

namespace Block

/-- Cell `c` of a block of the inode table. -/
def cell (b : Block) (c : ℕ) : Inode := Inode.decode fun k => b.byte (inodeSize * c + k)

/-- The block after the assignment `*ino_disk = *ino` to cell `c`. -/
def setCell (b : Block) (c : ℕ) (ino : Inode) : Block :=
  ofBytes fun o =>
    if inodeSize * c ≤ o ∧ o < inodeSize * c + inodeSize then ino.encode (o - inodeSize * c)
    else b.byte o

theorem byte_setCell_of_ne (b : Block) {c o : ℕ} (ino : Inode)
    (ho : ¬ (inodeSize * c ≤ o ∧ o < inodeSize * c + inodeSize)) :
    (b.setCell c ino).byte o = b.byte o := by
  by_cases hlt : o < blockSize
  · rw [setCell, byte_ofBytes hlt, if_neg ho]
  · rw [byte, dif_neg hlt, byte, dif_neg hlt]

theorem cell_setCell (b : Block) {c : ℕ} (hc : c < ipb) (ino : Inode) :
    (b.setCell c ino).cell c = ino := by
  have h3 : c < 3 := hc
  refine Inode.decode_eq fun k hk => ?_
  have hlt : inodeSize * c + k < blockSize := by simp only [inodeSize, blockSize] at *; omega
  rw [setCell, byte_ofBytes hlt, if_pos (by omega), Nat.add_sub_cancel_left]

theorem cell_setCell_of_ne (b : Block) {c c' : ℕ} (h : c' ≠ c) (ino : Inode) :
    (b.setCell c ino).cell c' = b.cell c' := by
  refine Inode.decode_congr fun k hk => ?_
  refine byte_setCell_of_ne b ino ?_
  simp only [inodeSize] at *
  omega

theorem cell_zero (c : ℕ) : zero.cell c = Inode.zero := by
  refine Inode.decode_eq fun k hk => ?_
  rw [byte_zero]
  have h16 : (0 : Int16).toUInt16 = 0 := rfl
  unfold Inode.encode Inode.slot byteOf Inode.zero
  split_ifs <;> simp [h16]

end Block

section Functions

variable (junk : Junk)

/-- An inode structure by inum, `none` for the null pointer. -/
def getInode (inum : ℕ) : Prog (Option Inode) := do
  if inodeNum ≤ inum then return none
  else
    let buf ← readBlock (iblock inum sb.nblocks) junk.stack
    if (buf.cell (inum % ipb)).type = 0 then return none
    else return some (buf.cell (inum % ipb))

def putInode (inum : ℕ) (ino : Inode) : Prog Unit := do
  let buf ← readBlock (iblock inum sb.nblocks) junk.stack
  writeBlock (iblock inum sb.nblocks) (buf.setCell (inum % ipb) ino)

/-- The loop of `alloc_inode`: the first inum from 1 on that has no inode. -/
def findFreeInode : Prog (Option ℕ) :=
  Program.loop (fun i _ => do
    match ← getInode junk i with
    | none => return .done (some i)
    | some _ => return .yield none) (inodeNum - 1) 1 none

def allocInode (type : UInt32) : Prog UInt32 := do
  match ← findFreeInode junk with
  | some i =>
    putInode junk i { Inode.zero with size := 0, type := type.toUInt16.toInt16 }
    return UInt32.ofNat i
  | none => return 0

def freeInode (inum : ℕ) : Prog Unit := do
  match ← getInode junk inum with
  | some _ => putInode junk inum { Inode.zero with type := 0 }
  | none => return ()

end Functions

/-- The table block of an inode, as a number of a block of the disk. -/
theorem iblock_toNat {i : ℕ} (hi : i < inodeNum) : (iblock i sb.nblocks).toNat = i / 3 + 11 := by
  have hi' : i < 1024 := hi
  have hn : sb.nblocks / bpb = 8 := rfl
  have h3 : ipb = 3 := rfl
  rw [iblock, hn, h3, UInt32.toNat_ofNat_of_lt' (by simp only [UInt32.size]; omega)]
  omega

end Yfs.Store
