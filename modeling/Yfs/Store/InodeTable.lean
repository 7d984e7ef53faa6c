import Yfs.Store.Serve

/-! The inode table: every inum has a cell of its own. -/
namespace Yfs.Store
open Effect

variable {junk : Junk} {s s' : BlockManager} {i : ℕ} {x : Inode}

/-- The states differ in the cell of one inum at most. -/
structure OnlyCell (junk : Junk) (i : ℕ) (s s' : BlockManager) : Prop where
  others : ∀ j, j ≠ i → ((getInode junk j).run exec s').1 = ((getInode junk j).run exec s).1
  blocks : ∀ b, b ≠ (iblock i sb.nblocks).toNat → s'.d b = s.d b
  cell : ∀ o, ¬ (inodeSize * (i % ipb) ≤ o ∧ o < inodeSize * (i % ipb) + inodeSize) →
    (s'.d (iblock i sb.nblocks).toNat).byte o = (s.d (iblock i sb.nblocks).toNat).byte o
  bitmap : s'.blockBitmap = s.blockBitmap

theorem OnlyCell.refl (junk : Junk) (i : ℕ) (s : BlockManager) : OnlyCell junk i s s :=
  ⟨fun _ _ => rfl, fun _ _ => rfl, fun _ _ => rfl, rfl⟩

theorem OnlyCell.putCell (junk : Junk) (s : BlockManager) (hi : i < inodeNum) (x : Inode) :
    OnlyCell junk i s (s.putCell i x) := by
  have hd : (s.putCell i x).d = Function.update s.d (iblock i sb.nblocks).toNat
      ((s.d (iblock i sb.nblocks).toNat).setCell (i % ipb) x) :=
    if_neg (Nat.not_le.mpr (BlockManager.iblock_lt_blockNum hi))
  constructor
  · intro j hj
    by_cases hlt : j < inodeNum
    · rw [getInode_run junk _ hlt, getInode_run junk _ hlt, BlockManager.getInode,
        BlockManager.getInode, BlockManager.inode_putCell hi hlt, if_neg hj]
    · rw [getInode_of_le (Nat.not_lt.mp hlt)]
      rfl
  · intro b hb
    rw [hd, Function.update_of_ne hb]
  · intro o ho
    rw [hd, Function.update_self, Block.byte_setCell_of_ne _ _ ho]
  · rfl

end Yfs.Store
