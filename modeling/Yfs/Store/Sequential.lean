import Yfs.Effect.Hoare
import Yfs.Store.ReadSpec

/-! The operations run alone on a state about which nothing is assumed. -/
namespace Yfs.Store
open Effect

namespace BlockManager

/-- The state once `alloc_block` has marked what `find` returned. -/
def alloc (s : BlockManager) : BlockManager :=
  { s with blockBitmap := s.blockBitmap.mark s.blockBitmap.find }

def write (s : BlockManager) (b : BlockId) (buf : Block) : BlockManager :=
  { s with d := s.d.writeBlock b buf }

/-- The state after `put_inode`. -/
def putCell (s : BlockManager) (n : ℕ) (ino : Inode) : BlockManager :=
  s.write (iblock n sb.nblocks) ((s.d (iblock n sb.nblocks).toNat).setCell (n % ipb) ino)

/-- What `get_inode` returns for an inum in range. -/
def getInode (s : BlockManager) (n : ℕ) : Option Inode :=
  if (s.inode n).type = 0 then none else some (s.inode n)

variable {s : BlockManager} {n m : ℕ} {ino : Inode}

theorem write_d_of_ne {b : BlockId} {buf : Block} {k : ℕ} (h : k ≠ b.toNat) :
    (s.write b buf).d k = s.d k := by
  rw [write, Disk.writeBlock]
  split_ifs
  · rfl
  · exact Function.update_of_ne h _ _

theorem iblock_lt_blockNum (hn : n < inodeNum) : (iblock n sb.nblocks).toNat < blockNum := by
  rw [iblock_toNat hn]
  simp only [inodeNum, blockNum, diskSize, blockSize] at *
  omega

theorem inode_putCell (hn : n < inodeNum) (hm : m < inodeNum) :
    (s.putCell n ino).inode m = if m = n then ino else s.inode m := by
  have hd : (s.putCell n ino).d = Function.update s.d (iblock n sb.nblocks).toNat
      ((s.d (iblock n sb.nblocks).toNat).setCell (n % ipb) ino) :=
    if_neg (Nat.not_le.mpr (iblock_lt_blockNum hn))
  rw [inode, hd]
  by_cases hmn : m = n
  · rw [hmn, if_pos rfl, Function.update_self]
    exact Block.cell_setCell _ (Nat.mod_lt _ (by decide)) ino
  · rw [if_neg hmn]
    by_cases hb : (iblock m sb.nblocks).toNat = (iblock n sb.nblocks).toNat
    · have hne : m % ipb ≠ n % ipb := by
        rw [iblock_toNat hn, iblock_toNat hm] at hb
        simp only [ipb, blockSize, inodeSize]
        omega
      rw [hb, Function.update_self, Block.cell_setCell_of_ne _ hne, ← hb]
      rfl
    · rw [Function.update_of_ne hb]
      rfl

theorem inode_putCell_self (hn : n < inodeNum) : (s.putCell n ino).inode n = ino :=
  (inode_putCell hn hn).trans (if_pos rfl)

theorem inode_write_of_ne {b : BlockId} {buf : Block} (h : b ≠ iblock n sb.nblocks) :
    (s.write b buf).inode n = s.inode n := by
  rw [inode, write_d_of_ne, inode]
  exact fun he => h (UInt32.toNat_inj.mp he.symm)

end BlockManager

section Rules

variable {A : Cmd → BlockManager → Prop} {α : Type} {s : BlockManager} {n : ℕ} {junk : Junk}

theorem allocBlock_wlp {Q : BlockId → BlockManager → Prop}
    (h : A .find s → Q s.blockBitmap.find s.alloc) : allocBlock.wlp exec A Q s :=
  fun ha => h ha.1

theorem freeBlock_wlp {Q : Unit → BlockManager → Prop} {b : BlockId}
    (h : Q () { s with blockBitmap := s.blockBitmap.clear b }) :
    (freeBlock b).wlp exec A Q s := fun _ => h

theorem readBlock_wlp {Q : Block → BlockManager → Prop} {b : BlockId} {buf : Block}
    (h : Q ((s.d.readBlock b).getD buf) s) : (readBlock b buf).wlp exec A Q s := fun _ => h

theorem writeBlock_wlp {Q : Unit → BlockManager → Prop} {b : BlockId} {buf : Block}
    (h : Q () (s.write b buf)) : (writeBlock b buf).wlp exec A Q s := fun _ => h

theorem getInode_run (junk : Junk) (s : BlockManager) (hn : n < inodeNum) :
    (getInode junk n).run exec s = (s.getInode n, s) := by
  have hread : exec (.readBlock (iblock n sb.nblocks)) s =
      (some (s.d (iblock n sb.nblocks).toNat), s) := by
    rw [exec, Disk.readBlock, if_neg (Nat.not_le.mpr (BlockManager.iblock_lt_blockNum hn))]
  rw [getInode, if_neg (Nat.not_le.mpr hn), readBlock, Program.call_bind, Program.run_call, hread]
  have hget : s.getInode n = if ((s.d (iblock n sb.nblocks).toNat).cell (n % ipb)).type = 0
      then none else some ((s.d (iblock n sb.nblocks).toNat).cell (n % ipb)) := rfl
  simp only [Program.pure_bind, Option.getD_some, hget]
  by_cases h0 : ((s.d (iblock n sb.nblocks).toNat).cell (n % ipb)).type = 0
  · rw [if_pos h0, if_pos h0]
    rfl
  · rw [if_neg h0, if_neg h0]
    rfl

theorem getInode_wlp {Q : Option Inode → BlockManager → Prop} (hn : n < inodeNum)
    (h : Q (s.getInode n) s) : (getInode junk n).wlp exec A Q s := by
  intro _
  rwa [getInode_run junk s hn]

theorem putInode_run (junk : Junk) (s : BlockManager) (hn : n < inodeNum) (ino : Inode) :
    (putInode junk n ino).run exec s = ((), s.putCell n ino) := by
  have hread : exec (.readBlock (iblock n sb.nblocks)) s =
      (some (s.d (iblock n sb.nblocks).toNat), s) := by
    rw [exec, Disk.readBlock, if_neg (Nat.not_le.mpr (BlockManager.iblock_lt_blockNum hn))]
  rw [putInode, readBlock, Program.call_bind, Program.run_call, hread]
  rfl

theorem putInode_wlp {Q : Unit → BlockManager → Prop} {ino : Inode} (hn : n < inodeNum)
    (h : Q () (s.putCell n ino)) : (putInode junk n ino).wlp exec A Q s := by
  intro _
  rwa [putInode_run junk s hn]

/-! An inum that is not live has no file. -/

theorem getInode_dead (junk : Junk) (h : ¬ s.Live n) :
    (getInode junk n).run exec s = (none, s) := by
  by_cases hn : n < inodeNum
  · have h0 : (s.inode n).type = 0 := by
      by_contra h0
      exact h ⟨hn, h0⟩
    rw [getInode_run junk s hn, BlockManager.getInode, if_pos h0]
  · rw [getInode_of_le (Nat.not_lt.mp hn)]
    rfl

theorem writeFile_dead (junk : Junk) (h : ¬ s.Live n) (buf : ℕ → UInt8) (size : Int32) :
    (writeFile junk n buf size).run exec s = ((), s) := by
  rw [writeFile, Program.run_bind, getInode_dead junk h]
  rfl

theorem readFile_dead (junk : Junk) (h : ¬ s.Live n) :
    (readFile junk n).run exec s = (some ⟨junk.past, 0⟩, s) := by
  rw [readFile, Program.run_bind, getInode_dead junk h]
  rfl

theorem getattr_dead (junk : Junk) (h : ¬ s.Live n) (a : Attr) :
    (getattr junk n a).run exec s = (a, s) := by
  rw [getattr, Program.run_bind, getInode_dead junk h]
  rfl

theorem removeFile_dead (junk : Junk) (h : ¬ s.Live n) :
    (removeFile junk n).run exec s = ((), s) := by
  rw [removeFile, Program.run_bind, getInode_dead junk h]
  rfl

theorem freeInode_dead (junk : Junk) (h : ¬ s.Live n) :
    (freeInode junk n).run exec s = ((), s) := by
  rw [freeInode, Program.run_bind, getInode_dead junk h]
  rfl

theorem freeInode_live (junk : Junk) (h : s.Live n) :
    (freeInode junk n).run exec s = ((), s.putCell n Inode.zero) := by
  rw [freeInode, Program.run_bind, getInode_run junk s h.1, BlockManager.getInode, if_neg h.2]
  exact putInode_run junk s h.1 _

theorem getattr_state (junk : Junk) (s : BlockManager) (n : ℕ) (a : Attr) :
    ((getattr junk n a).run exec s).2 = s := by
  by_cases h : s.Live n
  · rw [getattr, Program.run_bind, getInode_run junk s h.1, BlockManager.getInode, if_neg h.2]
    rfl
  · rw [getattr_dead junk h]

/-- The search of `alloc_inode` ends at the first inum that is not live. -/
theorem findFreeInode_run (junk : Junk) (s : BlockManager) :
    (∃ i, 0 < i ∧ i < inodeNum ∧ ¬ s.Live i ∧ (∀ j, 0 < j → j < i → s.Live j) ∧
      (findFreeInode junk).run exec s = (some i, s)) ∨
      (∀ i, 0 < i → i < inodeNum → s.Live i) ∧ (findFreeInode junk).run exec s = (none, s) := by
  have hloop : ((findFreeInode junk).run exec s).2 = s ∧
      ((∃ i, 0 < i ∧ i < inodeNum ∧ ¬ s.Live i ∧ (∀ j, 0 < j → j < i → s.Live j) ∧
        ((findFreeInode junk).run exec s).1 = some i) ∨
      (∀ i, 0 < i → i < inodeNum → s.Live i) ∧ ((findFreeInode junk).run exec s).1 = none) := by
    unfold findFreeInode
    refine Program.run_loop exec _
      (fun i x s' => x = none ∧ s' = s ∧ ∀ j, 0 < j → j < i → s.Live j)
      (fun x s' => s' = s ∧ ((∃ i, 0 < i ∧ i < inodeNum ∧ ¬ s.Live i ∧
        (∀ j, 0 < j → j < i → s.Live j) ∧ x = some i) ∨
        (∀ i, 0 < i → i < inodeNum → s.Live i) ∧ x = none)) (inodeNum - 1) 1 none s
      ⟨rfl, rfl, fun j hj hj' => absurd hj' (by omega)⟩ ?_ ?_
    · rintro i _ _ hi hlt ⟨rfl, rfl, hall⟩
      by_cases hl : BlockManager.Live ‹_› i
      · rw [Program.run_bind, getInode_run junk _ hl.1, BlockManager.getInode, if_neg hl.2]
        refine ⟨rfl, rfl, fun j h0 hj => ?_⟩
        obtain rfl | hne := Nat.eq_or_lt_of_le (Nat.lt_succ_iff.mp hj)
        · exact hl
        · exact hall j h0 hne
      · rw [Program.run_bind, getInode_dead junk hl]
        exact ⟨rfl, Or.inl ⟨i, hi, by omega, hl, hall, rfl⟩⟩
    · rintro _ _ ⟨rfl, rfl, hall⟩
      exact ⟨rfl, Or.inr ⟨hall, rfl⟩⟩
  obtain ⟨hs, hx⟩ := hloop
  rcases hx with ⟨i, h0, hi, hm, hleast, hx⟩ | ⟨hall, hx⟩
  · exact Or.inl ⟨i, h0, hi, hm, hleast, Prod.ext hx hs⟩
  · exact Or.inr ⟨hall, Prod.ext hx hs⟩

/-- The inode that `alloc_inode` writes. -/
def newInode (type : UInt32) : Inode := { Inode.zero with size := 0, type := type.toUInt16.toInt16 }

/-- Once the search is over, `alloc_inode` writes one inode. -/
theorem allocInode_run {i : ℕ} (hi : i < inodeNum) (type : UInt32)
    (hfind : (findFreeInode junk).run exec s = (some i, s)) :
    (allocInode junk type).run exec s = (UInt32.ofNat i, s.putCell i (newInode type)) := by
  rw [allocInode, Program.run_bind, hfind]
  dsimp only
  rw [Program.run_bind, ← newInode, putInode_run junk s hi]
  rfl

end Rules

section ReadFile

variable {A : Cmd → BlockManager → Prop} {s : BlockManager} {n : ℕ} {ino : Inode} {ind : Block}
  {j : ℕ} {x : ReadState}

/-- The output holds what is on disk in the blocks that are blocks of the disk. -/
abbrev CopiedBlocks (s : BlockManager) (ino : Inode) (ind : Block) : ℕ → ReadState → Prop :=
  Copied ino.size.toNat fun k v =>
    (slotOf ino ind (.data (k / blockSize))).toNat < blockNum →
      v = (s.d (slotOf ino ind (.data (k / blockSize))).toNat).byte (k % blockSize)

theorem copyBlock_wlp {id : BlockId} (hx : CopiedBlocks s ino ind j x)
    (hid : id = slotOf ino ind (.data j)) :
    (copyBlock ino.size.toNat id x).wlp exec A
      (fun x' s' => CopiedBlocks s ino ind (j + 1) x' ∧ s' = s) s := by
  refine Program.wlp_bind _ (readBlock_wlp ?_)
  refine Program.wlp_pure _ ⟨hx.append ?_, rfl⟩
  rintro k _ rfl hlt
  rw [hid, s.d.readBlock_of_lt hlt, Option.getD_some]

/-- `read_file` on a file that is not too large. -/
theorem readFile_wlp (junk : Junk) (hn : n < inodeNum) (hlive : (s.inode n).type ≠ 0)
    (hsize : (s.inode n).size.toNat ≤ maxFile * blockSize) :
    (readFile junk n).wlp exec A (fun r s' => s' = s ∧
      ∃ out, r = some ⟨out, (s.inode n).size.toInt32⟩ ∧ ∀ k < (s.inode n).size.toNat,
        let ind := (s.d.readBlock ((s.inode n).slot nDirect)).getD junk.stack
        (slotOf (s.inode n) ind (.data (k / blockSize))).toNat < blockNum →
          out k = (s.d (slotOf (s.inode n) ind (.data (k / blockSize))).toNat).byte
            (k % blockSize)) s := by
  let ind := (s.d.readBlock ((s.inode n).slot nDirect)).getD junk.stack
  have hblocks : blocksOf (s.inode n).size.toNat ≤ maxFile := by
    simp only [blocksOf, maxFile, nDirect, nIndirect, blockSize] at *
    omega
  have hfinish : ∀ x : ReadState, ∀ j, CopiedBlocks s (s.inode n) ind j x →
      blocksOf (s.inode n).size.toNat ≤ j → Program.wlp exec A
        (if x.readSize < (s.inode n).size.toNat then pure none
          else pure (some ⟨Function.update x.out (s.inode n).size.toNat 0,
            (s.inode n).size.toInt32⟩) : Prog (Option FileData))
        (fun r s' => s' = s ∧
          ∃ out, r = some ⟨out, (s.inode n).size.toInt32⟩ ∧ ∀ k < (s.inode n).size.toNat,
            (slotOf (s.inode n) ind (.data (k / blockSize))).toNat < blockNum →
              out k = (s.d (slotOf (s.inode n) ind (.data (k / blockSize))).toNat).byte
                (k % blockSize)) s := by
    intro x j hx hj
    rw [if_neg (by rw [hx.lt_iff]; omega)]
    refine Program.wlp_pure _ ⟨rfl, _, rfl, fun k hk hlt => ?_⟩
    rw [Function.update_of_ne (Nat.ne_of_lt hk)]
    refine hx.out k ?_ hk hlt
    simp only [blocksOf, blockSize] at *
    omega
  refine Program.wlp_bind _ (getInode_wlp hn ?_)
  rw [BlockManager.getInode, if_neg hlive]
  refine Program.wlp_seq exec (P := fun x s' => s' = s ∧
    CopiedBlocks s (s.inode n) ind (min nDirect (blocksOf (s.inode n).size.toNat)) x) ?_ ?_
  · refine Program.wlp_loop exec (fun i x s' => s' = s ∧ CopiedBlocks s (s.inode n) ind i x ∧
      i ≤ blocksOf (s.inode n).size.toNat) ?_ ?_ ?_
    · exact ⟨rfl, ⟨rfl, fun k hk => absurd hk (by simp)⟩, Nat.zero_le _⟩
    · rintro i x s - hi ⟨rfl, hx, hle⟩
      unfold readDirect
      split_ifs with hs
      · have hni : ¬ i < blocksOf (s.inode n).size.toNat := by
          rw [← hx.lt_iff]
          omega
        have hm : min nDirect (blocksOf (s.inode n).size.toNat) = i := by omega
        exact Program.wlp_pure _ ⟨rfl, by rwa [hm]⟩
      · have hlt := hx.lt_iff.mp (Nat.not_le.mp hs)
        refine Program.wlp_seq _ (copyBlock_wlp hx ?_) ?_
        · rw [slotOf, if_pos (by omega)]
        · rintro x' s ⟨hx', rfl⟩
          exact Program.wlp_pure _ ⟨rfl, hx', hlt⟩
    · rintro x s ⟨rfl, hx, hle⟩
      have hm : min nDirect (blocksOf (s.inode n).size.toNat) = 0 + nDirect := by omega
      exact ⟨rfl, by rwa [hm]⟩
  · rintro x s ⟨rfl, hx⟩
    dsimp only
    by_cases hbig : nDirect < blocksOf (s.inode n).size.toNat
    · rw [min_eq_left hbig.le] at hx
      rw [if_pos (hx.lt_iff.mpr hbig)]
      refine Program.wlp_bind _ (readBlock_wlp ?_)
      refine Program.wlp_seq exec (P := fun x s' => s' = s ∧
        CopiedBlocks s (s.inode n) ind (blocksOf (s.inode n).size.toNat) x) ?_ ?_
      · refine Program.wlp_loop exec (fun i x s' => s' = s ∧
          CopiedBlocks s (s.inode n) ind (nDirect + i) x ∧
          nDirect + i < blocksOf (s.inode n).size.toNat) ?_ ?_ ?_
        · exact ⟨rfl, hx, hbig⟩
        · rintro i x s - - ⟨rfl, hx, hlt⟩
          refine Program.wlp_seq _ (copyBlock_wlp hx ?_) ?_
          · rw [slotOf, if_neg (by omega), Nat.add_sub_cancel_left]
          · rintro x' s ⟨hx', rfl⟩
            split_ifs with hs
            · exact Program.wlp_pure _ ⟨rfl, hx', hx'.lt_iff.mp hs⟩
            · have hm : blocksOf (s.inode n).size.toNat = nDirect + i + 1 := by
                rw [hx'.lt_iff] at hs
                omega
              exact Program.wlp_pure _ ⟨rfl, by rwa [hm]⟩
        · rintro x _ ⟨-, -, hlt⟩
          simp only [maxFile] at hblocks
          omega
      · rintro x' s ⟨rfl, hx'⟩
        exact hfinish x' _ hx' le_rfl
    · rw [min_eq_right (by omega)] at hx
      have hs : ¬ x.readSize < (s.inode n).size.toNat := by
        rw [hx.lt_iff]
        omega
      rw [if_neg hs]
      exact hfinish x _ hx le_rfl

end ReadFile

end Yfs.Store
