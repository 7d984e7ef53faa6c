import Yfs.Effect.Relational
import Yfs.Store.Containment
import Yfs.Store.FullWrite

/-! Two servers run side by side on files that differ in their bytes only. -/
namespace Yfs.Store
open Effect

/-- What a command shows to an observer of the block layer: no contents. -/
inductive Access where
  | find
  | mark (which : BlockId)
  | clear (which : BlockId)
  | read (id : BlockId)
  | write (id : BlockId)

def Cmd.access : Cmd → Access
  | .find => .find
  | .mark w => .mark w
  | .clear w => .clear w
  | .readBlock id => .read id
  | .writeBlock id _ => .write id

/-- The same inodes, and the same block numbers in the slots that are in use. -/
structure SameSlots (s₀ s : BlockManager) : Prop where
  inode : SameInodes s₀ s
  slot : ∀ m, s₀.Live m → ∀ p : Pos, p.InUse (s₀.blocks m) → s.slot m p = s₀.slot m p

/-- Two states with the same bitmap and the same files up to their bytes. -/
structure Alike (s s' : BlockManager) : Prop where
  bitmap : s.blockBitmap = s'.blockBitmap
  slots : SameSlots s s'

/-- Two programs whose accesses are the same. -/
abbrev Pair {α α' : Type} (p : Prog α) (p' : Prog α')
    (Q : α → α' → BlockManager → BlockManager → Prop) (s s' : BlockManager) : Prop :=
  p.Lockstep exec FindsClear Cmd.access p' Q s s'

section Rules

variable {s s' : BlockManager} {n : ℕ} {junk junk' : Junk}

theorem allocBlock_pair {Q : BlockId → BlockId → BlockManager → BlockManager → Prop}
    (hb : s.blockBitmap = s'.blockBitmap)
    (h : FindsClear .find s → Q s.blockBitmap.find s.blockBitmap.find s.alloc s'.alloc) :
    Pair allocBlock allocBlock Q s s' := by
  have hf : s'.blockBitmap.find = s.blockBitmap.find := by rw [hb]
  intro ha
  refine ⟨?_, ?_⟩
  · change [Access.find, .mark s.blockBitmap.find] = [Access.find, .mark s'.blockBitmap.find]
    rw [hf]
  · change Q s.blockBitmap.find s'.blockBitmap.find s.alloc s'.alloc
    rw [hf]
    exact h ha.1

theorem freeBlock_pair {Q : Unit → Unit → BlockManager → BlockManager → Prop} {b : BlockId}
    (h : Q () () { s with blockBitmap := s.blockBitmap.clear b }
      { s' with blockBitmap := s'.blockBitmap.clear b }) :
    Pair (freeBlock b) (freeBlock b) Q s s' := fun _ => ⟨rfl, h⟩

theorem readBlock_pair {Q : Block → Block → BlockManager → BlockManager → Prop} {b : BlockId}
    {buf buf' : Block}
    (h : Q ((s.d.readBlock b).getD buf) ((s'.d.readBlock b).getD buf') s s') :
    Pair (readBlock b buf) (readBlock b buf') Q s s' := fun _ => ⟨rfl, h⟩

theorem writeBlock_pair {Q : Unit → Unit → BlockManager → BlockManager → Prop} {b : BlockId}
    {buf buf' : Block} (h : Q () () (s.write b buf) (s'.write b buf')) :
    Pair (writeBlock b buf) (writeBlock b buf') Q s s' := fun _ => ⟨rfl, h⟩

theorem getInode_trace (junk : Junk) (s : BlockManager) (hn : n < inodeNum) :
    (getInode junk n).trace exec s = [.readBlock (iblock n sb.nblocks)] := by
  rw [getInode, if_neg (Nat.not_le.mpr hn), Program.trace_bind]
  split_ifs <;> rfl

/-- Both get the same inode structure, if any. -/
theorem getInode_pair {Q : Option Inode → Option Inode → BlockManager → BlockManager → Prop}
    (hs : SameInodes s s') (hdead : ¬ s.Live n → Q none none s s')
    (hlive : s.Live n → Q (some (s.inode n)) (some (s.inode n)) s s') :
    Pair (getInode junk n) (getInode junk' n) Q s s' := by
  by_cases hn : n < inodeNum
  · intro _
    rw [getInode_trace junk s hn, getInode_trace junk' s' hn, getInode_run junk s hn,
      getInode_run junk' s' hn]
    refine ⟨rfl, ?_⟩
    dsimp only [BlockManager.getInode]
    rw [hs n hn]
    split_ifs with h0
    · exact hdead fun hl => hl.2 h0
    · exact hlive ⟨hn, h0⟩
  · rw [getInode_of_le (Nat.not_lt.mp hn), getInode_of_le (Nat.not_lt.mp hn)]
    exact Program.lockstep_pure _ (hdead fun hl => hn hl.1)

theorem putInode_pair {Q : Unit → Unit → BlockManager → BlockManager → Prop} {ino ino' : Inode}
    (hn : n < inodeNum) (h : Q () () (s.putCell n ino) (s'.putCell n ino')) :
    Pair (putInode junk n ino) (putInode junk' n ino') Q s s' := by
  intro _
  refine ⟨rfl, ?_⟩
  rw [putInode_run junk s hn, putInode_run junk' s' hn]
  exact h

end Rules

section Slots

variable {s₀ s s' : BlockManager} {n : ℕ} {b : BlockId} {buf buf' : Block} {ino : Inode}

theorem IsData.not_table (h : IsData b) : ¬ IsTable b := fun ht => Nat.not_lt.mpr h.1 ht.2

theorem SameSlots.live (h : SameSlots s s') : s'.Live n ↔ s.Live n := by
  unfold BlockManager.Live
  constructor
  · intro hl
    refine ⟨hl.1, ?_⟩
    rw [← h.inode n hl.1]
    exact hl.2
  · intro hl
    refine ⟨hl.1, ?_⟩
    rw [h.inode n hl.1]
    exact hl.2

theorem SameSlots.refl (s : BlockManager) : SameSlots s s := ⟨fun _ _ => rfl, fun _ _ _ _ => rfl⟩

/-- A slot in use depends on the inode and, in a large file, on the indirect block. -/
theorem slot_congr {m : ℕ} {p : Pos} (hi : s'.inode m = s.inode m)
    (hd : nDirect < s.blocks m → s'.d ((s.inode m).slot nDirect).toNat =
      s.d ((s.inode m).slot nDirect).toNat)
    (hp : p.InUse (s.blocks m)) : s'.slot m p = s.slot m p := by
  rw [BlockManager.slot, BlockManager.slot, hi]
  by_cases hbig : nDirect < s.blocks m
  · rw [hd hbig]
  · exact slotOf_congr_ind hp (Nat.not_lt.mp hbig) _ _ _

theorem SameSlots.write (h : SameSlots s₀ s) (hb : ¬ IsTable b)
    (hne : ∀ m, s₀.Live m → nDirect < s₀.blocks m → b ≠ s₀.slot m .indirect) :
    SameSlots s₀ (s.write b buf) := by
  refine ⟨h.inode.write hb, fun m hl p hp => ?_⟩
  have hinode := h.inode m hl.1
  have hblocks : s.blocks m = s₀.blocks m := by rw [BlockManager.blocks, hinode]; rfl
  rw [← h.slot m hl p hp]
  apply slot_congr
  · exact inode_write hb hl.1
  · intro hbig
    rw [hinode, BlockManager.write_d_of_ne]
    intro he
    rw [hblocks] at hbig
    exact hne m hl hbig (UInt32.toNat_inj.mp he.symm)
  · rwa [hblocks]

/-- Replacing the cell of one inum leaves the slots of the others. -/
theorem slot_putCell {m : ℕ} {p : Pos} (hn : n < inodeNum) (hm : m < inodeNum) (hne : m ≠ n)
    (hd : nDirect < s.blocks m → IsData (s.slot m .indirect)) (hp : p.InUse (s.blocks m)) :
    (s.putCell n ino).slot m p = s.slot m p := by
  apply slot_congr
  · rw [BlockManager.inode_putCell hn hm, if_neg hne]
  · intro hbig
    apply BlockManager.write_d_of_ne
    intro he
    have hdata := hd hbig
    have hslot : s.slot m .indirect = iblock n sb.nblocks := UInt32.toNat_inj.mp he
    rw [hslot] at hdata
    exact iblock_not_data hn hdata
  · exact hp

/-- Two states become alike when both put the same inode into the one cell in which they
may differ. -/
theorem alike_putCell (hn : n < inodeNum) (hb : s.blockBitmap = s'.blockBitmap)
    (hi : ∀ m < inodeNum, m ≠ n → s'.inode m = s.inode m)
    (hs : ∀ m, m ≠ n → s.Live m → ∀ p : Pos, p.InUse (s.blocks m) → s'.slot m p = s.slot m p)
    (hdata : ∀ m, m ≠ n → s.Live m → nDirect < s.blocks m → IsData (s.slot m .indirect))
    (hown : ino.type ≠ 0 → nDirect < (blockCount ino.size).toNat → IsData (ino.slot nDirect) ∧
      ∀ p : Pos, p.InUse (blockCount ino.size).toNat →
        slotOf ino (s'.d (ino.slot nDirect).toNat) p =
          slotOf ino (s.d (ino.slot nDirect).toNat) p) :
    Alike (s.putCell n ino) (s'.putCell n ino) := by
  refine ⟨hb, fun m hm => ?_, fun m hl p hp => ?_⟩
  · rw [BlockManager.inode_putCell hn hm, BlockManager.inode_putCell hn hm]
    split_ifs with he
    · rfl
    · exact hi m hm he
  · obtain rfl | hne := eq_or_ne m n
    · have htype := hl.2
      rw [BlockManager.blocks, BlockManager.inode_putCell_self hn] at hp
      rw [BlockManager.inode_putCell_self hn] at htype
      rw [BlockManager.slot, BlockManager.slot, BlockManager.inode_putCell_self hn,
        BlockManager.inode_putCell_self hn]
      by_cases hbig : nDirect < (blockCount ino.size).toNat
      · obtain ⟨hd, heq⟩ := hown htype hbig
        have hdne : (ino.slot nDirect).toNat ≠ (iblock m sb.nblocks).toNat := by
          intro he
          rw [UInt32.toNat_inj.mp he] at hd
          exact iblock_not_data hn hd
        rw [BlockManager.putCell, BlockManager.putCell, BlockManager.write_d_of_ne hdne,
          BlockManager.write_d_of_ne hdne]
        exact heq p hp
      · exact slotOf_congr_ind hp (Nat.not_lt.mp hbig) _ _ _
    · have hinode : (s.putCell n ino).inode m = s.inode m := by
        rw [BlockManager.inode_putCell hn hl.1, if_neg hne]
      have hlive : s.Live m := by
        refine ⟨hl.1, ?_⟩
        rw [← hinode]
        exact hl.2
      rw [BlockManager.blocks, hinode] at hp
      have hblocks : s'.blocks m = s.blocks m := by
        rw [BlockManager.blocks, hi m hl.1 hne]
        rfl
      rw [slot_putCell hn hl.1 hne (hdata m hne hlive) hp, slot_putCell hn hl.1 hne,
        hs m hne hlive p hp]
      · rw [hblocks]
        intro hbig
        rw [hs m hne hlive .indirect hbig]
        exact hdata m hne hlive hbig
      · rwa [hblocks]

end Slots

end Yfs.Store
