import Yfs.Store.Serve

/-! How far a request can reach when nothing is known about the free blocks: as long as
no block of the inode table is taken for a data block, the table stays what it should be. -/
namespace Yfs.Store
open Effect

/-- The blocks of the inode table. -/
def IsTable (b : BlockId) : Prop := 11 ≤ b.toNat ∧ b.toNat < firstData

/-- A block of the disk outside the inode table. -/
def Fine (b : BlockId) : Prop := ¬ IsTable b ∧ b.toNat < blockNum

structure TableMarked (s : BlockManager) : Prop where
  numBits : s.blockBitmap.numBits.toNat = blockNum
  marked : ∀ b, IsTable b → s.blockBitmap.test b = true

def SameInodes (s₀ s : BlockManager) : Prop := ∀ m < inodeNum, s.inode m = s₀.inode m

/-- Every stored size is representable, and what a live inum has in its inode are blocks
outside the table. -/
structure Contained (s : BlockManager) : Prop where
  table : TableMarked s
  size : ∀ n, s.Live n → (s.inode n).size.toNat ≤ maxFile * blockSize
  slots : ∀ n, s.Live n → ∀ j ≤ nDirect, j < s.blocks n → Fine ((s.inode n).slot j)

section Table

variable {s₀ s : BlockManager} {b : BlockId} {buf : Block} {n : ℕ}

theorem isTable_iblock (hn : n < inodeNum) : IsTable (iblock n sb.nblocks) := by
  unfold IsTable
  rw [iblock_toNat hn]
  simp only [inodeNum] at hn
  simp only [firstData]
  omega

theorem inode_write (hb : ¬ IsTable b) (hn : n < inodeNum) :
    (s.write b buf).inode n = s.inode n := by
  apply BlockManager.inode_write_of_ne
  rintro rfl
  exact hb (isTable_iblock hn)

theorem SameInodes.write (h : SameInodes s₀ s) (hb : ¬ IsTable b) :
    SameInodes s₀ (s.write b buf) := fun m hm => (inode_write hb hm).trans (h m hm)

theorem TableMarked.write (h : TableMarked s) : TableMarked (s.write b buf) :=
  ⟨h.numBits, h.marked⟩

/-- `find` never returns a block of the table, not even when the disk is full. -/
theorem TableMarked.find (h : TableMarked s) : Fine s.blockBitmap.find := by
  by_cases hc : ∃ w, w < s.blockBitmap.numBits ∧ s.blockBitmap.test w = false
  · obtain ⟨hlt, ht, -⟩ := Bitmap.find_spec _ hc
    constructor
    · intro htable
      rw [h.marked _ htable] at ht
      cases ht
    · rw [← h.numBits]
      exact hlt
  · have hfull : s.blockBitmap.find = 0 := by
      apply Bitmap.find_full
      intro w hw
      by_contra ht
      exact hc ⟨w, hw, by simpa using ht⟩
    rw [hfull]
    constructor
    · intro htable
      exact absurd htable.1 (by decide)
    · decide

theorem TableMarked.alloc (h : TableMarked s) : TableMarked s.alloc := by
  constructor
  · rw [BlockManager.alloc, Bitmap.numBits_mark]
    exact h.numBits
  · intro b hb
    have hlt : b < s.blockBitmap.numBits := by
      rw [UInt32.lt_iff_toNat_lt, h.numBits]
      exact hb.2.trans (by decide)
    rw [BlockManager.alloc, Bitmap.test_mark, h.marked b hb]
    split_ifs with he
    · rw [← he]
      exact decide_eq_true hlt
    · rfl

theorem TableMarked.clear (h : TableMarked s) (hb : ¬ IsTable b) :
    TableMarked { s with blockBitmap := s.blockBitmap.clear b } := by
  constructor
  · rw [Bitmap.numBits_clear]
    exact h.numBits
  · intro b' hb'
    rw [Bitmap.test_clear, if_neg, h.marked b' hb']
    rintro rfl
    exact hb hb'

end Table

section WriteFile

variable {s₀ : BlockManager} {buf : ℕ → UInt8} {n orig cur : ℕ} {junk : Junk}

/-- The loop over the direct blocks: every slot it leaves in use is fine. -/
structure DirectState (s₀ : BlockManager) (n orig : ℕ) (k : Prop) (i : ℕ) (ino : Inode)
    (s : BlockManager) : Prop where
  table : TableMarked s
  same : SameInodes s₀ s
  blocks : ∃ blocks, ino = { s₀.inode n with blocks := blocks }
  fine : ∀ j < nDirect, j < max orig i → Fine (ino.slot j)
  indirect : ino.slot nDirect = (s₀.inode n).slot nDirect
  kept : k → s.d ((s₀.inode n).slot nDirect).toNat =
    s₀.d ((s₀.inode n).slot nDirect).toNat ∧ ∀ j < nDirect, ino.slot j = (s₀.inode n).slot j

/-- One round that writes: the slot it writes to is fine before it or is found now. -/
theorem DirectState.round {k : Prop} (hk : k → nDirect < orig)
    (happart : k → ∀ j < nDirect, (s₀.inode n).slot j ≠ (s₀.inode n).slot nDirect) {i : ℕ}
    {ino : Inode} {s : BlockManager} (hi : i < nDirect) (hcur : i < cur)
    (h : DirectState s₀ n orig k i ino s) {Q : Inode → BlockManager → Prop} :
    (writeDirect buf orig cur i ino).wlp exec (fun _ _ => True)
      (Program.Round (DirectState s₀ n orig k (i + 1)) Q) s := by
  unfold writeDirect
  by_cases ho : i < orig
  · rw [if_pos ⟨hcur, ho⟩]
    have hfine := h.fine i hi (by omega)
    refine Program.wlp_bind _ (writeBlock_wlp (Program.wlp_pure _ ?_))
    refine ⟨h.table.write, h.same.write hfine.1, h.blocks, fun j hj hlt => ?_, h.indirect,
      fun hbig => ?_⟩
    · exact h.fine j hj (by omega)
    · obtain ⟨hd, hs⟩ := h.kept hbig
      refine ⟨?_, hs⟩
      rw [BlockManager.write_d_of_ne, hd]
      intro he
      rw [hs i hi] at he
      exact happart hbig i hi (UInt32.toNat_inj.mp he.symm)
  · rw [if_neg (fun hlt => ho hlt.2), if_pos hcur]
    refine Program.wlp_bind _ (allocBlock_wlp fun _ => ?_)
    have hfine := h.table.find
    have hslot : ∀ j, (ino.setSlot i s.blockBitmap.find).slot j =
        if j = i then s.blockBitmap.find else ino.slot j :=
      Inode.slot_setSlot ino (by omega) _
    dsimp only
    rw [hslot i, if_pos rfl]
    refine Program.wlp_bind _ (writeBlock_wlp (Program.wlp_pure _ ?_))
    refine ⟨h.table.alloc.write, ?_, ?_, fun j hj hlt => ?_, ?_, fun hbig => ?_⟩
    · have hsame : SameInodes s₀ s.alloc := h.same
      exact hsame.write hfine.1
    · obtain ⟨blocks, rfl⟩ := h.blocks
      exact ⟨_, rfl⟩
    · rw [hslot]
      split_ifs with hji
      · exact hfine
      · exact h.fine j hj (by omega)
    · rw [hslot, if_neg (by omega)]
      exact h.indirect
    · have hlt := hk hbig
      omega

theorem DirectState.start (hc : Contained s₀) (hlive : s₀.Live n) (horig : orig = s₀.blocks n)
    (k : Prop) : DirectState s₀ n orig k 0 (s₀.inode n) s₀ := by
  refine ⟨hc.table, fun _ _ => rfl, ⟨_, rfl⟩, fun j hj hlt => ?_, rfl,
    fun _ => ⟨rfl, fun _ _ => rfl⟩⟩
  exact hc.slots n hlive j hj.le (by omega)

theorem writeDirect_contained (hc : Contained s₀) (hlive : s₀.Live n)
    (horig : orig = s₀.blocks n) {k : Prop} (hk : k → nDirect < orig)
    (happart : k → ∀ j < nDirect, (s₀.inode n).slot j ≠ (s₀.inode n).slot nDirect) :
    (Program.loop (writeDirect buf orig cur) nDirect 0 (s₀.inode n)).wlp exec
      (fun _ _ => True) (fun ino s => DirectState s₀ n orig k (min nDirect cur) ino s) s₀ := by
  refine Program.wlp_loop exec (fun i ino s => DirectState s₀ n orig k i ino s ∧ i ≤ cur)
    ⟨DirectState.start hc hlive horig k, Nat.zero_le _⟩ ?_ ?_
  · intro i ino s _ hi ⟨h, hle⟩
    have hi' : i < nDirect := by omega
    by_cases hcur : i < cur
    · refine Program.wlp_mono exec (h.round hk happart hi' hcur (Q := fun _ _ => False)) ?_
      intro r s' hr
      cases r with
      | done ino' => exact hr.elim
      | yield ino' => exact ⟨hr, hcur⟩
    · have hm : min nDirect cur = i := by omega
      unfold writeDirect
      rw [if_neg (fun hlt => hcur hlt.1), if_neg hcur]
      exact Program.wlp_pure _ (by rw [hm]; exact h)
  · intro ino s ⟨h, hle⟩
    have hm : min nDirect cur = 0 + nDirect := by omega
    rw [hm]
    exact h

/-- The loop over the indirect blocks: what it writes to is no block of the table. -/
theorem writeIndirect_contained {s : BlockManager} {ino : Inode} {ind : Block}
    (ht : TableMarked s) (hs : SameInodes s₀ s) (hslot : Fine (ino.slot nDirect))
    (hentries : ∀ i, nDirect ≤ i → i < cur → i < orig → ¬ IsTable (ind.entry (i - nDirect))) :
    (Program.loop (writeIndirect buf orig cur ino) nIndirect nDirect ind).wlp exec
      (fun _ _ => True) (fun _ s' => TableMarked s' ∧ SameInodes s₀ s') s := by
  refine Program.wlp_loop exec (fun i ind' s' => TableMarked s' ∧ SameInodes s₀ s' ∧
    ∀ j, nDirect ≤ j → j < cur → j < orig → ¬ IsTable (ind'.entry (j - nDirect)))
    ⟨ht, hs, hentries⟩ ?_ ?_
  · intro i ind' s' hi hlt ⟨ht', hs', he⟩
    unfold writeIndirect
    split_ifs with h1 h2
    · refine Program.wlp_bind _ (writeBlock_wlp (Program.wlp_pure _ ?_))
      exact ⟨ht'.write, hs'.write (he i hi h1.1 h1.2), he⟩
    · refine Program.wlp_bind _ (allocBlock_wlp fun _ => ?_)
      have hlt' : i - nDirect < nIndirect := by omega
      have hentry : ∀ k, (ind'.setEntry (i - nDirect) s'.blockBitmap.find).entry k =
          if k = i - nDirect then s'.blockBitmap.find else ind'.entry k :=
        Block.entry_setEntry ind' hlt' _
      dsimp only
      rw [hentry, if_pos rfl]
      refine Program.wlp_bind _ (writeBlock_wlp (Program.wlp_pure _ ⟨ht'.alloc.write, ?_, ?_⟩))
      · have hsame : SameInodes s₀ s'.alloc := hs'
        exact hsame.write ht'.find.1
      · intro j hj hjc hjo
        rw [hentry]
        split_ifs
        · exact ht'.find.1
        · exact he j hj hjc hjo
    · refine Program.wlp_bind _ (writeBlock_wlp (Program.wlp_pure _ ?_))
      exact ⟨ht'.write, hs'.write hslot.1⟩
  · intro _ s' ⟨ht', hs', _⟩
    exact ⟨ht', hs'⟩

/-- From the same table with one cell replaced. -/
theorem Contained.putCell {s : BlockManager} {ino : Inode} (hc : Contained s₀) (ht : TableMarked s)
    (hs : SameInodes s₀ s) (hn : n < inodeNum)
    (hino : ino.type ≠ 0 → ino.size.toNat ≤ maxFile * blockSize ∧
      ∀ j ≤ nDirect, j < (blockCount ino.size).toNat → Fine (ino.slot j)) :
    Contained (s.putCell n ino) := by
  have hother : ∀ m < inodeNum, m ≠ n → (s.putCell n ino).inode m = s₀.inode m := by
    intro m hm hne
    rw [BlockManager.inode_putCell hn hm, if_neg hne, hs m hm]
  have hself : (s.putCell n ino).inode n = ino := BlockManager.inode_putCell_self hn
  have hlive : ∀ m, m ≠ n → (s.putCell n ino).Live m → s₀.Live m := by
    intro m hne hl
    refine ⟨hl.1, ?_⟩
    rw [← hother m hl.1 hne]
    exact hl.2
  refine ⟨ht.write, fun m hm => ?_, fun m hm => ?_⟩
  · obtain rfl | hne := eq_or_ne m n
    · have htype := hm.2
      rw [hself] at htype ⊢
      exact (hino htype).1
    · rw [hother m hm.1 hne]
      exact hc.size m (hlive m hne hm)
  · unfold BlockManager.blocks
    obtain rfl | hne := eq_or_ne m n
    · have htype := hm.2
      rw [hself] at htype ⊢
      exact (hino htype).2
    · rw [hother m hm.1 hne]
      exact hc.slots m (hlive m hne hm)

/-- The indirect block of a live inum is apart from its direct blocks, and those of its
first `cur` entries that are in use are no blocks of the table. -/
structure BlockManager.IndirectFine (s : BlockManager) (n cur : ℕ) : Prop where
  apart : ∀ j < nDirect, (s.inode n).slot j ≠ (s.inode n).slot nDirect
  entries : ∀ j, nDirect ≤ j → j < cur → j < s.blocks n → ¬ IsTable (s.slot n (.data j))

/-- What a put leaves of the other inodes, and what it makes of its own. -/
structure PutInode (s₀ : BlockManager) (n size : ℕ) (s : BlockManager) : Prop where
  contained : Contained s
  other : ∀ m < inodeNum, m ≠ n → s.inode m = s₀.inode m
  type_eq : (s.inode n).type = (s₀.inode n).type
  size_eq : (s.inode n).size.toNat = size

theorem writeFile_contained {size : ℕ} (hc : Contained s₀) (hlive : s₀.Live n)
    (hsize : size ≤ maxFile * blockSize)
    (hfine : nDirect < s₀.blocks n → nDirect < blocksOf size →
      s₀.IndirectFine n (blocksOf size)) :
    (writeFile junk n buf (Int32.ofNat size)).wlp exec (fun _ _ => True)
      (fun _ s => PutInode s₀ n size s) s₀ := by
  simp only [maxFile, nDirect, nIndirect, blockSize] at hsize
  have hcur : (blockCountInt (Int32.ofNat size)).toNat = blocksOf size :=
    blockCountInt_ofNat (by omega)
  have hval : (Int32.ofNat size).toUInt32.toNat = size := toUInt32_ofNat_toNat (by omega)
  have hcount : (blockCount (Int32.ofNat size).toUInt32).toNat = blocksOf size := by
    rw [blockCount_toNat (by omega), hval]
  have hput : ∀ (ino : Inode) (s : BlockManager), TableMarked s → SameInodes s₀ s →
      (∃ blocks, ino = { s₀.inode n with blocks := blocks }) →
      (∀ j ≤ nDirect, j < blocksOf size → Fine (ino.slot j)) →
      PutInode s₀ n size (s.putCell n { ino with size := (Int32.ofNat size).toUInt32 }) := by
    intro ino s ht hs hblocks hslots
    constructor
    · refine hc.putCell ht hs hlive.1 fun _ => ⟨?_, ?_⟩
      · dsimp only
        rw [hval]
        exact hsize
      · dsimp only
        rw [hcount]
        exact hslots
    · intro m hm hne
      rw [BlockManager.inode_putCell hlive.1 hm, if_neg hne, hs m hm]
    · rw [BlockManager.inode_putCell_self hlive.1]
      obtain ⟨blocks, rfl⟩ := hblocks
      rfl
    · rw [BlockManager.inode_putCell_self hlive.1]
      exact hval
  unfold writeFile
  refine Program.wlp_bind _ (getInode_wlp hlive.1 ?_)
  rw [BlockManager.getInode, if_neg hlive.2]
  simp only [hcur]
  refine Program.wlp_seq _ (writeDirect_contained (k := nDirect < s₀.blocks n ∧
    nDirect < blocksOf size) hc hlive rfl And.left fun hk => (hfine hk.1 hk.2).apart) ?_
  intro ino s h
  by_cases hbig : nDirect < blocksOf size
  · rw [if_pos hbig]
    have hdirect : ∀ j < nDirect, Fine (ino.slot j) := fun j hj => h.fine j hj (by omega)
    unfold openIndirect
    split_ifs with ho
    · have ho' : nDirect < s₀.blocks n := ho
      have hslot := hc.slots n hlive nDirect le_rfl ho'
      obtain ⟨hd, -⟩ := h.kept ⟨ho', hbig⟩
      refine Program.wlp_bind _ (Program.wlp_bind _ (readBlock_wlp (Program.wlp_pure _ ?_)))
      rw [h.indirect, s.d.readBlock_of_lt hslot.2, Option.getD_some, hd]
      refine Program.wlp_seq _ (writeIndirect_contained h.table h.same
        (by rw [h.indirect]; exact hslot) ?_) ?_
      · intro i hi hic hio
        have hentry := (hfine ho' hbig).entries i hi hic hio
        rwa [BlockManager.slot, slotOf, if_neg (by omega)] at hentry
      · intro _ s' h'
        obtain ⟨ht, hs⟩ := h'
        refine putInode_wlp hlive.1 (hput ino s' ht hs h.blocks fun j hj _ => ?_)
        obtain rfl | hne := eq_or_ne j nDirect
        · rw [h.indirect]
          exact hslot
        · exact hdirect j (by omega)
    · refine Program.wlp_bind _ (Program.wlp_bind _ (allocBlock_wlp fun _ => Program.wlp_pure _ ?_))
      have hslot : ∀ j, (ino.setSlot nDirect s.blockBitmap.find).slot j =
          if j = nDirect then s.blockBitmap.find else ino.slot j :=
        Inode.slot_setSlot ino (Nat.lt_succ_self _) _
      have hsame : SameInodes s₀ s.alloc := h.same
      refine Program.wlp_seq _ (writeIndirect_contained h.table.alloc hsame ?_ ?_) ?_
      · rw [hslot, if_pos rfl]
        exact h.table.find
      · intro i hi _ hio
        exact absurd (lt_of_le_of_lt hi hio) ho
      · intro _ s' h'
        obtain ⟨ht, hs⟩ := h'
        refine putInode_wlp hlive.1 (hput _ s' ht hs ?_ fun j hj _ => ?_)
        · obtain ⟨blocks, rfl⟩ := h.blocks
          exact ⟨_, rfl⟩
        · rw [hslot]
          split_ifs with hj'
          · exact h.table.find
          · exact hdirect j (by omega)
  · rw [if_neg hbig]
    refine putInode_wlp hlive.1 (hput ino s h.table h.same h.blocks fun j hj hlt => ?_)
    exact h.fine j (by omega) (by omega)

end WriteFile

end Yfs.Store
