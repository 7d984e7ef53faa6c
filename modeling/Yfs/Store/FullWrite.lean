import Yfs.Store.Sequential

/-! A write of exactly `maxFile` blocks. No round of its last loop has the index at which
the indirect block is written out, so that block stays on disk what it was. -/
namespace Yfs.Store
open Effect

/-- The reserved blocks are marked, and the bitmap has a bit for each block. -/
structure Guarded (s : BlockManager) : Prop where
  numBits : s.blockBitmap.numBits.toNat = blockNum
  reserved : ∀ b : BlockId, b.toNat < firstData → s.blockBitmap.test b = true

/-- What is marked in `s₀` is still marked and has kept its contents. -/
structure Keeps (s₀ s : BlockManager) : Prop where
  guarded : Guarded s
  marked : ∀ b, s₀.blockBitmap.test b = true → s.blockBitmap.test b = true
  contents : ∀ b, s₀.blockBitmap.test b = true → s.d b.toNat = s₀.d b.toNat

section Guarded

variable {s₀ s : BlockManager} {b : BlockId} {buf : Block}

theorem Guarded.find (hg : Guarded s) (hc : FindsClear .find s) :
    IsData s.blockBitmap.find ∧ s.blockBitmap.test s.blockBitmap.find = false := by
  obtain ⟨hlt, ht, -⟩ := Bitmap.find_spec _ (hc rfl)
  refine ⟨⟨?_, ?_⟩, ht⟩
  · by_contra hlo
    rw [hg.reserved _ (Nat.not_le.mp hlo)] at ht
    cases ht
  · rw [← hg.numBits]
    exact hlt

theorem test_alloc (hlt : s.blockBitmap.find < s.blockBitmap.numBits) :
    s.alloc.blockBitmap.test b =
      if b = s.blockBitmap.find then true else s.blockBitmap.test b := by
  rw [BlockManager.alloc, Bitmap.test_mark, decide_eq_true hlt]

theorem Guarded.alloc (hg : Guarded s) : Guarded s.alloc := by
  constructor
  · rw [BlockManager.alloc, Bitmap.numBits_mark]
    exact hg.numBits
  · intro b hb
    have hlt : b < s.blockBitmap.numBits := by
      rw [UInt32.lt_iff_toNat_lt, hg.numBits]
      exact hb.trans (by decide)
    rw [BlockManager.alloc, Bitmap.test_mark]
    split_ifs with he
    · rw [← he]
      exact decide_eq_true hlt
    · exact hg.reserved b hb

theorem Guarded.test_alloc_find (hg : Guarded s) (hc : FindsClear .find s) :
    s.alloc.blockBitmap.test s.blockBitmap.find = true := by
  have hlt : s.blockBitmap.find < s.blockBitmap.numBits := by
    rw [UInt32.lt_iff_toNat_lt, hg.numBits]
    exact (hg.find hc).1.2
  rw [test_alloc hlt, if_pos rfl]

theorem Keeps.refl (hg : Guarded s) : Keeps s s := ⟨hg, fun _ h => h, fun _ _ => rfl⟩

theorem Keeps.trans {s₁ : BlockManager} (h : Keeps s₀ s₁) (h' : Keeps s₁ s) : Keeps s₀ s where
  guarded := h'.guarded
  marked := fun b hb => h'.marked b (h.marked b hb)
  contents := fun b hb => (h'.contents b (h.marked b hb)).trans (h.contents b hb)

theorem test_alloc_of_marked (hm : s.blockBitmap.test b = true) :
    s.alloc.blockBitmap.test b = true := by
  have hlt : b < s.blockBitmap.numBits := by
    by_contra hle
    rw [Bitmap.test_of_le _ (Nat.not_lt.mp hle)] at hm
    cases hm
  rw [BlockManager.alloc, Bitmap.test_mark, hm]
  split_ifs with he
  · rw [← he]
    exact decide_eq_true hlt
  · rfl

theorem Keeps.alloc (h : Keeps s₀ s) : Keeps s₀ s.alloc :=
  ⟨h.guarded.alloc, fun b hb => test_alloc_of_marked (h.marked b hb), h.contents⟩

theorem Keeps.write (h : Keeps s₀ s) (hb : s₀.blockBitmap.test b = false) :
    Keeps s₀ (s.write b buf) := by
  refine ⟨⟨h.guarded.numBits, h.guarded.reserved⟩, h.marked, fun b' hb' => ?_⟩
  rw [BlockManager.write_d_of_ne, h.contents b' hb']
  intro he
  rw [UInt32.toNat_inj.mp he, hb] at hb'
  cases hb'

/-- What is found is not among the blocks kept. -/
theorem Keeps.find_unmarked (h : Keeps s₀ s) (hc : FindsClear .find s) :
    s₀.blockBitmap.test s.blockBitmap.find = false := by
  by_contra hb
  have hm := h.marked _ (by simpa using hb)
  rw [(h.guarded.find hc).2] at hm
  cases hm

end Guarded

section FullWrite

variable {s : BlockManager} {buf : ℕ → UInt8} {n orig : ℕ} {ino : Inode} {junk : Junk}

/-- The loop over the indirect blocks only allocates and fills new blocks. -/
theorem writeIndirect_full_wlp {ind : Block} (hg : Guarded s) (horig : orig ≤ nDirect) :
    (Program.loop (writeIndirect buf orig maxFile ino) nIndirect nDirect ind).wlp exec
      FindsClear (fun _ s' => Keeps s s') s := by
  refine Program.wlp_loop exec (fun _ _ s' => Keeps s s') (Keeps.refl hg) ?_ fun _ _ h => h
  intro i ind s' hi hlt h
  have hmax : i < maxFile := by simpa only [maxFile] using hlt
  unfold writeIndirect
  rw [if_neg (by omega), if_pos hmax]
  refine Program.wlp_bind _ (allocBlock_wlp fun hc => ?_)
  have hentry : (ind.setEntry (i - nDirect) s'.blockBitmap.find).entry (i - nDirect) =
      s'.blockBitmap.find := by
    rw [Block.entry_setEntry _ (by simp only [nIndirect, nDirect] at *; omega), if_pos rfl]
  dsimp only
  rw [hentry]
  refine Program.wlp_bind _ (writeBlock_wlp (Program.wlp_pure _ ?_))
  exact h.alloc.write (h.find_unmarked hc)

/-- From a file of direct blocks only to one of `maxFile` blocks: the indirect block is
a block that was free, and nothing is ever written to it. -/
theorem writeFile_full_wlp {size : Int32} {P : Inode → BlockManager → Prop}
    {Q : Unit → BlockManager → Prop} (hn : n < inodeNum) (hlive : (s.inode n).type ≠ 0)
    (horig : s.blocks n ≤ nDirect) (hcur : (blockCountInt size).toNat = maxFile)
    (hdirect : (Program.loop (writeDirect buf (s.blocks n) maxFile) nDirect 0
      (s.inode n)).wlp exec FindsClear P s)
    (hP : ∀ ino s₁, P ino s₁ → Guarded s₁ ∧ (FindsClear .find s₁ → ∀ s₂, Keeps s₁.alloc s₂ →
      Q () (s₂.putCell n
        { ino.setSlot nDirect s₁.blockBitmap.find with size := size.toUInt32 }))) :
    (writeFile junk n buf size).wlp exec FindsClear Q s := by
  unfold writeFile
  refine Program.wlp_bind _ (getInode_wlp hn ?_)
  rw [BlockManager.getInode, if_neg hlive]
  simp only [hcur]
  refine Program.wlp_seq _ hdirect fun ino s₁ h => ?_
  obtain ⟨hg, hQ⟩ := hP ino s₁ h
  rw [if_pos (by decide : nDirect < maxFile)]
  have horig' : ¬ nDirect < (blockCount (s.inode n).size).toNat := Nat.not_lt.mpr horig
  unfold openIndirect
  rw [if_neg horig']
  refine Program.wlp_bind _ (Program.wlp_bind _ (allocBlock_wlp fun hc => ?_))
  refine Program.wlp_pure _ ?_
  refine Program.wlp_seq _ (writeIndirect_full_wlp hg.alloc horig) fun ind s₂ h₂ => ?_
  exact putInode_wlp hn (hQ hc s₂ h₂)

end FullWrite

end Yfs.Store
