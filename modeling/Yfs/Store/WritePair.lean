import Yfs.Store.Exhaustion
import Yfs.Store.Lockstep

/-! Two writes of equally long strings to one file, side by side. -/
namespace Yfs.Store
open Effect

section WriteFile

variable {ls : ℕ → Share} {m : Files} {s₀ s₀' s s' : BlockManager} {n orig cur : ℕ}
  {buf buf' : ℕ → UInt8} {b : BlockId} {x x' : Block} {junk junk' : Junk}

theorem Represents.guarded (h : Represents ls m s) : Guarded s :=
  ⟨h.valid.numBits, h.valid.reserved⟩

theorem Represents.slot_marked (h : Represents ls m s) (hl : s.Live n) {p : Pos}
    (hp : p.InUse (s.blocks n)) : s.blockBitmap.test (s.slot n p) = true := by
  obtain ⟨f, hf⟩ := Option.ne_none_iff_exists'.mp (h.live_iff.mp hl)
  rw [h.blocks_eq hf] at hp
  rw [h.slot_eq hf hp]
  obtain ⟨c, hc⟩ := Option.ne_none_iff_exists'.mp ((h.stores hf).inUse p hp)
  exact (h.valid.held n _ c hc).2.1

/-- Two writes to one file have come to the same point. -/
structure InStep (s₀ s s' : BlockManager) : Prop where
  bitmap : s.blockBitmap = s'.blockBitmap
  slots : SameSlots s₀ s
  slots' : SameSlots s₀ s'
  guarded : Guarded s
  marked : ∀ b, s₀.blockBitmap.test b = true → s.blockBitmap.test b = true

/-- The block is no indirect block of a file. -/
def NotIndirect (s₀ : BlockManager) (b : BlockId) : Prop :=
  ∀ k, s₀.Live k → nDirect < s₀.blocks k → b ≠ s₀.slot k .indirect

theorem InStep.write (h : InStep s₀ s s') (hb : IsData b) (hne : NotIndirect s₀ b) :
    InStep s₀ (s.write b x) (s'.write b x') where
  bitmap := h.bitmap
  slots := h.slots.write hb.not_table hne
  slots' := h.slots'.write hb.not_table hne
  guarded := ⟨h.guarded.numBits, h.guarded.reserved⟩
  marked := h.marked

theorem InStep.alloc (h : InStep s₀ s s') : InStep s₀ s.alloc s'.alloc where
  bitmap := by rw [BlockManager.alloc, BlockManager.alloc, h.bitmap]
  slots := ⟨h.slots.inode, h.slots.slot⟩
  slots' := ⟨h.slots'.inode, h.slots'.slot⟩
  guarded := h.guarded.alloc
  marked := fun b hb => test_alloc_of_marked (h.marked b hb)

theorem InStep.find (h : InStep s₀ s s') (hr : Represents ls m s₀) (hc : FindsClear .find s) :
    IsData s.blockBitmap.find ∧ NotIndirect s₀ s.blockBitmap.find := by
  obtain ⟨hdata, hclear⟩ := h.guarded.find hc
  refine ⟨hdata, fun k hl hbig he => ?_⟩
  have hm := h.marked _ (hr.slot_marked (p := .indirect) hl hbig)
  rw [← he, hclear] at hm
  cases hm

theorem Represents.notIndirect (hr : Represents ls m s₀) (hlive : s₀.Live n) {j : ℕ}
    (hj : j < s₀.blocks n) : NotIndirect s₀ (s₀.slot n (.data j)) := by
  intro k hl hbig he
  obtain ⟨-, hp⟩ := hr.separated.inj n k (.data j) .indirect hlive hl hj hbig he
  cases hp

theorem writeDirect_pair (hr : Represents ls m s₀) (hlive : s₀.Live n)
    (horig : orig = s₀.blocks n) (h : InStep s₀ s s') :
    Pair (Program.loop (writeDirect buf orig cur) nDirect 0 (s₀.inode n))
      (Program.loop (writeDirect buf' orig cur) nDirect 0 (s₀.inode n))
      (fun ino ino' s s' => ino' = ino ∧ InStep s₀ s s' ∧
        ino.slot nDirect = (s₀.inode n).slot nDirect ∧ ino.type = (s₀.inode n).type) s s' := by
  refine Program.lockstep_loop exec (fun i ino ino' s s' => ino' = ino ∧ InStep s₀ s s' ∧
    (∀ j, i ≤ j → j ≤ nDirect → ino.slot j = (s₀.inode n).slot j) ∧
    ino.type = (s₀.inode n).type) ⟨rfl, h, fun _ _ _ => rfl, rfl⟩ ?_ ?_
  · rintro i _ ino s s' - hi ⟨rfl, h, hslot, htype⟩
    have hi' : i < nDirect := by omega
    unfold writeDirect
    split_ifs with h1 h2
    · have hown : ino.slot i = s₀.slot n (.data i) := (hslot i le_rfl hi'.le).trans (if_pos hi').symm
      have hin : i < s₀.blocks n := by omega
      rw [hown]
      refine Program.lockstep_bind _ (writeBlock_pair (Program.lockstep_pure _ ?_))
      refine ⟨rfl, h.write ?_ (hr.notIndirect hlive hin), ?_, htype⟩
      · exact hr.slot_data hlive (p := .data i) hin
      · exact fun j hj => hslot j (by omega)
    · refine Program.lockstep_bind _ (allocBlock_pair h.bitmap fun hc => ?_)
      obtain ⟨hdata, hne⟩ := h.find hr hc
      have hset : ∀ j, (ino.setSlot i s.blockBitmap.find).slot j =
          if j = i then s.blockBitmap.find else ino.slot j :=
        Inode.slot_setSlot ino (by omega) _
      dsimp only
      rw [hset i, if_pos rfl]
      refine Program.lockstep_bind _ (writeBlock_pair (Program.lockstep_pure _ ?_))
      refine ⟨rfl, h.alloc.write hdata hne, fun j hj hle => ?_, htype⟩
      rw [hset j, if_neg (by omega)]
      exact hslot j (by omega) hle
    · exact Program.lockstep_pure _ ⟨rfl, h, hslot nDirect hi'.le le_rfl, htype⟩
  · rintro _ ino s s' ⟨rfl, h, hslot, htype⟩
    exact ⟨rfl, h, hslot nDirect (by omega) le_rfl, htype⟩

/-- The words of an indirect block that lead to blocks the file has. -/
def LeadsTo (s₀ : BlockManager) (n orig i : ℕ) (ind : Block) : Prop :=
  ∀ j, i ≤ j → nDirect ≤ j → j < orig → ind.entry (j - nDirect) = s₀.slot n (.data j)

/-- The last loop of a write ends with the indirect block being written. -/
def Ended (s₀ : BlockManager) (cur : ℕ) (b : BlockId) (s s' : BlockManager) : Prop :=
  ∃ s₁ s₁' ind ind', InStep s₀ s₁ s₁' ∧ s = s₁.write b ind ∧ s' = s₁'.write b ind' ∧
    ∀ j, nDirect ≤ j → j < cur → ind'.entry (j - nDirect) = ind.entry (j - nDirect)

theorem writeIndirect_pair (hr : Represents ls m s₀) (hlive : s₀.Live n)
    (horig : orig = s₀.blocks n) (hcur : cur < maxFile) (hbig : nDirect < cur)
    (h : InStep s₀ s s') {ino : Inode} (hx : LeadsTo s₀ n orig nDirect x)
    (hx' : LeadsTo s₀ n orig nDirect x') :
    Pair (Program.loop (writeIndirect buf orig cur ino) nIndirect nDirect x)
      (Program.loop (writeIndirect buf' orig cur ino) nIndirect nDirect x')
      (fun _ _ s s' => Ended s₀ cur (ino.slot nDirect) s s') s s' := by
  refine Program.lockstep_loop exec (fun i ind ind' s s' => InStep s₀ s s' ∧ i ≤ cur ∧
    (∀ j, nDirect ≤ j → j < i → ind'.entry (j - nDirect) = ind.entry (j - nDirect)) ∧
    LeadsTo s₀ n orig i ind ∧ LeadsTo s₀ n orig i ind')
    ⟨h, hbig.le, fun j hj hlt => absurd hlt (Nat.not_lt.mpr hj), hx, hx'⟩ ?_ ?_
  · rintro i ind ind' s s' hi hlt ⟨h, hle, heq, hl, hl'⟩
    unfold writeIndirect
    split_ifs with h1 h2
    · have hin : i < s₀.blocks n := by omega
      rw [hl i le_rfl hi h1.2, hl' i le_rfl hi h1.2]
      refine Program.lockstep_bind _ (writeBlock_pair (Program.lockstep_pure _ ?_))
      refine ⟨h.write ?_ (hr.notIndirect hlive hin), h1.1, fun j hj hji => ?_,
        fun j hj => hl j (by omega), fun j hj => hl' j (by omega)⟩
      · exact hr.slot_data hlive (p := .data i) hin
      · obtain rfl | hne := Nat.eq_or_lt_of_le (Nat.lt_succ_iff.mp hji)
        · rw [hl j le_rfl hj h1.2, hl' j le_rfl hj h1.2]
        · exact heq j hj hne
    · refine Program.lockstep_bind _ (allocBlock_pair h.bitmap fun hc => ?_)
      obtain ⟨hdata, hne⟩ := h.find hr hc
      have hlt' : i - nDirect < nIndirect := by omega
      have hset : ∀ (c : Block) k, (c.setEntry (i - nDirect) s.blockBitmap.find).entry k =
          if k = i - nDirect then s.blockBitmap.find else c.entry k :=
        fun c => Block.entry_setEntry c hlt' _
      dsimp only
      rw [hset ind, hset ind', if_pos rfl, if_pos rfl]
      refine Program.lockstep_bind _ (writeBlock_pair (Program.lockstep_pure _ ?_))
      refine ⟨h.alloc.write hdata hne, h2, fun j hj hji => ?_, fun j hj => ?_, fun j hj => ?_⟩
      · rw [hset, hset]
        split_ifs with hk
        · rfl
        · exact heq j hj (by omega)
      · exact fun _ hlo => absurd hlo (by omega)
      · exact fun _ hlo => absurd hlo (by omega)
    · refine Program.lockstep_bind _ (writeBlock_pair (Program.lockstep_pure _ ?_))
      exact ⟨s, s', ind, ind', h, rfl, rfl, fun j hj hlt => heq j hj (by omega)⟩
  · rintro ind ind' s s' ⟨-, hle, -⟩
    simp only [maxFile] at hcur
    omega

/-- The last steps of a write on a file with direct blocks only. -/
theorem InStep.putCell (h : InStep s₀ s s') (hr : Represents ls m s₀) (hn : n < inodeNum)
    {ino : Inode} (hsmall : ino.type ≠ 0 → (blockCount ino.size).toNat ≤ nDirect) :
    Alike (s.putCell n ino) (s'.putCell n ino) := by
  have hinode : ∀ k < inodeNum, s.inode k = s₀.inode k := h.slots.inode
  have hblocks : ∀ k < inodeNum, s.blocks k = s₀.blocks k := by
    intro k hk
    rw [BlockManager.blocks, hinode k hk]
    rfl
  refine alike_putCell hn h.bitmap ?_ ?_ ?_ ?_
  · intro k hk _
    rw [hinode k hk, h.slots'.inode k hk]
  · intro k _ hl p hp
    have hl₀ := h.slots.live.mp hl
    rw [hblocks k hl.1] at hp
    rw [h.slots.slot k hl₀ p hp, h.slots'.slot k hl₀ p hp]
  · intro k _ hl hbig
    have hl₀ := h.slots.live.mp hl
    rw [hblocks k hl.1] at hbig
    rw [h.slots.slot k hl₀ .indirect hbig]
    exact hr.slot_data hl₀ (p := .indirect) hbig
  · exact fun htype hbig => absurd hbig (Nat.not_lt.mpr (hsmall htype))

/-- The last steps of a write on a file with an indirect block. -/
theorem Ended.putCell {ino : Inode} (h : Ended s₀ cur (ino.slot nDirect) s s')
    (hr : Represents ls m s₀) (hn : n < inodeNum) (hdata : IsData (ino.slot nDirect))
    (hne : ∀ k, k ≠ n → s₀.Live k → nDirect < s₀.blocks k →
      ino.slot nDirect ≠ s₀.slot k .indirect)
    (hcount : (blockCount ino.size).toNat = cur) :
    Alike (s.putCell n ino) (s'.putCell n ino) := by
  obtain ⟨s₁, s₁', ind, ind', h₁, rfl, rfl, heq⟩ := h
  have hlt : (ino.slot nDirect).toNat < blockNum := hdata.2
  have hd : ∀ (t : BlockManager) c, (t.write (ino.slot nDirect) c).d (ino.slot nDirect).toNat = c := by
    intro t c
    rw [BlockManager.write, t.d.writeBlock_of_lt c hlt]
    exact Function.update_self _ _ _
  have hinode : ∀ (t : BlockManager) c, SameSlots s₀ t → ∀ k < inodeNum,
      (t.write (ino.slot nDirect) c).inode k = s₀.inode k :=
    fun t c ht => (ht.inode.write hdata.not_table)
  have hslot : ∀ (t : BlockManager) c, SameSlots s₀ t → ∀ k, k ≠ n → s₀.Live k → ∀ p : Pos,
      p.InUse (s₀.blocks k) → (t.write (ino.slot nDirect) c).slot k p = s₀.slot k p := by
    intro t c ht k hk hl p hp
    have htk := ht.inode k hl.1
    have hblocks : t.blocks k = s₀.blocks k := by
      rw [BlockManager.blocks, htk]
      rfl
    rw [← ht.slot k hl p hp]
    apply slot_congr
    · exact inode_write hdata.not_table hl.1
    · intro hbig
      rw [hblocks] at hbig
      rw [htk, BlockManager.write_d_of_ne]
      intro he
      exact hne k hk hl hbig (UInt32.toNat_inj.mp he.symm)
    · rwa [hblocks]
  have hlive : ∀ k, (s₁.write (ino.slot nDirect) ind).Live k → s₀.Live k := by
    intro k hl
    refine ⟨hl.1, ?_⟩
    rw [← hinode s₁ ind h₁.slots k hl.1]
    exact hl.2
  have hblocks : ∀ k < inodeNum, (s₁.write (ino.slot nDirect) ind).blocks k = s₀.blocks k := by
    intro k hk
    rw [BlockManager.blocks, hinode s₁ ind h₁.slots k hk]
    rfl
  refine alike_putCell hn h₁.bitmap ?_ ?_ ?_ ?_
  · intro k hk _
    rw [hinode s₁ ind h₁.slots k hk, hinode s₁' ind' h₁.slots' k hk]
  · intro k hk hl p hp
    rw [hblocks k hl.1] at hp
    rw [hslot s₁ ind h₁.slots k hk (hlive k hl) p hp,
      hslot s₁' ind' h₁.slots' k hk (hlive k hl) p hp]
  · intro k hk hl hbig
    rw [hblocks k hl.1] at hbig
    rw [hslot s₁ ind h₁.slots k hk (hlive k hl) .indirect hbig]
    exact hr.slot_data (hlive k hl) (p := .indirect) hbig
  · intro _ _
    refine ⟨hdata, fun p hp => ?_⟩
    rw [hd, hd]
    cases p with
    | indirect => rfl
    | data j =>
      rw [hcount] at hp
      rw [slotOf, slotOf]
      split_ifs with hj
      · rfl
      · exact heq j (Nat.not_lt.mp hj) hp

theorem InStep.start (hr : Represents ls m s₀) (ha : Alike s₀ s₀') : InStep s₀ s₀ s₀' :=
  ⟨ha.bitmap, SameSlots.refl s₀, ha.slots, hr.guarded, fun _ hb => hb⟩

theorem writeFile_pair {size : Int32} (hr : Represents ls m s₀) (ha : Alike s₀ s₀')
    (hsize : s₀.Live n → (blockCountInt size).toNat < maxFile ∧
      blockCount size.toUInt32 = blockCountInt size) :
    Pair (writeFile junk n buf size) (writeFile junk' n buf' size)
      (fun _ _ s s' => Alike s s') s₀ s₀' := by
  refine Program.lockstep_bind _ (getInode_pair ha.slots.inode ?_ ?_)
  · exact fun _ => Program.lockstep_pure _ ha
  intro hlive
  obtain ⟨hcur, hcount⟩ := hsize hlive
  dsimp only
  refine Program.lockstep_seq _ (writeDirect_pair hr hlive rfl (InStep.start hr ha)) ?_
  rintro _ ino s s' ⟨rfl, h, hslot, -⟩
  by_cases hbig : nDirect < (blockCountInt size).toNat
  · rw [if_pos hbig, if_pos hbig]
    unfold openIndirect
    split_ifs with ho
    · have ho' : nDirect < s₀.blocks n := ho
      have hdata := hr.slot_data hlive (p := .indirect) ho'
      have hind : ino.slot nDirect = s₀.slot n .indirect := hslot
      have hleads : ∀ t, SameSlots s₀ t → LeadsTo s₀ n (s₀.blocks n) nDirect
          (t.d (ino.slot nDirect).toNat) := by
        intro t ht j _ hj hlt
        rw [← ht.slot n hlive (.data j) hlt, BlockManager.slot, slotOf,
          if_neg (Nat.not_lt.mpr hj), ht.inode n hlive.1, hslot]
      refine Program.lockstep_bind _ (Program.lockstep_bind _ (readBlock_pair ?_))
      rw [hind, s.d.readBlock_of_lt hdata.2, s'.d.readBlock_of_lt hdata.2, Option.getD_some,
        Option.getD_some, ← hind]
      refine Program.lockstep_pure _ ?_
      refine Program.lockstep_seq _ (writeIndirect_pair hr hlive rfl hcur hbig h
        (hleads s h.slots) (hleads s' h.slots')) fun _ _ t t' he => ?_
      refine putInode_pair hlive.1 (Ended.putCell he hr hlive.1 ?_ ?_ ?_)
      · rw [Inode.slot_size, hind]
        exact hdata
      · intro k hk hl hb hkn
        rw [Inode.slot_size, hind] at hkn
        exact hk (hr.separated.inj n k .indirect .indirect hlive hl ho' hb hkn).1.symm
      · exact congrArg UInt32.toNat hcount
    · refine Program.lockstep_bind _ (Program.lockstep_bind _
        (allocBlock_pair h.bitmap fun hc => Program.lockstep_pure _ ?_))
      obtain ⟨hdata, hne⟩ := h.find hr hc
      have hset : (ino.setSlot nDirect s.blockBitmap.find).slot nDirect =
          s.blockBitmap.find := by
        rw [Inode.slot_setSlot _ (by decide), if_pos rfl]
      have hnone : ∀ c, LeadsTo s₀ n (s₀.blocks n) nDirect c :=
        fun c j _ hj hlt => absurd (lt_of_le_of_lt hj hlt) ho
      refine Program.lockstep_seq _ (writeIndirect_pair hr hlive rfl hcur hbig h.alloc
        (hnone _) (hnone _)) fun _ _ t t' he => ?_
      refine putInode_pair hlive.1 (Ended.putCell he hr hlive.1 ?_ ?_ ?_)
      · rw [Inode.slot_size, hset]
        exact hdata
      · intro k _ hl hb
        rw [Inode.slot_size, hset]
        exact hne k hl hb
      · exact congrArg UInt32.toNat hcount
  · rw [if_neg hbig, if_neg hbig]
    refine Program.lockstep_bind _ (Program.lockstep_pure _ ?_)
    refine putInode_pair hlive.1 (h.putCell hr hlive.1 fun _ => ?_)
    dsimp only
    rw [hcount]
    exact Nat.not_lt.mp hbig

end WriteFile

end Yfs.Store
