import Yfs.Store.FullWrite
import Yfs.Store.Serve

/-! What is written to a file is read back, up to but not including files of exactly
`maxFile` blocks. -/
namespace Yfs.Store
open Effect

/-- The public operations of `inode_manager`. -/
inductive Op where
  | allocInode (type : UInt32)
  | freeInode (inum : UInt32)
  | readFile (inum : UInt32)
  | writeFile (inum : UInt32) (bytes : List UInt8)
  | removeFile (inum : UInt32)
  | getattr (inum : UInt32) (a : Attr)

/-- The program of an operation, without its result. -/
def Op.prog (junk : Junk) : Op → Prog Unit
  | .allocInode type => Store.allocInode junk type >>= fun _ => pure ()
  | .freeInode inum => Store.freeInode junk inum.toNat
  | .readFile inum => Store.readFile junk inum.toNat >>= fun _ => pure ()
  | .writeFile inum bytes =>
    Store.writeFile junk inum.toNat (cstr junk bytes) (Int32.ofNat bytes.length)
  | .removeFile inum => Store.removeFile junk inum.toNat
  | .getattr inum a => Store.getattr junk inum.toNat a >>= fun _ => pure ()

structure OpCall where
  op : Op
  junk : Junk

def OpCall.next (c : OpCall) (s : BlockManager) : BlockManager := ((c.op.prog c.junk).run exec s).2

/-- A write spans fewer than `maxFile` blocks, and every allocation finds a clear bit. -/
def OpCall.Short (c : OpCall) (s : BlockManager) : Prop :=
  (∀ inum bytes, c.op = .writeFile inum bytes → blocksOf bytes.length < maxFile) ∧
    (c.op.prog c.junk).Always exec FindsClear s

/-- `write_file` and then `read_file` give the bytes back, and their number. -/
def RoundTrip (junk junk' : Junk) (n : ℕ) (bytes : List UInt8) (s : BlockManager) : Prop :=
  ∃ out, ((readFile junk' n).run exec ((writeFile junk n (cstr junk bytes)
      (Int32.ofNat bytes.length)).run exec s).2).1 = some ⟨out, Int32.ofNat bytes.length⟩ ∧
    ∀ k < bytes.length, out k = bytes.getD k 0

section RoundTrip

variable {ls : ℕ → Share} {m : Files} {s : BlockManager}

theorem Represents.next (h : Represents ls m s) (c : OpCall) (hc : c.Short s) :
    ∃ ls' m', Represents ls' m' (c.next s) := by
  obtain ⟨op, junk⟩ := c
  obtain ⟨hfits, hpre⟩ := hc
  unfold OpCall.next
  cases op with
  | allocInode type =>
    rw [Op.prog, Program.run_bind]
    rcases h.allocInode junk type with ⟨_, _, -, -, -, -, -, -, h'⟩ | ⟨-, hr⟩
    · exact ⟨_, _, h'⟩
    · rw [hr]
      exact ⟨_, _, h⟩
  | freeInode inum =>
    cases hf : m inum.toNat with
    | none =>
      rw [Op.prog, freeInode_dead junk (h.not_live hf)]
      exact ⟨_, _, h⟩
    | some f =>
      obtain ⟨_, -, h'⟩ := h.freeInode junk hf
      exact ⟨_, _, h'⟩
  | readFile inum =>
    rw [Op.prog, Program.run_bind]
    cases hf : m inum.toNat with
    | none =>
      rw [readFile_dead junk (h.not_live hf)]
      exact ⟨_, _, h⟩
    | some f => exact ⟨_, _, (h.readFile junk hf).2⟩
  | writeFile inum bytes =>
    cases hf : m inum.toNat with
    | none =>
      rw [Op.prog, writeFile_dead junk (h.not_live hf)]
      exact ⟨_, _, h⟩
    | some f =>
      have hlt := hfits inum bytes rfl
      obtain ⟨hcur, hsize⟩ := int_of_length hlt.le
      obtain ⟨_, -, h'⟩ := h.writeFile hf hcur hsize hlt (fun k hk => cstr_getD junk hk) hpre
      exact ⟨_, _, h'⟩
  | removeFile inum =>
    cases hf : m inum.toNat with
    | none =>
      rw [Op.prog, removeFile_dead junk (h.not_live hf)]
      exact ⟨_, _, h⟩
    | some f =>
      obtain ⟨_, -, h'⟩ := h.removeFile junk hf
      exact ⟨_, _, h'⟩
  | getattr inum a =>
    rw [Op.prog, Program.run_bind]
    cases hf : m inum.toNat with
    | none =>
      rw [getattr_dead junk (h.not_live hf)]
      exact ⟨_, _, h⟩
    | some f => exact ⟨_, _, (h.getattr junk hf a).2⟩

theorem Represents.roundTrip (h : Represents ls m s) {junk junk' : Junk} {n : ℕ}
    {bytes : List UInt8} (hlive : s.Live n) (hlt : blocksOf bytes.length < maxFile)
    (hpre : (Store.writeFile junk n (cstr junk bytes) (Int32.ofNat bytes.length)).Always exec
      FindsClear s) : RoundTrip junk junk' n bytes s := by
  obtain ⟨f, hf⟩ := Option.ne_none_iff_exists'.mp (h.live_iff.mp hlive)
  obtain ⟨hcur, hsize⟩ := int_of_length hlt.le
  obtain ⟨l', hw, h'⟩ := h.writeFile hf hcur hsize hlt (fun k hk => cstr_getD junk hk) hpre
  have hf' : Function.update m n (some ⟨f.type, bytes⟩) n = some ⟨f.type, bytes⟩ :=
    Function.update_self ..
  obtain ⟨⟨out, hr, hout⟩, -⟩ := h'.readFile junk' hf'
  have hsz : (Function.update ls n l' n).cell.size.toInt32 = Int32.ofNat bytes.length := by
    rw [Function.update_self, ← UInt32.toInt32_ofNat', ← hw.stores.size_eq, UInt32.ofNat_toNat]
  rw [hsz] at hr
  exact ⟨out, hr, hout⟩

end RoundTrip

/-- After any run of operations on a new server whose writes stay short of `maxFile`
blocks, a further such write is read back. -/
theorem readFile_writeFile (junk junk₁ junk₂ : Junk) (calls : List OpCall)
    (hrun : EachStep OpCall.next OpCall.Short calls (freshServer junk)) (inum : UInt32)
    (bytes : List UInt8)
    (hlive : (calls.foldl (fun s c => c.next s) (freshServer junk)).Live inum.toNat)
    (hlt : blocksOf bytes.length < maxFile)
    (hpre : (writeFile junk₁ inum.toNat (cstr junk₁ bytes) (Int32.ofNat bytes.length)).Always
      exec FindsClear (calls.foldl (fun s c => c.next s) (freshServer junk))) :
    RoundTrip junk₁ junk₂ inum.toNat bytes
      (calls.foldl (fun s c => c.next s) (freshServer junk)) := by
  obtain ⟨ls, h, -⟩ := freshServer_represents junk
  have hinv := EachStep.invariant OpCall.next (I := fun s => ∃ ls m, Represents ls m s)
    (fun c s ⟨ls, m, h⟩ hc => h.next c hc) ⟨ls, rootOnly, h⟩ hrun
  obtain ⟨ls', m', h'⟩ := hinv
  exact h'.roundTrip hlive hlt hpre

theorem readFile_writeFile_example :
    RoundTrip noJunk noJunk (1 : UInt32).toNat [7]
      (OpCall.next ⟨.readFile 1, noJunk⟩ (freshServer noJunk)) := by
  obtain ⟨ls, h, hheld⟩ := freshServer_represents noJunk
  have hroot : rootOnly (1 : UInt32).toNat = some ⟨1, []⟩ := rfl
  have hnext : OpCall.next ⟨.readFile 1, noJunk⟩ (freshServer noJunk) =
      ((readFile noJunk (1 : UInt32).toNat).run exec (freshServer noJunk)).2 := by
    rw [OpCall.next, Op.prog, Program.run_bind]
    rfl
  have h' := (h.readFile noJunk hroot).2
  rw [← hnext] at h'
  have hlt : blocksOf ([7] : List UInt8).length < maxFile := by decide
  obtain ⟨hcur, hsize⟩ := int_of_length hlt.le
  have hneed : need (blocksOf ([] : List UInt8).length) (blocksOf ([7] : List UInt8).length) ≤
      32415 := by decide
  refine readFile_writeFile noJunk noJunk noJunk [⟨.readFile 1, noJunk⟩] ⟨⟨?_, ?_⟩, trivial⟩ 1 [7]
    ?_ hlt ?_
  · intro inum bytes hop
    cases hop
  · exact Program.Only.always exec (P := NoFind) (fun _ _ hne he => absurd he hne)
      (Program.only_bind (f := fun _ => pure ()) (readFile_only noJunk _) fun _ => trivial) _
  · rw [List.foldl_cons, List.foldl_nil, h'.live_iff, hroot]
    exact Option.some_ne_none _
  · exact h'.writeFile_always hroot hcur hsize hlt.le (fun k hk => cstr_getD noJunk hk)
      (hneed.trans (h'.valid.free_of_idle hheld))

/-- A file of exactly `maxFile` blocks. -/
@[irreducible] def fullFile : List UInt8 := List.replicate (maxFile * blockSize) 1

theorem length_fullFile : fullFile.length = 81920 := by
  rw [fullFile, List.length_replicate]
  rfl

theorem getD_fullFile {k : ℕ} (hk : k < 81920) : fullFile.getD k 0 = 1 := by
  have hk' : k < maxFile * blockSize := hk
  rw [fullFile, List.getD_eq_getElem?_getD, List.getElem?_replicate, if_pos hk']
  rfl

theorem blocksOf_fullFile : blocksOf fullFile.length = maxFile := by rw [length_fullFile]; rfl

/-- The first write of a full file on a new disk leaves zeros in its indirect block. -/
theorem writeFile_fullFile :
    (writeFile noJunk 1 (cstr noJunk fullFile) (Int32.ofNat fullFile.length)).wlp exec FindsClear
      (fun _ s => (s.inode 1).type = 1 ∧ (s.inode 1).size.toNat = 81920 ∧
        IsData ((s.inode 1).slot nDirect) ∧ s.d ((s.inode 1).slot nDirect).toNat = Block.zero ∧
        s.d 0 = Block.zero) (freshServer noJunk) := by
  have h1 : 1 < inodeNum := by decide
  obtain ⟨hcur, hsize⟩ := int_of_length blocksOf_fullFile.le
  rw [blocksOf_fullFile] at hcur
  rw [length_fullFile] at hsize
  let s₀ := freshServer noJunk
  obtain ⟨ls, h, hheld⟩ := freshServer_represents noJunk
  have hguard : Guarded s₀ := ⟨h.valid.numBits, h.valid.reserved⟩
  have hinode : s₀.inode 1 = newInode tDir := by
    rw [show s₀ = BlockManager.init.putCell 1 (newInode tDir) from freshServer_eq noJunk,
      BlockManager.inode_putCell_self h1]
  have hzero : ∀ k, k ≠ (iblock 1 sb.nblocks).toNat → s₀.d k = Block.zero := by
    intro k hk
    rw [show s₀ = BlockManager.init.putCell 1 (newInode tDir) from freshServer_eq noJunk,
      BlockManager.putCell, BlockManager.write_d_of_ne hk]
    rfl
  have hblocks : s₀.blocks 1 = 0 := by
    rw [BlockManager.blocks, hinode]
    rfl
  -- while the direct blocks are filled, what is unmarked is blank
  have hdirect : (Program.loop (writeDirect (cstr noJunk fullFile) (s₀.blocks 1) maxFile) nDirect 0
      (s₀.inode 1)).wlp exec FindsClear (fun ino s => Keeps s₀ s ∧ ino.type = 1 ∧
        ∀ b, IsData b → s.blockBitmap.test b = false → s.d b.toNat = Block.zero) s₀ := by
    refine Program.wlp_loop exec (fun _ ino s => Keeps s₀ s ∧ ino.type = 1 ∧
      ∀ b, IsData b → s.blockBitmap.test b = false → s.d b.toNat = Block.zero) ?_ ?_
      fun _ _ h => h
    · refine ⟨Keeps.refl hguard, by rw [hinode]; rfl, fun b hb _ => hzero _ ?_⟩
      have hlt := iblock_lt h1
      have hge := hb.1
      omega
    · intro i ino s _ hi h
      obtain ⟨hk, ht, hblank⟩ := h
      have hmax : i < maxFile := by
        simp only [maxFile, nDirect, nIndirect] at *
        omega
      unfold writeDirect
      rw [hblocks, if_neg (by omega), if_pos hmax]
      refine Program.wlp_bind _ (allocBlock_wlp fun hc => ?_)
      obtain ⟨hdata, hclear⟩ := hk.guarded.find hc
      have hslot : (ino.setSlot i s.blockBitmap.find).slot i = s.blockBitmap.find := by
        rw [Inode.slot_setSlot _ (by omega), if_pos rfl]
      dsimp only
      rw [hslot]
      refine Program.wlp_bind _ (writeBlock_wlp (Program.wlp_pure _ ⟨?_, ht, ?_⟩))
      · exact hk.alloc.write (hk.find_unmarked hc)
      · intro b hb htest
        have hfind := hk.guarded.test_alloc_find hc
        have hne : b ≠ s.blockBitmap.find := by
          rintro rfl
          have htest' : s.alloc.blockBitmap.test s.blockBitmap.find = false := htest
          rw [hfind] at htest'
          cases htest'
        rw [BlockManager.write_d_of_ne (fun he => hne (UInt32.toNat_inj.mp he))]
        apply hblank b hb
        have hlt : s.blockBitmap.find < s.blockBitmap.numBits := by
          rw [UInt32.lt_iff_toNat_lt, hk.guarded.numBits]
          exact hdata.2
        have htest' : s.alloc.blockBitmap.test b = false := htest
        rwa [test_alloc hlt, if_neg hne] at htest'
  refine writeFile_full_wlp h1 (by rw [hinode]; decide) (by rw [hblocks]; decide) hcur hdirect ?_
  intro ino s₁ h₁
  obtain ⟨hk, ht, hblank⟩ := h₁
  refine ⟨hk.guarded, fun hc s₂ hk₂ => ?_⟩
  obtain ⟨hdata, hclear⟩ := hk.guarded.find hc
  have hslot : (ino.setSlot nDirect s₁.blockBitmap.find).slot nDirect = s₁.blockBitmap.find := by
    rw [Inode.slot_setSlot _ (by decide), if_pos rfl]
  have htable : ∀ b : BlockId, IsData b → b.toNat ≠ (iblock 1 sb.nblocks).toNat := by
    intro b hb
    have hlt := iblock_lt h1
    have hge := hb.1
    omega
  rw [BlockManager.inode_putCell_self h1]
  rw [Inode.slot_size, hslot]
  refine ⟨ht, by rw [length_fullFile]; exact hsize, hdata, ?_, ?_⟩
  · rw [BlockManager.putCell, BlockManager.write_d_of_ne (htable _ hdata),
      hk₂.contents _ (hk.guarded.test_alloc_find hc)]
    exact hblank _ hdata hclear
  · have h0 : s₀.blockBitmap.test 0 = true := hguard.reserved 0 (by decide)
    have hd := (hk.alloc.trans hk₂).contents 0 h0
    have h11 : (0 : ℕ) ≠ (iblock 1 sb.nblocks).toNat := by
      rw [iblock_toNat h1]
      decide
    rw [BlockManager.putCell, BlockManager.write_d_of_ne h11]
    exact hd.trans (hzero _ h11)

/-- Of a file of exactly `maxFile` blocks only the direct blocks are read back. -/
theorem fullFile_lost :
    fullFile.length = maxFile * blockSize ∧ (freshServer noJunk).Live 1 ∧
      (writeFile noJunk 1 (cstr noJunk fullFile) (Int32.ofNat fullFile.length)).Always exec
        FindsClear (freshServer noJunk) ∧
      ¬ RoundTrip noJunk noJunk 1 fullFile (freshServer noJunk) := by
  have h1 : 1 < inodeNum := by decide
  obtain ⟨ls, h, hheld⟩ := freshServer_represents noJunk
  have hroot : rootOnly 1 = some ⟨1, []⟩ := rfl
  obtain ⟨hcur, hsize⟩ := int_of_length blocksOf_fullFile.le
  have hneed : need (blocksOf ([] : List UInt8).length) (blocksOf fullFile.length) ≤ 32415 := by
    rw [blocksOf_fullFile]
    decide
  have hpre : (writeFile noJunk 1 (cstr noJunk fullFile) (Int32.ofNat fullFile.length)).Always
      exec FindsClear (freshServer noJunk) :=
    h.writeFile_always hroot hcur hsize (by rw [blocksOf_fullFile])
      (fun k hk => cstr_getD noJunk hk) (hneed.trans (h.valid.free_of_idle hheld))
  refine ⟨length_fullFile, ?_, hpre, ?_⟩
  · rw [h.live_iff, hroot]
    exact Option.some_ne_none _
  rintro ⟨out, hread, hout⟩
  obtain ⟨htype, hbytes, hdata, hblank, hboot⟩ := writeFile_fullFile hpre
  generalize ((writeFile noJunk 1 (cstr noJunk fullFile)
    (Int32.ofNat fullFile.length)).run exec (freshServer noJunk)).2 = s at *
  have hind : (s.d.readBlock ((s.inode 1).slot nDirect)).getD noJunk.stack = Block.zero := by
    rw [s.d.readBlock_of_lt hdata.2, Option.getD_some, hblank]
  have halways : (readFile noJunk 1).Always exec (fun _ _ => True) s :=
    Program.Only.always exec (fun _ _ _ => trivial) (readFile_only noJunk 1) s
  obtain ⟨-, out', hread', hout'⟩ := readFile_wlp noJunk h1 (by rw [htype]; decide)
    (by rw [hbytes]; decide) halways
  rw [hread'] at hread
  obtain rfl : out' = out := congrArg FileData.buf (Option.some.inj hread)
  -- the first indirect block is read through a zero entry, from the boot block
  have hentry : slotOf (s.inode 1) Block.zero (.data (16384 / blockSize)) = 0 := by
    rw [slotOf, if_neg (by decide)]
    exact Block.entry_zero _
  have hbad := hout' 16384 (by rw [hbytes]; decide)
  rw [hind] at hbad
  dsimp only at hbad
  rw [hentry] at hbad
  have hzero := hbad (by decide)
  rw [hout 16384 (by rw [length_fullFile]; decide), getD_fullFile (by decide)] at hzero
  have h00 : (0 : BlockId).toNat = 0 := rfl
  rw [h00, hboot, Block.byte_zero] at hzero
  cases hzero

end Yfs.Store
