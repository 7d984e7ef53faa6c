import Yfs.Effect.Divergence
import Yfs.Store.Bounds

/-! Which bytes of its buffer `write_file` puts on the disk. Each piece is a whole block, also
the last one. -/
namespace Yfs.Store
open Effect

/-- What a command puts on the disk, and where. -/
def stored : Cmd → Option (ℕ × Block)
  | .writeBlock id b => if id.toNat < blockNum then some (id.toNat, b) else none
  | _ => none

/-- Everything that `write_file` puts on the disk, in order. -/
def written (junk : Junk) (s : BlockManager) (n : ℕ) (buf : ℕ → UInt8) (size : ℕ) :
    List (ℕ × Block) := (writeFile junk n buf (Int32.ofNat size)).observed exec stored s

/-- Byte `j` of the buffer reaches the disk: another byte there changes what is written. -/
def Copies (junk : Junk) (s : BlockManager) (n : ℕ) (buf : ℕ → UInt8) (size j : ℕ) : Prop :=
  ∃ v, written junk s n (Function.update buf j v) size ≠ written junk s n buf size

theorem piece_update_of_le {j i : ℕ} (buf : ℕ → UInt8) (v : UInt8)
    (h : i * blockSize + blockSize ≤ j) : piece (Function.update buf j v) i = piece buf i := by
  funext o
  have ho := o.isLt
  simp only [piece, Block.ofBytes]
  rw [Function.update_of_ne (by omega)]

theorem piece_update_ne {buf : ℕ → UInt8} {v : UInt8} {j i : ℕ} (hle : i * blockSize ≤ j)
    (hlt : j < i * blockSize + blockSize) (hv : v ≠ buf j) :
    piece (Function.update buf j v) i ≠ piece buf i := by
  intro h
  have hj : i * blockSize + (j - i * blockSize) = j := by omega
  have hbyte := congrFun h ⟨j - i * blockSize, by omega⟩
  simp only [piece, Block.ofBytes, hj, Function.update_self] at hbyte
  exact hv hbyte

section Pieces

variable {s₀ s : BlockManager} {n orig cur i : ℕ} {buf buf' : ℕ → UInt8}

theorem stored_writeBlock {id : BlockId} (h : id.toNat < blockNum) (b : Block) :
    stored (.writeBlock id b) = some (id.toNat, b) := if_pos h

theorem writeBlock_diverge {α β : Type} {id : BlockId} {b b' : Block} (h : id.toNat < blockNum)
    (hne : b ≠ b') (f : Unit → Prog α) (f' : Unit → Prog β) :
    Program.Diverge exec stored (writeBlock id b >>= f) (writeBlock id b' >>= f') s := by
  apply Program.diverge_call exec stored (stored_writeBlock h b) (stored_writeBlock h b')
  simp [hne]

theorem writeDirect_congr (h : i < cur → piece buf i = piece buf' i) (ino : Inode) :
    writeDirect buf orig cur i ino = writeDirect buf' orig cur i ino := by
  unfold writeDirect
  by_cases hi : i < cur
  · rw [h hi]
  · simp [hi]

theorem writeIndirect_congr (h : i < cur → piece buf i = piece buf' i) (ino : Inode)
    (ind : Block) :
    writeIndirect buf orig cur ino i ind = writeIndirect buf' orig cur ino i ind := by
  unfold writeIndirect
  by_cases hi : i < cur
  · rw [h hi]
  · simp [hi]

theorem writeDirect_diverge {k : Prop} {ino : Inode} (h : DirectState s₀ n orig k i ino s)
    (hi : i < nDirect) (hcur : i < cur) (hne : piece buf i ≠ piece buf' i) :
    Program.Diverge exec stored (writeDirect buf orig cur i ino) (writeDirect buf' orig cur i ino)
      s := by
  unfold writeDirect
  by_cases ho : i < orig
  · rw [if_pos ⟨hcur, ho⟩, if_pos ⟨hcur, ho⟩]
    exact writeBlock_diverge (h.fine i hi (by omega)).2 hne _ _
  · rw [if_neg (fun hlt => ho hlt.2), if_pos hcur, if_neg (fun hlt => ho hlt.2), if_pos hcur]
    apply Program.diverge_seq exec stored (P := fun b t => b = s.blockBitmap.find)
      (allocBlock_wlp fun _ => rfl)
    intro b t hb
    have hslot : (ino.setSlot i b).slot i = b := by
      rw [Inode.slot_setSlot ino (by omega), if_pos rfl]
    dsimp only
    rw [hslot, hb]
    exact writeBlock_diverge h.table.find.2 hne _ _

/-- The loop over the indirect blocks: the entries that it writes to are on the disk. -/
structure EntriesFine (orig : ℕ) (ind : Block) (s : BlockManager) : Prop where
  table : TableMarked s
  fine : ∀ j, nDirect ≤ j → j < orig → (ind.entry (j - nDirect)).toNat < blockNum

theorem EntriesFine.round {ino : Inode} {ind : Block} (h : EntriesFine orig ind s)
    (hi : nDirect ≤ i) (hlt : i < nDirect + nIndirect) (hcur : i < cur)
    {Q : Block → BlockManager → Prop} :
    (writeIndirect buf orig cur ino i ind).wlp exec (fun _ _ => True)
      (Program.Round (EntriesFine orig) Q) s := by
  unfold writeIndirect
  by_cases ho : i < orig
  · rw [if_pos ⟨hcur, ho⟩]
    exact Program.wlp_bind _ (writeBlock_wlp (Program.wlp_pure _ ⟨h.table.write, h.fine⟩))
  · rw [if_neg (fun hlt => ho hlt.2), if_pos hcur]
    refine Program.wlp_bind _ (allocBlock_wlp fun _ => ?_)
    refine Program.wlp_bind _ (writeBlock_wlp (Program.wlp_pure _ ?_))
    constructor
    · exact h.table.alloc.write
    · intro j hj hjo
      rw [Block.entry_setEntry ind (by omega), if_neg (by omega)]
      exact h.fine j hj hjo

theorem writeIndirect_diverge {ino : Inode} {ind : Block} (h : EntriesFine orig ind s)
    (hi : nDirect ≤ i) (hlt : i < nDirect + nIndirect) (hcur : i < cur)
    (hne : piece buf i ≠ piece buf' i) :
    Program.Diverge exec stored (writeIndirect buf orig cur ino i ind)
      (writeIndirect buf' orig cur ino i ind) s := by
  unfold writeIndirect
  by_cases ho : i < orig
  · rw [if_pos ⟨hcur, ho⟩, if_pos ⟨hcur, ho⟩]
    exact writeBlock_diverge (h.fine i hi ho) hne _ _
  · rw [if_neg (fun hlt => ho hlt.2), if_pos hcur, if_neg (fun hlt => ho hlt.2), if_pos hcur]
    apply Program.diverge_seq exec stored (P := fun b t => b = s.blockBitmap.find)
      (allocBlock_wlp fun _ => rfl)
    intro b t hb
    have hentry : (ind.setEntry (i - nDirect) b).entry (i - nDirect) = b := by
      rw [Block.entry_setEntry ind (by omega), if_pos rfl]
    dsimp only
    rw [hentry, hb]
    exact writeBlock_diverge h.table.find.2 hne _ _

/-- The entries that `open_indirect` hands on are those of the inum. -/
theorem openIndirect_entries {ls : ℕ → Share} {m : Files} (h : Represents ls m s₀)
    (hl : s₀.Live n) {k : ℕ} {ino : Inode} (junk : Junk)
    (hs : DirectState s₀ n (s₀.blocks n) (nDirect < s₀.blocks n) k ino s) :
    (openIndirect junk (s₀.blocks n) ino).wlp exec (fun _ _ => True)
      (fun x t => EntriesFine (s₀.blocks n) x.2 t) s := by
  unfold openIndirect
  by_cases ho : nDirect < s₀.blocks n
  · rw [if_pos ho]
    have hin := (h.contained.slots n hl nDirect le_rfl ho).2
    refine Program.wlp_bind _ (readBlock_wlp (Program.wlp_pure _ ⟨hs.table, ?_⟩))
    intro j hj hjo
    rw [hs.indirect, s.d.readBlock_of_lt hin, Option.getD_some, (hs.kept ho).1]
    have hfine := (h.slot_data (p := .data j) hl hjo).fine.2
    rwa [BlockManager.slot, slotOf, if_neg (by omega)] at hfine
  · rw [if_neg ho]
    refine Program.wlp_bind _ (allocBlock_wlp fun _ => Program.wlp_pure _ ?_)
    exact ⟨hs.table.alloc, fun j hj hjo => absurd hjo (by omega)⟩

/-- Two buffers that differ first in a piece of the file leave different traces. -/
theorem Represents.diverge {ls : ℕ → Share} {m : Files} (h : Represents ls m s)
    (hl : s.Live n) {size : ℕ} (hsize : size ≤ maxFile * blockSize) (junk : Junk)
    (hi : i < blocksOf size) (hsame : ∀ j < i, piece buf j = piece buf' j)
    (hne : piece buf i ≠ piece buf' i) :
    Program.Diverge exec stored (Store.writeFile junk n buf (Int32.ofNat size))
      (Store.writeFile junk n buf' (Int32.ofNat size)) s := by
  simp only [maxFile, nDirect, nIndirect, blockSize] at hsize
  have hcur : (blockCountInt (Int32.ofNat size)).toNat = blocksOf size :=
    blockCountInt_ofNat (by omega)
  have hmax : blocksOf size ≤ nDirect + nIndirect := by
    simp only [blocksOf, nDirect, nIndirect]
    omega
  unfold Store.writeFile
  apply Program.diverge_seq exec stored (P := fun r t => r = some (s.inode n) ∧ t = s)
  · refine getInode_wlp hl.1 ?_
    rw [BlockManager.getInode, if_neg hl.2]
    exact ⟨rfl, rfl⟩
  intro r t hr
  obtain ⟨rfl, rfl⟩ := hr
  simp only [hcur]
  have horig : (blockCount (t.inode n).size).toNat = t.blocks n := rfl
  rw [horig]
  have happart := fun hbig => (h.indirectFine hl hbig (blocksOf size)).apart
  by_cases hid : i < nDirect
  · apply Program.Diverge.bind
    apply Program.diverge_loop exec stored
      (DirectState t n (t.blocks n) (nDirect < t.blocks n)) (k := i)
    · exact DirectState.start h.contained hl rfl _
    · omega
    · omega
    · exact fun j ino hj => writeDirect_congr (fun _ => hsame j hj) ino
    · exact fun j ino s' _ hj hs => hs.round id happart (by omega) (by omega)
    · exact fun ino s' hs => writeDirect_diverge hs hid hi hne
  · have hbig : nDirect < blocksOf size := by omega
    have hloop : Program.loop (writeDirect buf (t.blocks n) (blocksOf size)) nDirect 0 (t.inode n)
        = Program.loop (writeDirect buf' (t.blocks n) (blocksOf size)) nDirect 0 (t.inode n) :=
      Program.loop_congr _ fun j ino hj => writeDirect_congr (fun _ => hsame j (by omega)) ino
    rw [hloop]
    apply Program.diverge_seq exec stored
      (writeDirect_contained h.contained hl rfl id happart)
    intro ino s' hs
    rw [if_pos hbig, if_pos hbig]
    apply Program.diverge_seq exec stored (openIndirect_entries h hl junk hs)
    intro x s'' he
    apply Program.Diverge.bind
    apply Program.diverge_loop exec stored (fun _ => EntriesFine (t.blocks n)) (k := i) he
    · omega
    · omega
    · exact fun j ind hj => writeIndirect_congr (fun _ => hsame j hj) x.1 ind
    · exact fun j ind s' hj hji hs => hs.round hj (by omega) (by omega)
    · exact fun ind s' hs => writeIndirect_diverge hs (by omega) (by omega) hi hne

end Pieces

section Claim

variable {ls : ℕ → Share} {m : Files} {s : BlockManager} {n size : ℕ}

/-- The last piece of a file reaches past the terminating byte, unless it is full or lacks one
byte. -/
theorem Represents.copies_past (h : Represents ls m s) (hl : s.Live n)
    (hsize : size ≤ maxFile * blockSize) (h0 : size % blockSize ≠ 0)
    (h1 : size % blockSize ≠ blockSize - 1) (junk : Junk) (buf : ℕ → UInt8) :
    Copies junk s n buf size (size + 1) := by
  have hv : buf (size + 1) + 1 ≠ buf (size + 1) := by simp
  have hlast : blocksOf size = size / blockSize + 1 := by
    simp only [blocksOf, blockSize] at *
    omega
  have hlt : size / blockSize < blocksOf size := by omega
  refine ⟨buf (size + 1) + 1, (h.diverge hl hsize junk hlt ?_ ?_).observed_ne⟩
  · intro j hj
    apply piece_update_of_le
    simp only [blockSize] at *
    omega
  · apply piece_update_ne _ _ hv
    · simp only [blockSize]
      omega
    · simp only [blockSize] at *
      omega

theorem writeFile_congr {buf buf' : ℕ → UInt8} (junk : Junk)
    (hsize : size ≤ maxFile * blockSize)
    (h : ∀ i < blocksOf size, piece buf i = piece buf' i) :
    writeFile junk n buf (Int32.ofNat size) = writeFile junk n buf' (Int32.ofNat size) := by
  simp only [maxFile, nDirect, nIndirect, blockSize] at hsize
  have hcur : (blockCountInt (Int32.ofNat size)).toNat = blocksOf size :=
    blockCountInt_ofNat (by omega)
  have hdirect : ∀ orig, writeDirect buf orig (blocksOf size) =
      writeDirect buf' orig (blocksOf size) :=
    fun orig => funext fun i => funext fun ino => writeDirect_congr (h i) ino
  have hindirect : ∀ orig ino, writeIndirect buf orig (blocksOf size) ino =
      writeIndirect buf' orig (blocksOf size) ino :=
    fun orig ino => funext fun i => funext fun ind => writeIndirect_congr (h i) ino ind
  unfold writeFile
  simp only [hcur, hdirect, hindirect]

theorem not_copies {j : ℕ} (hsize : size ≤ maxFile * blockSize)
    (hj : blocksOf size * blockSize ≤ j) (junk : Junk) (s : BlockManager) (n : ℕ)
    (buf : ℕ → UInt8) : ¬ Copies junk s n buf size j := by
  intro h
  obtain ⟨v, hv⟩ := h
  apply hv
  unfold written
  rw [writeFile_congr junk hsize]
  intro i hi
  apply piece_update_of_le
  have hle : (i + 1) * blockSize ≤ blocksOf size * blockSize := Nat.mul_le_mul_right _ hi
  rw [Nat.succ_mul] at hle
  exact hle.trans hj

/-- `write_file` reads only its string and the terminating byte when, and only when, the string
fills its last block or lacks one byte of that. -/
theorem write_inside_iff (h : Represents ls m s) (hl : s.Live n)
    (hsize : size ≤ maxFile * blockSize) (junk : Junk) (buf : ℕ → UInt8) :
    (∀ j, Copies junk s n buf size j → j ≤ size) ↔
      size % blockSize = 0 ∨ size % blockSize = blockSize - 1 := by
  constructor
  · intro hin
    by_contra hne
    rw [not_or] at hne
    have hle := hin _ (h.copies_past hl hsize hne.1 hne.2 junk buf)
    omega
  · intro hrest j hj
    by_contra hlt
    apply not_copies hsize _ junk s n buf hj
    simp only [blocksOf, blockSize] at *
    omega

theorem write_inside_iff_example :
    (freshServer noJunk).Live 1 ∧
      ∀ j, Copies noJunk (freshServer noJunk) 1 (cstr noJunk (.replicate 511 7)) 511 j →
        j ≤ 511 := by
  obtain ⟨ls, h, -⟩ := freshServer_represents noJunk
  have hlive : (freshServer noJunk).Live 1 := h.live_iff.mpr (Option.some_ne_none _)
  have hsize : 511 ≤ maxFile * blockSize := by decide
  have hiff := write_inside_iff h hlive hsize noJunk (cstr noJunk (.replicate 511 7))
  exact ⟨hlive, hiff.mpr (Or.inr rfl)⟩

/-- A string of one byte: the byte after its terminator goes to the disk. -/
theorem write_overreads :
    (freshServer noJunk).Live 1 ∧
      ¬ ∀ j, Copies noJunk (freshServer noJunk) 1 (cstr noJunk [7]) 1 j → j ≤ 1 := by
  obtain ⟨ls, h, -⟩ := freshServer_represents noJunk
  have hlive : (freshServer noJunk).Live 1 := h.live_iff.mpr (Option.some_ne_none _)
  refine ⟨hlive, fun hin => ?_⟩
  have hle := hin 2 (h.copies_past hlive (by decide) (by decide) (by decide) noJunk _)
  omega

end Claim

end Yfs.Store
