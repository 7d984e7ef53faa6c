import Yfs.Store.Containment
import Yfs.Store.Refinement

/-! Sizes of files: what happens to those that are too large for `maxFile` blocks. -/
namespace Yfs.Store
open Effect

section RemoveFile

variable {s₀ s : BlockManager} {n : ℕ} {junk : Junk}

/-- Bits cleared by a loop of `remove_file`, and what it leaves alone. -/
structure Cleared (s₀ : BlockManager) (count : ℕ) (block : ℕ → BlockId) (s : BlockManager) :
    Prop where
  disk : s.d = s₀.d
  cleared : ∀ i < count, s.blockBitmap.test (block i) = false
  mono : ∀ b, s₀.blockBitmap.test b = false → s.blockBitmap.test b = false
  table : TableMarked s₀ → (∀ i < count, ¬ IsTable (block i)) → TableMarked s

theorem Cleared.clear {count : ℕ} {block : ℕ → BlockId} (h : Cleared s₀ count block s) :
    Cleared s₀ (count + 1) block
      { s with blockBitmap := s.blockBitmap.clear (block count) } := by
  have htest : ∀ b, s.blockBitmap.test b = false →
      (s.blockBitmap.clear (block count)).test b = false := by
    intro b hb
    rw [Bitmap.test_clear, hb, ite_self]
  constructor
  · exact h.disk
  · intro i hi
    obtain rfl | hlt := Nat.eq_or_lt_of_le (Nat.lt_succ_iff.mp hi)
    · rw [Bitmap.test_clear, if_pos rfl]
    · exact htest _ (h.cleared i hlt)
  · exact fun b hb => htest b (h.mono b hb)
  · intro ht hblock
    exact (h.table ht fun i hi => hblock i (by omega)).clear (hblock count (Nat.lt_succ_self _))

theorem freeUpTo_wlp {A : Cmd → BlockManager → Prop} {count rem : ℕ} (block : ℕ → BlockId) :
    (Program.loop (freeUpTo count block) rem 0 ()).wlp exec A
      (fun _ s => Cleared s₀ (min rem count) block s) s₀ := by
  refine Program.wlp_loop exec (fun i _ s => Cleared s₀ i block s ∧ i ≤ count) ?_ ?_ ?_
  · exact ⟨⟨rfl, fun i hi => absurd hi (Nat.not_lt_zero i), fun _ h => h, fun h _ => h⟩,
      Nat.zero_le _⟩
  · intro i _ s _ hi ⟨h, hle⟩
    unfold freeUpTo
    split_ifs with hlt
    · exact Program.wlp_bind _ (freeBlock_wlp (Program.wlp_pure _ ⟨h.clear, hlt⟩))
    · have hm : min rem count = i := by omega
      exact Program.wlp_pure _ (by rw [hm]; exact h)
  · intro _ s ⟨h, hle⟩
    have hm : min rem count = 0 + rem := by omega
    rw [hm]
    exact h

/-- `remove_file` frees every block that its inum owns. -/
theorem removeFile_wlp {A : Cmd → BlockManager → Prop} (junk : Junk) (hc : Contained s₀)
    (hlive : s₀.Live n) :
    (removeFile junk n).wlp exec A (fun _ s =>
      (∀ p : Pos, p.InUse (s₀.blocks n) → s.blockBitmap.test (s₀.slot n p) = false) ∧
      ((∀ j, nDirect ≤ j → j < s₀.blocks n → ¬ IsTable (s₀.slot n (.data j))) →
        Contained s)) s₀ := by
  have hsize := hc.size n hlive
  have hblocks : s₀.blocks n ≤ maxFile := by
    rw [BlockManager.blocks, blockCount_toNat]
    · simp only [blocksOf, maxFile, nDirect, nIndirect, blockSize] at *
      omega
    · simp only [maxFile, nDirect, nIndirect, blockSize] at hsize
      omega
  have hfinish : ∀ s, s.d = s₀.d →
      (∀ p : Pos, p.InUse (s₀.blocks n) → s.blockBitmap.test (s₀.slot n p) = false) →
      ((∀ j, nDirect ≤ j → j < s₀.blocks n → ¬ IsTable (s₀.slot n (.data j))) →
        TableMarked s) →
      (freeInode junk n).wlp exec A (fun _ s =>
        (∀ p : Pos, p.InUse (s₀.blocks n) → s.blockBitmap.test (s₀.slot n p) = false) ∧
        ((∀ j, nDirect ≤ j → j < s₀.blocks n → ¬ IsTable (s₀.slot n (.data j))) →
          Contained s)) s := by
    intro s hd hfree ht _
    have hsame : SameInodes s₀ s := fun m _ => by rw [BlockManager.inode, hd]; rfl
    have hl : s.Live n := by
      refine ⟨hlive.1, ?_⟩
      rw [hsame n hlive.1]
      exact hlive.2
    rw [freeInode_live junk hl]
    exact ⟨hfree, fun he => hc.putCell (ht he) hsame hlive.1 fun h0 => absurd rfl h0⟩
  unfold removeFile
  refine Program.wlp_bind _ (getInode_wlp hlive.1 ?_)
  rw [BlockManager.getInode, if_neg hlive.2]
  refine Program.wlp_seq _ (freeUpTo_wlp _) fun _ s h => ?_
  have hdirect : ∀ j < nDirect, s₀.slot n (.data j) = (s₀.inode n).slot j :=
    fun j hj => if_pos hj
  by_cases hbig : nDirect < s₀.blocks n
  · have hbig' : nDirect < (blockCount (s₀.inode n).size).toNat := hbig
    have hslot := hc.slots n hlive nDirect le_rfl hbig
    rw [if_pos hbig']
    refine Program.wlp_bind _ (readBlock_wlp ?_)
    rw [h.disk, s₀.d.readBlock_of_lt hslot.2, Option.getD_some]
    refine Program.wlp_seq _ (freeUpTo_wlp _) fun _ s' h' => ?_
    refine Program.wlp_bind _ (freeBlock_wlp ?_)
    have hentry : ∀ j, nDirect ≤ j → s₀.slot n (.data j) =
        (s₀.d ((s₀.inode n).slot nDirect).toNat).entry (j - nDirect) :=
      fun j hj => if_neg (Nat.not_lt.mpr hj)
    apply hfinish
    · exact h'.disk.trans h.disk
    · have hmono : ∀ b, s'.blockBitmap.test b = false →
          (s'.blockBitmap.clear ((s₀.inode n).slot nDirect)).test b = false := by
        intro b hb
        rw [Bitmap.test_clear, hb, ite_self]
      intro p hp
      cases p with
      | indirect =>
        change (s'.blockBitmap.clear _).test ((s₀.inode n).slot nDirect) = false
        rw [Bitmap.test_clear, if_pos rfl]
      | data j =>
        have hj : j < s₀.blocks n := hp
        by_cases hjd : j < nDirect
        · rw [hdirect j hjd]
          exact hmono _ (h'.mono _ (h.cleared j (lt_min hjd hj)))
        · have hj' : j - nDirect < min nIndirect
              ((blockCount (s₀.inode n).size).toNat - nDirect) := by
            have he : (blockCount (s₀.inode n).size).toNat = s₀.blocks n := rfl
            simp only [maxFile] at hblocks
            omega
          rw [hentry j (Nat.not_lt.mp hjd)]
          exact hmono _ (h'.cleared _ hj')
    · intro he
      refine TableMarked.clear (h'.table (h.table hc.table fun i hi => ?_) fun i hi => ?_) hslot.1
      · have hi' : i < nDirect ∧ i < s₀.blocks n := lt_min_iff.mp hi
        exact (hc.slots n hlive i hi'.1.le hi'.2).1
      · have hi' : i < (blockCount (s₀.inode n).size).toNat - nDirect := (lt_min_iff.mp hi).2
        have hb : (blockCount (s₀.inode n).size).toNat = s₀.blocks n := rfl
        have hne := he (nDirect + i) (Nat.le_add_right _ _) (by omega)
        rwa [hentry _ (Nat.le_add_right _ _), Nat.add_sub_cancel_left] at hne
  · have hbig' : ¬ nDirect < (blockCount (s₀.inode n).size).toNat := hbig
    rw [if_neg hbig']
    apply hfinish s h.disk
    · intro p hp
      cases p with
      | indirect => exact absurd hp hbig
      | data j =>
        have hj : j < s₀.blocks n := hp
        have hjd : j < nDirect := by omega
        rw [hdirect j hjd]
        exact h.cleared j (lt_min hjd hj)
    · intro _
      refine h.table hc.table fun i hi => ?_
      have hi' : i < nDirect ∧ i < s₀.blocks n := lt_min_iff.mp hi
      exact (hc.slots n hlive i hi'.1.le hi'.2).1

end RemoveFile

/-- What a request must not do for the table to stay intact: put more than `maxFile`
blocks, or go through an indirect block that leads into the table. -/
structure Call.Bounded (c : Call) (s : BlockManager) : Prop where
  put : ∀ id buf, c.request = .put id buf → s.Live (inumOf id) →
    buf.length ≤ maxFile * blockSize ∧
      (nDirect < s.blocks (inumOf id) → nDirect < blocksOf buf.length →
        s.IndirectFine (inumOf id) (blocksOf buf.length))
  remove : ∀ id, c.request = .remove id → s.Live (inumOf id) →
    ∀ j, nDirect ≤ j → j < s.blocks (inumOf id) → ¬ IsTable (s.slot (inumOf id) (.data j))

section Serve

variable {s : BlockManager} {n : ℕ}

theorem serve_put (id : UInt64) (buf : List UInt8) (junk : Junk) (s : BlockManager) :
    (serve ⟨.put id buf, junk⟩ s).2 =
      ((writeFile junk (inumOf id) (cstr junk buf) (Int32.ofNat buf.length)).run exec s).2 := by
  rw [serve, Call.handler, Request.handler, ExtentServer.put, Program.run_bind]
  rfl

theorem serve_remove (id : UInt64) (junk : Junk) (s : BlockManager) :
    (serve ⟨.remove id, junk⟩ s).2 = ((removeFile junk (inumOf id)).run exec s).2 := by
  rw [serve, Call.handler, Request.handler, ExtentServer.remove, Program.run_bind]
  rfl

theorem serve_create (type : UInt32) (junk : Junk) (s : BlockManager) :
    (serve ⟨.create type, junk⟩ s).2 = ((allocInode junk type).run exec s).2 := by
  rw [serve, Call.handler, Request.handler, ExtentServer.create, Program.run_bind]
  rfl

theorem serve_getattr (id : UInt64) (junk : Junk) (s : BlockManager) :
    (serve ⟨.getattr id, junk⟩ s).2 = s := by
  rw [serve, Call.handler, Request.handler, ExtentServer.getattr, Program.run_bind]
  exact getattr_state junk s _ _

theorem serve_get (id : UInt64) (junk : Junk) (s : BlockManager) :
    (serve ⟨.get id, junk⟩ s).2 = ((readFile junk (inumOf id)).run exec s).2 := by
  rw [serve, Call.handler, Request.handler, ExtentServer.get, Program.run_bind]
  cases ((readFile junk (inumOf id)).run exec s).1 with
  | none => rfl
  | some x =>
    dsimp only
    split_ifs <;> rfl

theorem Contained.readFile_run (hc : Contained s) (junk : Junk) (hl : s.Live n) :
    ((readFile junk n).run exec s).1 ≠ none ∧ ((readFile junk n).run exec s).2 = s := by
  obtain ⟨hs, out, hr, -⟩ := readFile_wlp junk hl.1 hl.2 (hc.size n hl)
    (Program.always_true exec (readFile junk n) s)
  rw [hr]
  exact ⟨Option.some_ne_none _, hs⟩

theorem Contained.allocInode (hc : Contained s) (junk : Junk) (type : UInt32) :
    Contained ((Store.allocInode junk type).run exec s).2 := by
  rcases findFreeInode_run junk s with ⟨i, -, hi, -, -, hfind⟩ | ⟨-, hfind⟩
  · rw [allocInode_run hi type hfind]
    refine hc.putCell hc.table (fun _ _ => rfl) hi fun _ => ⟨Nat.zero_le _, fun j _ hj => ?_⟩
    have h0 : (blockCount 0).toNat = 0 := by decide
    have hj' : j < (blockCount 0).toNat := hj
    omega
  · rw [Store.allocInode, Program.run_bind, hfind]
    exact hc

theorem Contained.serve (hc : Contained s) (c : Call) (hb : c.Bounded s) :
    Contained (Store.serve c s).2 := by
  obtain ⟨r, junk⟩ := c
  cases r with
  | create type =>
    rw [serve_create]
    exact hc.allocInode junk type
  | put id buf =>
    rw [serve_put]
    by_cases hl : s.Live (inumOf id)
    · obtain ⟨hsize, hfine⟩ := hb.put id buf rfl hl
      exact (writeFile_contained hc hl hsize hfine (Program.always_true exec _ s)).contained
    · rw [writeFile_dead junk hl]
      exact hc
  | get id =>
    rw [serve_get]
    by_cases hl : s.Live (inumOf id)
    · rw [(hc.readFile_run junk hl).2]
      exact hc
    · rw [readFile_dead junk hl]
      exact hc
  | getattr id =>
    rw [serve_getattr]
    exact hc
  | remove id =>
    rw [serve_remove]
    by_cases hl : s.Live (inumOf id)
    · exact (removeFile_wlp junk hc hl (Program.always_true exec _ s)).2 (hb.remove id rfl hl)
    · rw [removeFile_dead junk hl]
      exact hc

variable {ls : ℕ → Share} {m : Files}

theorem Represents.slot_data (h : Represents ls m s) (hl : s.Live n) {p : Pos}
    (hp : p.InUse (s.blocks n)) : IsData (s.slot n p) := by
  obtain ⟨f, hf⟩ := Option.ne_none_iff_exists'.mp (h.live_iff.mp hl)
  rw [h.blocks_eq hf] at hp
  rw [h.slot_eq hf hp]
  exact h.valid.held_isSome_data ((h.stores hf).inUse p hp)

theorem IsData.fine {b : BlockId} (h : IsData b) : Fine b :=
  ⟨fun ht => Nat.not_lt.mpr h.1 ht.2, h.2⟩

theorem Represents.contained (h : Represents ls m s) : Contained s := by
  refine ⟨⟨h.valid.numBits, fun b hb => h.valid.reserved b hb.2⟩, fun n hl => ?_,
    fun n hl j hj hlt => ?_⟩
  · obtain ⟨f, hf⟩ := Option.ne_none_iff_exists'.mp (h.live_iff.mp hl)
    have hst := h.stores hf
    rw [h.inode_eq hl.1, hst.size_eq]
    exact hst.length_lt.le
  · obtain rfl | hne := eq_or_ne j nDirect
    · exact (h.slot_data (p := .indirect) hl hlt).fine
    · have hslot : s.slot n (.data j) = (s.inode n).slot j := if_pos (by omega)
      rw [← hslot]
      exact (h.slot_data (p := .data j) hl hlt).fine

theorem Represents.indirectFine (h : Represents ls m s) (hl : s.Live n)
    (hbig : nDirect < s.blocks n) (cur : ℕ) : s.IndirectFine n cur := by
  refine ⟨fun j hj he => ?_, fun j _ _ hj => (h.slot_data (p := .data j) hl hj).fine.1⟩
  obtain ⟨f, hf⟩ := Option.ne_none_iff_exists'.mp (h.live_iff.mp hl)
  rw [h.blocks_eq hf] at hbig
  have hjin : (Pos.data j).InUse (blocksOf f.bytes.length) := hj.trans hbig
  have hiin : Pos.indirect.InUse (blocksOf f.bytes.length) := hbig
  have hslot : (ls n).slotAt (.data j) = (ls n).slotAt .indirect := by
    rw [← h.slot_eq hf hjin, ← h.slot_eq hf hiin]
    exact (if_pos hj).trans he
  cases (h.stores hf).inj _ _ hjin hiin hslot

/-- No request of a safe run leads into the table. -/
theorem Represents.bounded (h : Represents ls m s) (c : Call) (hfits : c.request.Fits) :
    c.Bounded s := by
  constructor
  · intro id buf hr hl
    rw [hr] at hfits
    exact ⟨length_of_fits (Nat.le_of_lt hfits), fun hbig _ => h.indirectFine hl hbig _⟩
  · intro id _ hl j _ hj
    exact (h.slot_data (p := .data j) hl hj).fine.1

theorem Represents.bounded_of_safe (h : Represents ls m s) {calls : List Call}
    (hsafe : Along Call.Safe calls s) : Along Call.Bounded calls s := by
  induction calls generalizing ls m s with
  | nil => trivial
  | cons c calls ih =>
    obtain ⟨⟨_, hfits, hpre⟩, hrest⟩ := hsafe
    obtain ⟨ls', m', -, h'⟩ := h.serve c hfits fun _ _ _ => hpre
    exact ⟨h.bounded c hfits, ih h' hrest⟩

end Serve

/-- In a run of bounded requests every live size is representable, `read_file` stays
inside the indirect block, and `remove_file` frees all blocks of its inum. -/
theorem sizes_bounded (junk : Junk) (calls : List Call)
    (hrun : Along Call.Bounded calls (freshServer junk)) (n : ℕ)
    (hlive : (serveAll calls (freshServer junk)).Live n) :
    ((serveAll calls (freshServer junk)).inode n).size.toNat ≤ maxFile * blockSize ∧
      (∀ junk', ((readFile junk' n).run exec (serveAll calls (freshServer junk))).1 ≠ none) ∧
      ∀ (junk' : Junk) (p : Pos), p.InUse ((serveAll calls (freshServer junk)).blocks n) →
        ((removeFile junk' n).run exec (serveAll calls (freshServer junk))).2.blockBitmap.test
          ((serveAll calls (freshServer junk)).slot n p) = false := by
  obtain ⟨ls, h, -⟩ := freshServer_represents junk
  have hc : Contained (serveAll calls (freshServer junk)) :=
    EachStep.invariant _ (fun c s hc hb => hc.serve c hb) h.contained hrun
  refine ⟨hc.size n hlive, fun junk' => (hc.readFile_run junk' hlive).1, fun junk' p hp => ?_⟩
  exact (removeFile_wlp junk' hc hlive (Program.always_true exec _ _)).1 p hp

theorem sizes_bounded_example :
    ((serveAll [⟨.put 1 [7], noJunk⟩] (freshServer noJunk)).inode 1).size.toNat ≤
      maxFile * blockSize := by
  obtain ⟨ls, h, -⟩ := freshServer_represents noJunk
  have hfits : blocksOf ([7] : List UInt8).length < maxFile := by decide
  have hsafe := safe_put_cons noJunk 1 [] hfits (fun c hc => absurd hc (List.not_mem_nil))
  have hf : rootOnly (inumOf 1) = some ⟨1, []⟩ := rfl
  have hone : inumOf 1 = 1 := by decide
  obtain ⟨-, l', -, h'⟩ := h.put hf hfits hsafe.1.2.2
  refine (sizes_bounded noJunk [⟨.put 1 [7], noJunk⟩] (h.bounded_of_safe hsafe) 1 ?_).1
  have hlive := h'.live_iff (n := 1)
  rw [hone, Function.update_self] at hlive
  exact hlive.mpr (Option.some_ne_none _)

/-- The size that `write_file` stores is the one it is called with, however large. -/
theorem writeFile_size {A : Cmd → BlockManager → Prop} {s : BlockManager} {n : ℕ}
    (hl : s.Live n) (junk : Junk) (buf : ℕ → UInt8) (size : Int32) :
    (writeFile junk n buf size).wlp exec A (fun _ s' =>
      (s'.inode n).type = (s.inode n).type ∧ (s'.inode n).size = size.toUInt32) s := by
  have hput : ∀ (ino : Inode) (s' : BlockManager), ino.type = (s.inode n).type →
      (putInode junk n { ino with size := size.toUInt32 }).wlp exec A (fun _ s' =>
        (s'.inode n).type = (s.inode n).type ∧ (s'.inode n).size = size.toUInt32) s' := by
    intro ino s' htype
    refine putInode_wlp hl.1 ?_
    rw [BlockManager.inode_putCell_self hl.1]
    exact ⟨htype, rfl⟩
  have hindirect : ∀ (orig cur : ℕ) (ino : Inode) (ind : Block) (s' : BlockManager),
      ino.type = (s.inode n).type →
      (Program.loop (writeIndirect buf orig cur ino) nIndirect nDirect ind).wlp exec A
        (fun _ _ => True) s' :=
    fun _ _ _ _ _ _ _ => trivial
  unfold writeFile
  refine Program.wlp_bind _ (getInode_wlp hl.1 ?_)
  rw [BlockManager.getInode, if_neg hl.2]
  refine Program.wlp_seq exec (P := fun ino _ => ino.type = (s.inode n).type) ?_ ?_
  · refine Program.wlp_loop exec (fun _ ino _ => ino.type = (s.inode n).type) rfl ?_ fun _ _ h => h
    intro i ino s' _ _ h
    unfold writeDirect
    split_ifs
    · exact Program.wlp_bind _ (writeBlock_wlp (Program.wlp_pure _ h))
    · refine Program.wlp_bind _ (allocBlock_wlp fun _ => ?_)
      exact Program.wlp_bind _ (writeBlock_wlp (Program.wlp_pure _ h))
    · exact Program.wlp_pure _ h
  · intro ino s' h
    dsimp only
    split_ifs
    · refine Program.wlp_bind _ ?_
      unfold openIndirect
      split_ifs
      · refine Program.wlp_bind _ (readBlock_wlp (Program.wlp_pure _ ?_))
        exact Program.wlp_seq _ (hindirect _ _ _ _ _ h) fun _ s'' _ => hput ino s'' h
      · refine Program.wlp_bind _ (allocBlock_wlp fun _ => Program.wlp_pure _ ?_)
        exact Program.wlp_seq _ (hindirect _ _ _ _ _ h) fun _ s'' _ => hput _ s'' h
    · exact hput ino s' h

/-- One byte more than `maxFile` blocks hold. -/
@[irreducible] def oversize : List UInt8 := List.replicate (maxFile * blockSize + 1) 1

theorem sizes_unbounded :
    (serveAll [⟨.put 1 oversize, noJunk⟩] (freshServer noJunk)).Live 1 ∧
      ¬ ((serveAll [⟨.put 1 oversize, noJunk⟩] (freshServer noJunk)).inode 1).size.toNat ≤
        maxFile * blockSize := by
  obtain ⟨ls, h, -⟩ := freshServer_represents noJunk
  have hone : inumOf 1 = 1 := by decide
  have hlive : (freshServer noJunk).Live 1 := h.live_iff.mpr (Option.some_ne_none _)
  have hlen : oversize.length = 81921 := by
    rw [oversize, List.length_replicate]
    rfl
  have hrun : serveAll [⟨.put 1 oversize, noJunk⟩] (freshServer noJunk) =
      ((writeFile noJunk 1 (cstr noJunk oversize) (Int32.ofNat oversize.length)).run exec
        (freshServer noJunk)).2 := by
    rw [serveAll_cons, serveAll_nil, serve_put, hone]
  obtain ⟨htype, hsize⟩ := writeFile_size hlive noJunk (cstr noJunk oversize)
    (Int32.ofNat oversize.length) (Program.always_true exec _ _)
  rw [hrun]
  refine ⟨⟨hlive.1, ?_⟩, ?_⟩
  · rw [htype]
    exact hlive.2
  · rw [hsize, hlen, toUInt32_ofNat_toNat (by decide)]
    decide

end Yfs.Store
