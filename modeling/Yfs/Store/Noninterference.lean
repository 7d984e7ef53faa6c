import Yfs.Store.Capacity
import Yfs.Store.WritePair

/-! The bytes of the files have no influence on what the block layer is asked to do, as
long as no file has exactly `maxFile` blocks. -/
namespace Yfs.Store
open Effect

section Operations

variable {ls : ℕ → Share} {m : Files} {s s' : BlockManager} {n : ℕ} {junk junk' : Junk}

/-- In both states the words of the indirect block of a file lead to the same blocks. -/
theorem Alike.entry (ha : Alike s s') (hlive : s.Live n) {i : ℕ}
    (hi : nDirect + i < s.blocks n) :
    (s'.d ((s.inode n).slot nDirect).toNat).entry i =
      (s.d ((s.inode n).slot nDirect).toNat).entry i := by
  have hslot := ha.slots.slot n hlive (.data (nDirect + i)) hi
  rw [BlockManager.slot, BlockManager.slot, ha.slots.inode n hlive.1, slotOf, slotOf,
    if_neg (by omega), if_neg (by omega), Nat.add_sub_cancel_left] at hslot
  exact hslot

/-- Only the bitmaps have changed, in the same way. -/
structure Freed (s₀ s₀' s s' : BlockManager) : Prop where
  bitmap : s.blockBitmap = s'.blockBitmap
  disk : s.d = s₀.d
  disk' : s'.d = s₀'.d

theorem freeUpTo_pair {s₀ s₀' : BlockManager} {count rem : ℕ} {block block' : ℕ → BlockId}
    (hblock : ∀ i < count, block' i = block i) (h : Freed s₀ s₀' s s') :
    Pair (Program.loop (freeUpTo count block) rem 0 ()) (Program.loop (freeUpTo count block') rem 0 ())
      (fun _ _ s s' => Freed s₀ s₀' s s') s s' := by
  refine Program.lockstep_loop exec (fun _ _ _ s s' => Freed s₀ s₀' s s') h ?_ fun _ _ _ _ h => h
  intro i _ _ s s' _ _ h
  unfold freeUpTo
  split_ifs with hi
  · rw [hblock i hi]
    refine Program.lockstep_bind _ (freeBlock_pair (Program.lockstep_pure _ ?_))
    exact ⟨by rw [h.bitmap], h.disk, h.disk'⟩
  · exact Program.lockstep_pure _ h

theorem freeInode_pair {s₀ s₀' : BlockManager} (hr : Represents ls m s₀) (ha : Alike s₀ s₀')
    (h : Freed s₀ s₀' s s') :
    Pair (freeInode junk n) (freeInode junk' n) (fun _ _ s s' => Alike s s') s s' := by
  have hi : ∀ k, s.inode k = s₀.inode k := fun k => by
    rw [BlockManager.inode, h.disk]
    rfl
  have hi' : ∀ k, s'.inode k = s₀'.inode k := fun k => by
    rw [BlockManager.inode, h.disk']
    rfl
  have hs : ∀ k p, s.slot k p = s₀.slot k p := fun k p => by
    rw [BlockManager.slot, hi, h.disk]
    rfl
  have hs' : ∀ k p, s'.slot k p = s₀'.slot k p := fun k p => by
    rw [BlockManager.slot, hi', h.disk']
    rfl
  have hb : ∀ k, s.blocks k = s₀.blocks k := fun k => by
    rw [BlockManager.blocks, hi]
    rfl
  have hl : ∀ k, s.Live k → s₀.Live k := fun k hl => ⟨hl.1, by rw [← hi]; exact hl.2⟩
  have hsame : SameInodes s s' := fun k hk => by rw [hi, hi', ha.slots.inode k hk]
  have hslot : ∀ k, s.Live k → ∀ p : Pos, p.InUse (s.blocks k) → s'.slot k p = s.slot k p := by
    intro k hk p hp
    rw [hb] at hp
    rw [hs, hs', ha.slots.slot k (hl k hk) p hp]
  refine Program.lockstep_bind _ (getInode_pair hsame ?_ ?_)
  · exact fun _ => Program.lockstep_pure _ ⟨h.bitmap, hsame, hslot⟩
  intro hlive
  refine putInode_pair hlive.1 (alike_putCell hlive.1 h.bitmap ?_ ?_ ?_ ?_)
  · exact fun k hk _ => hsame k hk
  · exact fun k _ hk p hp => hslot k hk p hp
  · intro k _ hk hbig
    rw [hb] at hbig
    rw [hs]
    exact hr.slot_data (hl k hk) (p := .indirect) hbig
  · exact fun h0 => absurd rfl h0

theorem removeFile_pair (hr : Represents ls m s) (ha : Alike s s') :
    Pair (removeFile junk n) (removeFile junk' n) (fun _ _ s s' => Alike s s') s s' := by
  refine Program.lockstep_bind _ (getInode_pair ha.slots.inode ?_ ?_)
  · exact fun _ => Program.lockstep_pure _ ha
  intro hlive
  refine Program.lockstep_seq _ (freeUpTo_pair (fun _ _ => rfl) ⟨ha.bitmap, rfl, rfl⟩) ?_
  intro _ _ t t' h
  by_cases hbig : nDirect < s.blocks n
  · have hbig' : nDirect < (blockCount (s.inode n).size).toNat := hbig
    have hdata : ((s.inode n).slot nDirect).toNat < blockNum :=
      (hr.slot_data hlive (p := .indirect) hbig).2
    rw [if_pos hbig', if_pos hbig']
    refine Program.lockstep_bind _ (readBlock_pair ?_)
    rw [t.d.readBlock_of_lt hdata, t'.d.readBlock_of_lt hdata, Option.getD_some,
      Option.getD_some, h.disk, h.disk']
    refine Program.lockstep_seq _ (freeUpTo_pair (fun i hi => ha.entry hlive ?_) h) ?_
    · have hi' : i < s.blocks n - nDirect := hi
      omega
    · intro _ _ u u' hu
      refine Program.lockstep_bind _ (freeBlock_pair (freeInode_pair hr ha ?_))
      exact ⟨by rw [hu.bitmap], hu.disk, hu.disk'⟩
  · have hbig' : ¬ nDirect < (blockCount (s.inode n).size).toNat := hbig
    rw [if_neg hbig', if_neg hbig']
    exact freeInode_pair hr ha h

/-- Two reads have got equally far. -/
def ReadSame (s s' : BlockManager) (x x' : ReadState) (t t' : BlockManager) : Prop :=
  x'.readSize = x.readSize ∧ t = s ∧ t' = s'

theorem copyBlock_pair {size : ℕ} {id : BlockId} {x x' : ReadState}
    (hx : x'.readSize = x.readSize) :
    Pair (copyBlock size id x) (copyBlock size id x') (fun y y' t t' =>
      ReadSame s s' y y' t t' ∧ y.readSize = x.readSize + blockSize) s s' := by
  refine Program.lockstep_bind _ (readBlock_pair (Program.lockstep_pure _ ⟨⟨?_, rfl, rfl⟩, rfl⟩))
  dsimp only
  rw [hx]

theorem readFile_pair (hr : Represents ls m s) (ha : Alike s s') :
    Pair (readFile junk n) (readFile junk' n) (fun _ _ t t' => t = s ∧ t' = s') s s' := by
  refine Program.lockstep_bind _ (getInode_pair ha.slots.inode ?_ ?_)
  · exact fun _ => Program.lockstep_pure _ ⟨rfl, rfl⟩
  intro hlive
  have hblocks : s.blocks n = blocksOf (s.inode n).size.toNat := by
    obtain ⟨f, hf⟩ := Option.ne_none_iff_exists'.mp (hr.live_iff.mp hlive)
    rw [hr.blocks_eq hf, hr.inode_eq hlive.1, (hr.stores hf).size_eq]
  have hmore : ∀ i, i * blockSize < (s.inode n).size.toNat ↔ i < s.blocks n := by
    intro i
    rw [hblocks, lt_blocksOf_iff]
  have hfinish : ∀ x x' : ReadState, x'.readSize = x.readSize →
      Pair (if x.readSize < (s.inode n).size.toNat then pure none
          else pure (some ⟨Function.update x.out (s.inode n).size.toNat 0,
            (s.inode n).size.toInt32⟩) : Prog (Option FileData))
        (if x'.readSize < (s.inode n).size.toNat then pure none
          else pure (some ⟨Function.update x'.out (s.inode n).size.toNat 0,
            (s.inode n).size.toInt32⟩) : Prog (Option FileData))
        (fun _ _ t t' => t = s ∧ t' = s') s s' := by
    intro x x' hx
    rw [hx]
    split_ifs <;> exact Program.lockstep_pure _ ⟨rfl, rfl⟩
  refine Program.lockstep_seq exec (P := fun x x' t t' => ReadSame s s' x x' t t' ∧
    (x.readSize < (s.inode n).size.toNat → x.readSize = nDirect * blockSize)) ?_ ?_
  · refine Program.lockstep_loop exec (fun i x x' t t' => ReadSame s s' x x' t t' ∧
      x.readSize = i * blockSize) ⟨⟨rfl, rfl, rfl⟩, rfl⟩ ?_ ?_
    · rintro i x x' s s' - - ⟨⟨hx, rfl, rfl⟩, hi⟩
      unfold readDirect
      rw [hx]
      split_ifs with hs
      · exact Program.lockstep_pure _ ⟨⟨hx, rfl, rfl⟩, fun hlt => absurd hlt (Nat.not_lt.mpr hs)⟩
      · refine Program.lockstep_seq _ (copyBlock_pair hx) ?_
        rintro y y' s s' ⟨⟨hy, rfl, rfl⟩, hy'⟩
        refine Program.lockstep_pure _ ⟨⟨hy, rfl, rfl⟩, ?_⟩
        rw [hy', hi, Nat.succ_mul]
    · rintro x x' t t' ⟨h, hx⟩
      rw [Nat.zero_add] at hx
      exact ⟨h, fun _ => hx⟩
  · rintro x x' s s' ⟨⟨hx, rfl, rfl⟩, hsize⟩
    dsimp only
    rw [hx]
    by_cases hs : x.readSize < (s.inode n).size.toNat
    · have hbig : nDirect < s.blocks n := by
        rw [← hmore, ← hsize hs]
        exact hs
      have hdata : ((s.inode n).slot nDirect).toNat < blockNum :=
        (hr.slot_data hlive (p := .indirect) hbig).2
      rw [if_pos hs, if_pos hs]
      refine Program.lockstep_bind _ (readBlock_pair ?_)
      rw [s.d.readBlock_of_lt hdata, s'.d.readBlock_of_lt hdata, Option.getD_some,
        Option.getD_some]
      refine Program.lockstep_seq _ (P := fun x x' t t' => ReadSame s s' x x' t t')
        (Program.lockstep_loop exec (fun i x x' t t' => ReadSame s s' x x' t t' ∧
          x.readSize = (nDirect + i) * blockSize ∧ nDirect + i < s.blocks n)
          ⟨⟨hx, rfl, rfl⟩, hsize hs, hbig⟩ ?_ fun _ _ _ _ h => h.1) ?_
      · rintro i x x' s s' - - ⟨⟨hx, rfl, rfl⟩, hi, hlt⟩
        unfold readIndirect
        rw [ha.entry hlive hlt]
        refine Program.lockstep_seq _ (copyBlock_pair hx) ?_
        rintro y y' s s' ⟨⟨hy, rfl, rfl⟩, hy'⟩
        have hnext : y.readSize = (nDirect + i + 1) * blockSize := by
          rw [hy', hi, Nat.succ_mul]
        rw [hy]
        split_ifs with hm
        · refine Program.lockstep_pure _ ⟨⟨hy, rfl, rfl⟩, hnext, ?_⟩
          rwa [hnext, hmore] at hm
        · exact Program.lockstep_pure _ ⟨hy, rfl, rfl⟩
      · rintro y y' s s' ⟨hy, rfl, rfl⟩
        exact hfinish y y' hy
    · rw [if_neg hs, if_neg hs]
      exact Program.lockstep_bind _ (Program.lockstep_pure _ (hfinish x x' hx))

theorem findFreeInode_pair (ha : Alike s s') :
    Pair (findFreeInode junk) (findFreeInode junk')
      (fun i i' t t' => i' = i ∧ (∀ k ∈ i, k < inodeNum) ∧ t = s ∧ t' = s') s s' := by
  refine Program.lockstep_loop exec (fun _ i i' t t' => i = none ∧ i' = none ∧ t = s ∧ t' = s')
    ⟨rfl, rfl, rfl, rfl⟩ ?_ ?_
  · rintro i _ _ s s' hi hlt ⟨rfl, rfl, rfl, rfl⟩
    refine Program.lockstep_bind _ (getInode_pair ha.slots.inode ?_ ?_)
    · refine fun _ => Program.lockstep_pure _ ⟨rfl, fun k hk => ?_, rfl, rfl⟩
      obtain rfl := Option.mem_some.mp hk
      omega
    · exact fun _ => Program.lockstep_pure _ ⟨rfl, rfl, rfl, rfl⟩
  · rintro _ _ t t' ⟨rfl, rfl, rfl, rfl⟩
    exact ⟨rfl, fun k hk => absurd hk (Option.not_mem_none k), rfl, rfl⟩

theorem allocInode_pair (hr : Represents ls m s) (ha : Alike s s') (type : UInt32) :
    Pair (allocInode junk type) (allocInode junk' type) (fun _ _ s s' => Alike s s') s s' := by
  refine Program.lockstep_seq _ (findFreeInode_pair ha) ?_
  rintro _ i s s' ⟨rfl, hi, rfl, rfl⟩
  cases i with
  | none => exact Program.lockstep_pure _ ha
  | some i =>
    refine Program.lockstep_bind _ (putInode_pair (hi i rfl) (Program.lockstep_pure _ ?_))
    have h0 : (blockCount 0).toNat ≤ nDirect := by decide
    exact (InStep.start hr ha).putCell hr (hi i rfl) fun _ => h0

theorem getattr_pair (ha : Alike s s') (a a' : Attr) :
    Pair (getattr junk n a) (getattr junk' n a') (fun _ _ s s' => Alike s s') s s' := by
  refine Program.lockstep_bind _ (getInode_pair ha.slots.inode ?_ ?_)
  · exact fun _ => Program.lockstep_pure _ ha
  · exact fun _ => Program.lockstep_pure _ ha

end Operations

/-- Two requests that differ at most in the bytes that they put. -/
inductive Request.Similar : Request → Request → Prop where
  | put {id : UInt64} {buf buf' : List UInt8} (h : buf'.length = buf.length) :
    Similar (.put id buf) (.put id buf')
  | same (r : Request) : Similar r r

def Call.Similar (c c' : Call) : Prop := c.request.Similar c'.request

/-- A put on a live inum spans fewer than `maxFile` blocks, and every allocation finds a
clear bit. -/
structure Call.Steady (c : Call) (s : BlockManager) : Prop where
  fits : ∀ id buf, c.request = .put id buf → s.Live (inumOf id) → blocksOf buf.length < maxFile
  finds : c.handler.Always exec FindsClear s

/-- What an observer of the block layer sees of a run, request by request. -/
def accesses : List Call → BlockManager → List (List Access)
  | [], _ => []
  | c :: calls, s =>
    (c.handler.trace exec s).map Cmd.access :: accesses calls (serve c s).2

section Serve

variable {ls : ℕ → Share} {m : Files} {s s' : BlockManager}

theorem Represents.steady_step (h : Represents ls m s) {c : Call} (hc : c.Steady s) :
    ∃ ls' m', Represents ls' m' (Store.serve c s).2 := by
  by_cases hfits : c.request.Fits
  · obtain ⟨ls', m', -, h'⟩ := h.serve c hfits fun _ _ _ => hc.finds
    exact ⟨ls', m', h'⟩
  · obtain ⟨r, junk⟩ := c
    cases r with
    | put id buf =>
      have hdead : ¬ s.Live (inumOf id) := fun hl => hfits (hc.fits id buf rfl hl)
      rw [serve_put, writeFile_dead junk hdead]
      exact ⟨ls, m, h⟩
    | _ => exact absurd trivial hfits

/-- One request, and a similar one in a state that is alike. -/
theorem serve_pair (h : Represents ls m s) (ha : Alike s s') {c c' : Call}
    (hsim : c.Similar c') (hc : c.Steady s) :
    Pair c.handler c'.handler (fun _ _ t t' => Alike t t') s s' := by
  obtain ⟨r, junk⟩ := c
  obtain ⟨r', junk'⟩ := c'
  have hput : ∀ id (buf buf' : List UInt8), buf'.length = buf.length →
      (s.Live (inumOf id) → blocksOf buf.length < maxFile) →
      Pair (ExtentServer.put junk id buf) (ExtentServer.put junk' id buf')
        (fun _ _ t t' => Alike t t') s s' := by
    intro id buf buf' hlen hfits
    unfold ExtentServer.put
    rw [hlen]
    refine Program.lockstep_seq _ (writeFile_pair h ha ?_) fun _ _ _ _ ha' =>
      Program.lockstep_pure _ ha'
    intro hl
    obtain ⟨hcur, hsize⟩ := int_of_length (hfits hl).le
    have hlt := length_of_fits (hfits hl).le
    simp only [maxFile, nDirect, nIndirect, blockSize] at hlt
    refine ⟨by rw [hcur]; exact hfits hl, UInt32.toNat_inj.mp ?_⟩
    rw [hcur, blockCount_toNat (by omega), hsize]
  cases hsim with
  | put hlen => exact hput _ _ _ hlen (hc.fits _ _ rfl)
  | same =>
    cases r with
    | create type =>
      refine Program.lockstep_seq _ (allocInode_pair h ha type) fun _ _ _ _ ha' =>
        Program.lockstep_pure _ ha'
    | put id buf => exact hput id buf buf rfl (hc.fits id buf rfl)
    | get id =>
      refine Program.lockstep_seq _ (readFile_pair h ha) ?_
      rintro (_ | x) (_ | x') t t' ⟨rfl, rfl⟩ <;> dsimp only
      · exact Program.lockstep_pure _ ha
      · split_ifs <;> exact Program.lockstep_pure _ ha
      · split_ifs <;> exact Program.lockstep_pure _ ha
      · split_ifs <;> exact Program.lockstep_pure _ ha
    | getattr id =>
      refine Program.lockstep_seq _ (getattr_pair ha _ _) fun _ _ _ _ ha' =>
        Program.lockstep_pure _ ha'
    | remove id =>
      refine Program.lockstep_seq _ (removeFile_pair h ha) fun _ _ _ _ ha' =>
        Program.lockstep_pure _ ha'

theorem Represents.lockstep (h : Represents ls m s) (ha : Alike s s') {calls calls' : List Call}
    (hsim : List.Forall₂ Call.Similar calls calls') (hrun : Along Call.Steady calls s) (k : ℕ) :
    Alike (serveAll (calls.take k) s) (serveAll (calls'.take k) s') ∧
      accesses calls s = accesses calls' s' := by
  induction hsim generalizing ls m s s' k with
  | nil =>
    rw [List.take_nil, serveAll_nil, serveAll_nil]
    exact ⟨ha, rfl⟩
  | @cons c c' calls calls' hc _ ih =>
    obtain ⟨ls', m', h'⟩ := h.steady_step hrun.1
    obtain ⟨htrace, ha'⟩ := serve_pair h ha hc hrun.1 hrun.1.finds
    have hrest := ih h' ha' hrun.2
    constructor
    · cases k with
      | zero => exact ha
      | succ k =>
        rw [List.take_succ_cons, List.take_succ_cons, serveAll_cons, serveAll_cons]
        exact (hrest k).1
    · rw [accesses, accesses, htrace, (hrest 0).2]
      rfl

end Serve

/-- Two runs of similar requests go through alike states, with the same accesses to the
block layer. -/
theorem same_accesses (junk junk' : Junk) (calls calls' : List Call)
    (hsim : List.Forall₂ Call.Similar calls calls')
    (hrun : Along Call.Steady calls (freshServer junk)) :
    (∀ k, Alike (serveAll (calls.take k) (freshServer junk))
      (serveAll (calls'.take k) (freshServer junk'))) ∧
      accesses calls (freshServer junk) = accesses calls' (freshServer junk') := by
  obtain ⟨ls, h, -⟩ := freshServer_represents junk
  have ha : Alike (freshServer junk) (freshServer junk') := by
    rw [freshServer_eq, freshServer_eq]
    exact ⟨rfl, SameSlots.refl _⟩
  exact ⟨fun k => (h.lockstep ha hsim hrun k).1, (h.lockstep ha hsim hrun 0).2⟩

theorem same_accesses_example :
    accesses [⟨.put 1 [7], noJunk⟩] (freshServer noJunk) =
      accesses [⟨.put 1 [8], noJunk⟩] (freshServer noJunk) := by
  have hfits : blocksOf ([7] : List UInt8).length < maxFile := by decide
  have hsafe := safe_put_cons noJunk 1 [] hfits (fun c hc => absurd hc List.not_mem_nil)
  refine (same_accesses noJunk noJunk [⟨.put 1 [7], noJunk⟩] [⟨.put 1 [8], noJunk⟩] ?_
    ⟨⟨?_, hsafe.1.2.2⟩, trivial⟩).2
  · exact .cons (.put rfl) .nil
  · intro id buf hr _
    cases hr
    exact hfits

section Leak

variable {ls : ℕ → Share} {m : Files} {s : BlockManager} {n : ℕ} {junk : Junk}
  {buf : ℕ → UInt8} {size : Int32}

/-- A file of `NDIRECT` blocks that grows to `maxFile` blocks takes its block numbers
from whatever is in the block that becomes its indirect block. -/
theorem writeFile_full_entry (h : Represents ls m s) (hlive : s.Live n)
    (h32 : s.blocks n = nDirect) (hcur : (blockCountInt size).toNat = maxFile)
    (hcount : (blockCount size.toUInt32).toNat = maxFile) :
    (writeFile junk n buf size).wlp exec FindsClear (fun _ s' => s'.Live n ∧
      s'.blocks n = maxFile ∧ s'.slot n (.data nDirect) =
        (s.d s.blockBitmap.find.toNat).entry 0) s := by
  have hn := hlive.1
  refine writeFile_full_wlp (P := fun ino s₁ => s₁.blockBitmap = s.blockBitmap ∧
    ino.type = (s.inode n).type ∧ (FindsClear .find s →
      s₁.d s.blockBitmap.find.toNat = s.d s.blockBitmap.find.toNat))
    hn hlive.2 h32.le hcur ?_ ?_
  · refine Program.wlp_loop exec (fun _ ino s₁ => ino = s.inode n ∧
      s₁.blockBitmap = s.blockBitmap ∧ (FindsClear .find s →
        s₁.d s.blockBitmap.find.toNat = s.d s.blockBitmap.find.toNat))
      ⟨rfl, rfl, fun _ => rfl⟩ ?_ ?_
    · rintro i _ s₁ - hi ⟨rfl, hb, hd⟩
      have hi' : i < nDirect := by omega
      have hmax : i < maxFile := by
        simp only [maxFile]
        omega
      unfold writeDirect
      rw [h32, if_pos ⟨hmax, hi'⟩]
      refine Program.wlp_bind _ (writeBlock_wlp (Program.wlp_pure _ ⟨rfl, hb, fun hc => ?_⟩))
      have hin : i < s.blocks n := by omega
      have hslot : (s.inode n).slot i = s.slot n (.data i) := (if_pos hi').symm
      rw [BlockManager.write_d_of_ne, hd hc]
      intro he
      -- the block that is found is not one of the file
      have hm := h.slot_marked (p := .data i) hlive hin
      rw [← hslot, ← UInt32.toNat_inj.mp he, (h.guarded.find hc).2] at hm
      cases hm
    · rintro _ s₁ ⟨rfl, hb, hd⟩
      exact ⟨hb, rfl, hd⟩
  · intro ino s₁ ⟨hb, htype, hd⟩
    have hg : Guarded s₁ := by
      constructor
      · rw [hb]
        exact h.guarded.numBits
      · rw [hb]
        exact h.guarded.reserved
    refine ⟨hg, fun hc s₂ hk => ?_⟩
    have hc' : FindsClear .find s := by
      unfold FindsClear at hc ⊢
      rwa [hb] at hc
    have hset : (ino.setSlot nDirect s₁.blockBitmap.find).slot nDirect = s₁.blockBitmap.find := by
      rw [Inode.slot_setSlot _ (by decide), if_pos rfl]
    have hne : s₁.blockBitmap.find.toNat ≠ (iblock n sb.nblocks).toNat := by
      have hlt := iblock_lt hn
      have hge := (hg.find hc).1.1
      omega
    refine ⟨⟨hn, ?_⟩, ?_, ?_⟩
    · rw [BlockManager.inode_putCell_self hn]
      exact fun h0 => hlive.2 (htype.symm.trans h0)
    · rw [BlockManager.blocks, BlockManager.inode_putCell_self hn]
      exact hcount
    · rw [BlockManager.slot, BlockManager.inode_putCell_self hn, slotOf, if_neg (by decide),
        Inode.slot_size, hset, BlockManager.putCell, BlockManager.write_d_of_ne hne,
        hk.contents _ (hg.test_alloc_find hc)]
      change (s₁.d s₁.blockBitmap.find.toNat).entry 0 = _
      rw [hb, hd hc']

/-- A put of one block on an empty file. -/
theorem writeFile_one (hg : Guarded s) (hlive : s.Live n) (h0 : s.blocks n = 0)
    (hcur : (blockCountInt size).toNat = 1) :
    (writeFile junk n buf size).wlp exec FindsClear (fun _ s' =>
      s'.blockBitmap = s.blockBitmap.mark s.blockBitmap.find ∧
      (s'.inode n).slot 0 = s.blockBitmap.find ∧ FindsClear .find s ∧
      s'.d s.blockBitmap.find.toNat = piece buf 0) s := by
  have horig : (blockCount (s.inode n).size).toNat = 0 := h0
  have hset : ((s.inode n).setSlot 0 s.blockBitmap.find).slot 0 = s.blockBitmap.find := by
    rw [Inode.slot_setSlot _ (by decide), if_pos rfl]
  unfold writeFile
  refine Program.wlp_bind _ (getInode_wlp hlive.1 ?_)
  rw [BlockManager.getInode, if_neg hlive.2]
  simp only [hcur, horig]
  refine Program.wlp_seq exec (P := fun ino s' =>
    ino = (s.inode n).setSlot 0 s.blockBitmap.find ∧ FindsClear .find s ∧
    s' = s.alloc.write s.blockBitmap.find (piece buf 0)) ?_ ?_
  · refine Program.wlp_loop exec (fun i ino s' => i = 0 ∧ ino = s.inode n ∧ s' = s ∨
      i = 1 ∧ ino = (s.inode n).setSlot 0 s.blockBitmap.find ∧ FindsClear .find s ∧
        s' = s.alloc.write s.blockBitmap.find (piece buf 0)) (Or.inl ⟨rfl, rfl, rfl⟩) ?_ ?_
    · intro i ino s' _ _ hi
      unfold writeDirect
      rcases hi with ⟨rfl, rfl, hs⟩ | ⟨rfl, hi⟩
      · rw [if_neg (by decide), if_pos (by decide), hs]
        refine Program.wlp_bind _ (allocBlock_wlp fun hc => ?_)
        dsimp only
        rw [hset]
        exact Program.wlp_bind _ (writeBlock_wlp (Program.wlp_pure _ (Or.inr ⟨rfl, rfl, hc, rfl⟩)))
      · rw [if_neg (by decide), if_neg (by decide)]
        exact Program.wlp_pure _ hi
    · rintro _ _ (⟨h, -⟩ | ⟨h, -⟩) <;> exact absurd h (by decide)
  · rintro _ _ ⟨rfl, hc, rfl⟩
    rw [if_neg (by decide)]
    obtain ⟨hdata, -⟩ := hg.find hc
    have hne : s.blockBitmap.find.toNat ≠ (iblock n sb.nblocks).toNat := by
      have hlt := iblock_lt hlive.1
      have hge := hdata.1
      omega
    refine putInode_wlp hlive.1 ⟨rfl, ?_, hc, ?_⟩
    · rw [BlockManager.inode_putCell_self hlive.1, Inode.slot_size, hset]
    · rw [BlockManager.putCell, BlockManager.write_d_of_ne hne, BlockManager.write,
        Disk.writeBlock_of_lt _ _ hdata.2]
      exact Function.update_self _ _ _

/-- The block of a file of one block is freed, and keeps its contents. -/
theorem removeFile_one {A : Cmd → BlockManager → Prop} (hlive : s.Live n)
    (h1 : s.blocks n = 1) :
    (removeFile junk n).wlp exec A (fun _ s' =>
      s'.blockBitmap = s.blockBitmap.clear ((s.inode n).slot 0) ∧
      ∀ b, IsData b → s'.d b.toNat = s.d b.toNat) s := by
  have hcount : (blockCount (s.inode n).size).toNat = 1 := h1
  unfold removeFile
  refine Program.wlp_bind _ (getInode_wlp hlive.1 ?_)
  rw [BlockManager.getInode, if_neg hlive.2]
  simp only [hcount]
  refine Program.wlp_seq exec (P := fun _ s' => s' =
    { s with blockBitmap := s.blockBitmap.clear ((s.inode n).slot 0) }) ?_ ?_
  · refine Program.wlp_loop exec (fun i _ s' => i = 0 ∧ s' = s ∨ i = 1 ∧ s' =
      { s with blockBitmap := s.blockBitmap.clear ((s.inode n).slot 0) })
      (Or.inl ⟨rfl, rfl⟩) ?_ ?_
    · intro i _ s' _ _ hi
      unfold freeUpTo
      rcases hi with ⟨rfl, rfl⟩ | ⟨rfl, hs⟩
      · rw [if_pos (by decide)]
        exact Program.wlp_bind _ (freeBlock_wlp (Program.wlp_pure _ (Or.inr ⟨rfl, rfl⟩)))
      · rw [if_neg (by decide)]
        exact Program.wlp_pure _ hs
    · rintro _ _ (⟨h, -⟩ | ⟨h, -⟩) <;> exact absurd h (by decide)
  · rintro _ _ rfl
    rw [if_neg (by decide)]
    intro _
    have hl : BlockManager.Live
        { s with blockBitmap := s.blockBitmap.clear ((s.inode n).slot 0) } n := hlive
    rw [freeInode_live junk hl]
    refine ⟨rfl, fun b hb => BlockManager.write_d_of_ne fun he => ?_⟩
    rw [UInt32.toNat_inj.mp he] at hb
    exact iblock_not_data hlive.1 hb

/-- A file of one byte is put into an empty file and removed: the block it had is the one
that is found next, and it still holds the byte. -/
theorem put_remove (h : Represents ls m s) (hm : m n = some ⟨2, []⟩) (x : UInt8)
    (hfree : 1 ≤ (freeBits s.blockBitmap).card) :
    ∃ ls', Represents ls' (Function.update m n none)
        ((removeFile noJunk n).run exec
          ((writeFile noJunk n (cstr noJunk [x]) 1).run exec s).2).2 ∧
      ((removeFile noJunk n).run exec
          ((writeFile noJunk n (cstr noJunk [x]) 1).run exec s).2).2.d
        ((removeFile noJunk n).run exec
          ((writeFile noJunk n (cstr noJunk [x]) 1).run exec s).2).2.blockBitmap.find.toNat =
        piece (cstr noJunk [x]) 0 ∧
      freeBits ((removeFile noJunk n).run exec
          ((writeFile noJunk n (cstr noJunk [x]) 1).run exec s).2).2.blockBitmap =
        freeBits s.blockBitmap := by
  have hlen : blocksOf [x].length = 1 := by
    rw [List.length_singleton]
    rfl
  have hlive : s.Live n := h.live_iff.mpr (by rw [hm]; exact Option.some_ne_none _)
  have h0 : s.blocks n = 0 := h.blocks_eq hm
  have hfits : blocksOf [x].length ≤ maxFile := by
    rw [hlen]
    decide
  obtain ⟨hcur, hsize⟩ := int_of_length hfits
  have hcstr : ∀ k < [x].length, cstr noJunk [x] k = [x].getD k 0 :=
    fun k hk => cstr_getD noJunk hk
  have hneed : need (blocksOf ([] : List UInt8).length) (blocksOf [x].length) ≤
      (freeBits s.blockBitmap).card := by
    rw [hlen]
    exact hfree
  have hpre : (writeFile noJunk n (cstr noJunk [x]) 1).Always exec FindsClear s :=
    h.writeFile_always hm hcur hsize (by rw [hlen]; decide) hcstr hneed
  obtain ⟨l₁, -, h₁⟩ := h.writeFile hm hcur hsize (by rw [hlen]; decide) hcstr hpre
  obtain ⟨hb₁, hslot₁, hc, hd₁⟩ := writeFile_one h.guarded hlive h0 (hcur.trans hlen) hpre
  change Represents _ _ ((writeFile noJunk n (cstr noJunk [x]) 1).run exec s).2 at h₁
  change ((writeFile noJunk n (cstr noJunk [x]) 1).run exec s).2.blockBitmap = _ at hb₁
  change (((writeFile noJunk n (cstr noJunk [x]) 1).run exec s).2.inode n).slot 0 = _ at hslot₁
  change ((writeFile noJunk n (cstr noJunk [x]) 1).run exec s).2.d _ = _ at hd₁
  generalize ((writeFile noJunk n (cstr noJunk [x]) 1).run exec s).2 = s₁ at *
  have hm₁ : Function.update m n (some (⟨2, [x]⟩ : File)) n = some ⟨2, [x]⟩ :=
    Function.update_self _ _ _
  have hlive₁ : s₁.Live n := h₁.live_iff.mpr (by rw [hm₁]; exact Option.some_ne_none _)
  obtain ⟨hb₂, hd₂⟩ := removeFile_one hlive₁ ((h₁.blocks_eq hm₁).trans hlen)
    (Program.always_true exec (removeFile noJunk n) s₁)
  obtain ⟨l₂, -, h₂⟩ := h₁.removeFile noJunk hm₁
  rw [Function.update_idem, Function.update_idem] at h₂
  generalize ((removeFile noJunk n).run exec s₁).2 = s₂ at *
  obtain ⟨hdata, hclear⟩ := h.guarded.find hc
  have htest : ∀ w, s₂.blockBitmap.test w = s.blockBitmap.test w := by
    intro w
    rw [hb₂, hslot₁, hb₁, Bitmap.test_clear, Bitmap.test_mark]
    split_ifs with hw
    · rw [hw, hclear]
    · rfl
  have hfind : s₂.blockBitmap.find = s.blockBitmap.find := by
    refine Bitmap.find_congr ?_ htest
    rw [hb₂, Bitmap.numBits_clear, hb₁, Bitmap.numBits_mark]
  refine ⟨_, h₂, ?_, ?_⟩
  · rw [hfind, hd₂ _ hdata, hd₁]
  · unfold freeBits
    simp only [htest]

/-- The search for a free inum leaves the bitmap as it is. -/
theorem allocInode_bitmap (junk : Junk) (s : BlockManager) (type : UInt32) :
    ((allocInode junk type).run exec s).2.blockBitmap = s.blockBitmap := by
  rcases findFreeInode_run junk s with ⟨i, -, hi, -, -, hfind⟩ | ⟨-, hfind⟩
  · rw [allocInode_run hi type hfind]
    rfl
  · rw [allocInode, Program.run_bind, hfind]
    rfl

/-- The byte `x` is put into a file of its own, the file is removed, and another file
grows to `maxFile` blocks. -/
def reuse (x : UInt8) : List Call :=
  [⟨.create tFile, noJunk⟩, ⟨.put 2 [x], noJunk⟩, ⟨.remove 2, noJunk⟩,
    ⟨.put 1 fullFile, noJunk⟩]

/-- The same, on a root directory of `NDIRECT` blocks. -/
def leak (x : UInt8) : List Call := ⟨.put 1 directFile, noJunk⟩ :: reuse x

theorem leak_fits (x : UInt8) : ∀ c ∈ leak x, c.request.FitsFull := by
  have hone : blocksOf [x].length ≤ maxFile := by
    rw [List.length_singleton]
    decide
  simp only [leak, reuse, List.forall_mem_cons, List.not_mem_nil, false_implies, implies_true,
    and_true]
  refine ⟨?_, trivial, hone, trivial, blocksOf_fullFile.le⟩
  change blocksOf directFile.length ≤ maxFile
  rw [blocksOf_directFile]
  decide

/-- The indirect block that the grown file ends up with starts with the removed byte. -/
structure Leaked (x : UInt8) (s : BlockManager) : Prop where
  live : s.Live 1
  blocks : s.blocks 1 = maxFile
  slot : s.slot 1 (.data nDirect) = (piece (cstr noJunk [x]) 0).entry 0

theorem reuse_run (h : Represents ls m s) {f : File} (hm : m 1 = some f)
    (hf : blocksOf f.bytes.length = nDirect) (hm₂ : m 2 = none)
    (hfree : 129 ≤ (freeBits s.blockBitmap).card) (x : UInt8) :
    Along (fun c s => c.handler.Always exec FindsClear s) (reuse x) s ∧
      Leaked x (serveAll (reuse x) s) := by
  have hone : inumOf 1 = 1 := by decide
  have htwo : inumOf 2 = 2 := by decide
  have hlen : blocksOf [x].length = 1 := by
    rw [List.length_singleton]
    rfl
  have hcreate := h.always ⟨.create tFile, noJunk⟩ trivial (Nat.zero_le _)
  have hbitmap := allocInode_bitmap noJunk s tFile
  rcases h.allocInode noJunk tFile with ⟨i, l₂, h0, hi, hmi, hleast, -, -, h₂⟩ | ⟨hall, -⟩
  swap
  · exact absurd hm₂ (hall 2 (by decide) (by decide))
  obtain rfl : i = 2 := by
    have h1 : i ≠ 1 := by
      rintro rfl
      rw [hm] at hmi
      cases hmi
    have h2 : ¬ 2 < i := fun hlt => hleast 2 (by decide) hlt hm₂
    omega
  rw [reuse, serveAll_cons, serve_create]
  have hnew : newFile tFile = some ⟨2, []⟩ := if_neg (by decide)
  rw [hnew] at h₂
  have hput : (Request.put 2 [x]).demand (Function.update m 2 (some ⟨2, []⟩)) = 1 := by
    rw [Request.demand, htwo, Function.update_self]
    dsimp only
    rw [hlen]
    rfl
  simp only [Along, EachStep, and_true]
  rw [serve_create]
  generalize ((allocInode noJunk tFile).run exec s).2 = s₂ at *
  rw [← hbitmap] at hfree
  have hpre := h₂.always ⟨.put 2 [x], noJunk⟩ (show blocksOf [x].length ≤ maxFile by rw [hlen]; decide)
    (by
      rw [hput]
      omega)
  obtain ⟨ls₄, h₄, hd₄, hfree₄⟩ := put_remove h₂ (Function.update_self _ _ _) x (by omega)
  have hremove : ∀ t, (Call.handler ⟨.remove 2, noJunk⟩).Always exec FindsClear t := by
    have honly : (ExtentServer.remove noJunk 2).Only NoFind :=
      Program.only_bind (removeFile_only noJunk _) fun _ => trivial
    exact Program.Only.always exec (fun _ _ hne he => absurd he hne) honly
  have hserve : ((removeFile noJunk 2).run exec
      ((writeFile noJunk 2 (cstr noJunk [x]) 1).run exec s₂).2).2 =
      (serve ⟨.remove 2, noJunk⟩ (serve ⟨.put 2 [x], noJunk⟩ s₂).2).2 := by
    rw [serve_remove, serve_put, htwo]
    rfl
  rw [hserve] at h₄ hd₄ hfree₄
  rw [serveAll_cons, serveAll_cons, serveAll_cons, serveAll_nil]
  have hpre' := hremove (serve ⟨.put 2 [x], noJunk⟩ s₂).2
  generalize (serve ⟨.remove 2, noJunk⟩ (serve ⟨.put 2 [x], noJunk⟩ s₂).2).2 = s₄ at *
  rw [Function.update_idem] at h₄
  have hm₄ : Function.update m 2 none 1 = some f := by
    rw [Function.update_of_ne (by decide)]
    exact hm
  have hlast := h₄.always ⟨.put 1 fullFile, noJunk⟩ blocksOf_fullFile.le (by
    have hd : (Request.put 1 fullFile).demand (Function.update m 2 none) = 129 := by
      rw [Request.demand, hone, hm₄]
      dsimp only
      rw [hf, blocksOf_fullFile]
      rfl
    rw [hd, hfree₄]
    exact hfree)
  refine ⟨⟨hcreate, hpre, hpre', hlast⟩, ?_⟩
  have hw := ((Program.always_bind exec FindsClear _ _ _).mp hlast).1
  rw [hone] at hw
  rw [serve_put, hone]
  obtain ⟨hcur, hsize⟩ := int_of_length blocksOf_fullFile.le
  rw [blocksOf_fullFile] at hcur
  have hcount : (blockCount (Int32.ofNat fullFile.length).toUInt32).toNat = maxFile := by
    rw [blockCount_toNat, hsize, blocksOf_fullFile]
    rw [hsize, length_fullFile]
    decide
  have hlive : s₄.Live 1 := h₄.live_iff.mpr (by rw [hm₄]; exact Option.some_ne_none _)
  obtain ⟨hl, hb, hs⟩ := writeFile_full_entry h₄ hlive ((h₄.blocks_eq hm₄).trans hf) hcur hcount hw
  exact ⟨hl, hb, hs.trans (by rw [hd₄])⟩

theorem leak_run (x : UInt8) :
    Along (fun c s => c.handler.Always exec FindsClear s) (leak x) (freshServer noJunk) ∧
      Leaked x (serveAll (leak x) (freshServer noJunk)) := by
  have hone : inumOf 1 = 1 := by decide
  obtain ⟨ls, h, hheld⟩ := freshServer_represents noJunk
  have hroot : rootOnly 1 = some ⟨1, []⟩ := rfl
  have hfree := h.valid.free_of_idle hheld
  have hdirect : blocksOf directFile.length < maxFile := by
    rw [blocksOf_directFile]
    decide
  have hneed : need (blocksOf ([] : List UInt8).length) (blocksOf directFile.length) + 129 ≤
      (freeBits (freshServer noJunk).blockBitmap).card := by
    rw [blocksOf_directFile]
    exact le_trans (by decide) hfree
  obtain ⟨hcur, hsize⟩ := int_of_length hdirect.le
  have hcstr : ∀ k < directFile.length, cstr noJunk directFile k = directFile.getD k 0 :=
    fun k hk => cstr_getD noJunk hk
  have hpre := h.always ⟨.put 1 directFile, noJunk⟩ hdirect.le
    (by
      simp only [Request.demand, hone, hroot]
      omega)
  have hw := ((Program.always_bind exec FindsClear _ _ _).mp hpre).1
  rw [hone] at hw
  dsimp only at hw
  obtain ⟨l₁, -, h₁⟩ := h.writeFile hroot hcur hsize hdirect hcstr hw
  have htwo : Function.update rootOnly 1 (some (⟨1, directFile⟩ : File)) 2 = none := by
    rw [Function.update_of_ne (by decide), rootOnly, if_neg (by decide)]
  obtain ⟨hrest, hend⟩ := reuse_run h₁ (Function.update_self _ _ _) blocksOf_directFile htwo
    (h.writeFile_reserve hroot hcur hsize hdirect.le hcstr hneed) x
  have hserve := serve_put 1 directFile noJunk (freshServer noJunk)
  rw [hone] at hserve
  rw [leak, serveAll_cons, hserve]
  refine ⟨⟨hpre, ?_⟩, hend⟩
  dsimp only
  rw [hserve]
  exact hrest

end Leak

/-- Two runs that differ in one byte put, and end with different block numbers. -/
theorem contents_leak :
    List.Forall₂ Call.Similar (leak 7) (leak 8) ∧
      (∀ c ∈ leak 7 ++ leak 8, c.request.FitsFull) ∧
      Along (fun c s => c.handler.Always exec FindsClear s) (leak 7) (freshServer noJunk) ∧
      Along (fun c s => c.handler.Always exec FindsClear s) (leak 8) (freshServer noJunk) ∧
      ¬ Alike (serveAll (leak 7) (freshServer noJunk)) (serveAll (leak 8) (freshServer noJunk)) := by
  obtain ⟨hrun, hend⟩ := leak_run 7
  obtain ⟨hrun', hend'⟩ := leak_run 8
  refine ⟨?_, ?_, hrun, hrun', fun ha => ?_⟩
  · have hsame : ∀ c : Call, c.Similar c := fun c => .same c.request
    exact .cons (hsame _) (.cons (hsame _) (.cons (.put rfl) (.cons (hsame _)
      (.cons (hsame _) .nil))))
  · intro c hc
    rcases List.mem_append.mp hc with hc | hc
    · exact leak_fits 7 c hc
    · exact leak_fits 8 c hc
  · have hslot := ha.slots.slot 1 hend.live (.data nDirect)
      (by
        rw [hend.blocks]
        exact (by decide : nDirect < maxFile))
    rw [hend.slot, hend'.slot] at hslot
    exact absurd hslot (by decide)

end Yfs.Store
