import Yfs.Store.ExtentServer
import Yfs.Store.Funds
import Yfs.Store.ReadSpec
import Yfs.Store.RemoveSpec
import Yfs.Store.Sequential
import Yfs.Store.WriteSpec

/-! The files of a server, and what each operation of `inode_manager` does to them when
it runs alone. -/
namespace Yfs.Store
open Effect

structure File where
  type : Int16
  bytes : List UInt8

abbrev Files : Type := ℕ → Option File

/-- The share is that of an inum to which the given file, if any, is bound. -/
def Share.Holds (l : Share) : Option File → Prop
  | none => l.Idle ∧ l.cell.type = 0
  | some f => Stores l f.type f.bytes

/-- The shares account for the state, and hold the files `m`. -/
structure Represents (ls : ℕ → Share) (m : Files) (s : BlockManager) : Prop where
  valid : Valid ls s
  holds : ∀ n, (ls n).Holds (m n)
  bound : ∀ n, m n ≠ none → n < inodeNum

theorem Share.Holds.idle {l : Share} {o : Option File} (h : l.Holds o) : l.Idle := by
  cases o with
  | none => exact h.1
  | some f => exact Stores.idle h

theorem Share.Holds.setCredits {l : Share} {o : Option File} (h : l.Holds o) (k : ℕ) :
    (l.setCredits k).Holds o := by
  cases o with
  | none => exact h
  | some f => exact Stores.setCredits h k

theorem Share.Holds.inode {l : Share} {o : Option File} (h : l.Holds o) :
    l.inode = if o.isSome then some l.cell else none := by
  cases o with
  | none => exact if_pos h.2
  | some f => exact if_neg (Stores.type_ne h)

/-- What is bound by an allocation; type 0 leaves the inum free. -/
def newFile (type : UInt32) : Option File :=
  if type.toUInt16.toInt16 = 0 then none else some ⟨type.toUInt16.toInt16, []⟩

theorem holds_newFile {l : Share} (hl : l.Idle) (type : UInt32) :
    (l.setCell (newInode type)).Holds (newFile type) := by
  have hno : ∀ p : Pos, ¬ p.InUse (blocksOf ([] : List UInt8).length) := by
    intro p
    cases p with
    | data j => exact Nat.not_lt_zero j
    | indirect => exact Nat.not_lt_zero nDirect
  unfold newFile
  split_ifs with ht
  · exact ⟨hl, ht⟩
  · constructor
    · exact hl
    · rfl
    · exact ht
    · rfl
    · change blocksOf 0 < maxFile
      decide
    · exact ⟨rfl, rfl, rfl⟩
    · exact fun p hp => absurd hp (hno p)
    · exact fun p _ hp => absurd hp (hno p)
    · exact fun k hk => absurd hk (Nat.not_lt_zero k)

section Sequential

variable {ls : ℕ → Share} {m : Files} {s : BlockManager} {junk : Junk} {n : ℕ} {f : File}

namespace Represents

theorem idle (h : Represents ls m s) (n : ℕ) : (ls n).Idle := (h.holds n).idle

theorem lt (h : Represents ls m s) (hn : m n = some f) : n < inodeNum :=
  h.bound n (by rw [hn]; exact Option.some_ne_none f)

theorem stores (h : Represents ls m s) (hn : m n = some f) : Stores (ls n) f.type f.bytes := by
  have hh := h.holds n
  rwa [hn] at hh

theorem inode_eq (h : Represents ls m s) (hn : n < inodeNum) : s.inode n = (ls n).cell :=
  h.valid.cells n hn

theorem live_iff (h : Represents ls m s) : s.Live n ↔ m n ≠ none := by
  constructor
  · intro hl hm
    have hh := h.holds n
    rw [hm] at hh
    apply hl.2
    rw [h.inode_eq hl.1]
    exact hh.2
  · intro hm
    obtain ⟨f, hf⟩ := Option.ne_none_iff_exists'.mp hm
    refine ⟨h.lt hf, ?_⟩
    rw [h.inode_eq (h.lt hf)]
    exact (h.stores hf).type_ne

theorem blocks_eq (h : Represents ls m s) (hf : m n = some f) :
    s.blocks n = blocksOf f.bytes.length := by
  rw [BlockManager.blocks, h.inode_eq (h.lt hf), (h.stores hf).blockCount_eq]

/-- The block numbers on disk are those that the share knows. -/
theorem slot_eq (h : Represents ls m s) (hf : m n = some f) {p : Pos}
    (hp : p.InUse (blocksOf f.bytes.length)) : s.slot n p = (ls n).slotAt p := by
  have hst := h.stores hf
  rw [BlockManager.slot, h.inode_eq (h.lt hf)]
  by_cases hbig : nDirect < blocksOf f.bytes.length
  · obtain ⟨c, hc⟩ := Option.ne_none_iff_exists'.mp (hst.inUse .indirect hbig)
    have hc' : (ls n).held ((ls n).cell.slot nDirect) = some c := hc
    rw [Share.slotAt, Share.ind, hc', (h.valid.held n _ c hc').2.2]
    rfl
  · exact slotOf_congr_ind hp (by omega) _ _ _

theorem owns_iff (h : Represents ls m s) {b : BlockId} : s.Owns n b ↔
    ∃ f, m n = some f ∧ ∃ p : Pos, p.InUse (blocksOf f.bytes.length) ∧ (ls n).slotAt p = b := by
  constructor
  · rintro ⟨hl, p, hp, rfl⟩
    obtain ⟨f, hf⟩ := Option.ne_none_iff_exists'.mp (h.live_iff.mp hl)
    rw [h.blocks_eq hf] at hp
    exact ⟨f, hf, p, hp, (h.slot_eq hf hp).symm⟩
  · rintro ⟨f, hf, p, hp, rfl⟩
    refine ⟨h.live_iff.mpr ?_, p, ?_, h.slot_eq hf hp⟩
    · rw [hf]
      exact Option.some_ne_none f
    · rwa [h.blocks_eq hf]

theorem not_live (h : Represents ls m s) (hn : m n = none) : ¬ s.Live n := by
  rw [h.live_iff, hn]
  exact fun h => h rfl

/-- The share of one inum changes together with its file. -/
theorem set (h : Represents ls m s) {s' : BlockManager} {l' : Share} {o : Option File}
    (hv : Valid (Function.update ls n l') s') (hl : l'.Holds o) (hn : n < inodeNum) :
    Represents (Function.update ls n l') (Function.update m n o) s' := by
  constructor
  · exact hv
  · intro k
    obtain rfl | hk := eq_or_ne k n
    · rwa [Function.update_self, Function.update_self]
    · rw [Function.update_of_ne hk, Function.update_of_ne hk]
      exact h.holds k
  · intro k hk
    obtain rfl | hne := eq_or_ne k n
    · exact hn
    · rw [Function.update_of_ne hne] at hk
      exact h.bound k hk

/-- A program that runs alone in a state that represents files. -/
theorem run (h : Represents ls m s) {α : Type} {p : Prog α} {Q : α → Share → Prop} {k : ℕ}
    (hwp : p.wp (Rule n) Q ((ls n).setCredits k)) (hpre : p.Always exec FindsClear s) :
    ∃ l', Q (p.run exec s).1 l' ∧ Valid (Function.update ls n l') (p.run exec s).2 := by
  have hv := h.valid.setCredits n k
  obtain ⟨l', hq, hv'⟩ := rule_sound.run (t := n) (by rwa [Function.update_self]) hv
    (fun u hu => by rw [Function.update_of_ne hu]; exact h.idle u) hpre
  exact ⟨l', hq, by rwa [Function.update_idem] at hv'⟩

/-- A program that needs no new block runs alone. -/
theorem run_free (h : Represents ls m s) (hn : n < inodeNum) {α : Type} {p : Prog α}
    {Q : α → Share → Prop} (hwp : p.wp (Rule n) Q ((ls n).setCredits 0)) :
    ∃ l', Q (p.run exec s).1 l' ∧ Valid (Function.update ls n l') (p.run exec s).2 :=
  h.run hwp (h.valid.always h.idle hn hwp (Nat.zero_le _))

/-! What the operations do for an inum with a file. -/

theorem writeFile (h : Represents ls m s) (hf : m n = some f) {new : List UInt8}
    {buf : ℕ → UInt8} {size : Int32}
    (hcur : (blockCountInt size).toNat = blocksOf new.length)
    (hsize : size.toUInt32.toNat = new.length) (hsmall : blocksOf new.length < maxFile)
    (hbuf : ∀ k < new.length, buf k = new.getD k 0)
    (hpre : (Store.writeFile junk n buf size).Always exec FindsClear s) :
    ∃ l', Wrote (ls n) f.type f.bytes new l' ∧
      Represents (Function.update ls n l') (Function.update m n (some ⟨f.type, new⟩))
        ((Store.writeFile junk n buf size).run exec s).2 := by
  have hn := h.lt hf
  have hst := (h.stores hf).setCredits (need (blocksOf f.bytes.length) (blocksOf new.length))
  obtain ⟨l', hl, hv⟩ := h.run (writeFile_wp hn hst hcur hsize hsmall.le hbuf le_rfl) hpre
  have hw := hl hsmall
  exact ⟨l', ⟨hw.stores, hw.grows, hw.onlyNew, hw.kept⟩, h.set hv hw.stores hn⟩

/-- A write finds its blocks when as many bits are clear. -/
theorem writeFile_always (h : Represents ls m s) (hf : m n = some f) {new : List UInt8}
    {buf : ℕ → UInt8} {size : Int32}
    (hcur : (blockCountInt size).toNat = blocksOf new.length)
    (hsize : size.toUInt32.toNat = new.length) (hsmall : blocksOf new.length ≤ maxFile)
    (hbuf : ∀ k < new.length, buf k = new.getD k 0)
    (hfree : need (blocksOf f.bytes.length) (blocksOf new.length) ≤
      (freeBits s.blockBitmap).card) :
    (Store.writeFile junk n buf size).Always exec FindsClear s := by
  have hst := (h.stores hf).setCredits (need (blocksOf f.bytes.length) (blocksOf new.length))
  exact h.valid.always h.idle (h.lt hf)
    (writeFile_wp (h.lt hf) hst hcur hsize hsmall hbuf le_rfl) hfree

/-- Clear bits that a write does not need are left. -/
theorem writeFile_reserve (h : Represents ls m s) (hf : m n = some f) {new : List UInt8}
    {buf : ℕ → UInt8} {size : Int32} {spare : ℕ}
    (hcur : (blockCountInt size).toNat = blocksOf new.length)
    (hsize : size.toUInt32.toNat = new.length) (hsmall : blocksOf new.length ≤ maxFile)
    (hbuf : ∀ k < new.length, buf k = new.getD k 0)
    (hfree : need (blocksOf f.bytes.length) (blocksOf new.length) + spare ≤
      (freeBits s.blockBitmap).card) :
    spare ≤ (freeBits ((Store.writeFile junk n buf size).run exec s).2.blockBitmap).card := by
  have hst := (h.stores hf).setCredits (need (blocksOf f.bytes.length) (blocksOf new.length))
  exact h.valid.reserve h.idle (h.lt hf)
    (writeFile_wp (h.lt hf) hst hcur hsize hsmall hbuf le_rfl) hfree

theorem readFile (h : Represents ls m s) (junk : Junk) (hf : m n = some f) :
    (∃ buf, ((Store.readFile junk n).run exec s).1 = some ⟨buf, (ls n).cell.size.toInt32⟩ ∧
      ∀ k < f.bytes.length, buf k = f.bytes.getD k 0) ∧
      Represents ls m ((Store.readFile junk n).run exec s).2 := by
  have hst := (h.stores hf).setCredits 0
  obtain ⟨_, ⟨hr, rfl⟩, hv⟩ := h.run_free (h.lt hf) (readFile_wp junk (h.lt hf) hst)
  exact ⟨hr, { h with valid := hv.of_setCredits }⟩

theorem getattr (h : Represents ls m s) (junk : Junk) (hf : m n = some f) (a : Attr) :
    ((Store.getattr junk n a).run exec s).1 = (ls n).cell.attr ∧
      Represents ls m ((Store.getattr junk n a).run exec s).2 := by
  have hidle : ((ls n).setCredits 0).Idle := h.idle n
  have hinode := (h.holds n).inode
  rw [hf] at hinode
  obtain ⟨_, ⟨hr, rfl⟩, hv⟩ := h.run_free (h.lt hf) (getattr_wp junk (h.lt hf) hidle)
  have he : ((ls n).setCredits 0).inode = (ls n).inode := rfl
  rw [he, hinode] at hr
  exact ⟨hr, { h with valid := hv.of_setCredits }⟩

theorem removeFile (h : Represents ls m s) (junk : Junk) (hf : m n = some f) :
    ∃ l', Removed (ls n) f.bytes.length l' ∧
      Represents (Function.update ls n l') (Function.update m n none)
        ((Store.removeFile junk n).run exec s).2 := by
  have hst := (h.stores hf).setCredits 0
  obtain ⟨l', hr, hv⟩ := h.run_free (h.lt hf) (removeFile_wp junk (h.lt hf) hst)
  refine ⟨l', ⟨hr.idle, hr.cell, hr.freed, hr.rest⟩, h.set hv ⟨hr.idle, ?_⟩ (h.lt hf)⟩
  rw [hr.cell]
  rfl

theorem freeInode (h : Represents ls m s) (junk : Junk) (hf : m n = some f) :
    ∃ l', (∀ b, l'.held b = (ls n).held b) ∧ Represents (Function.update ls n l')
      (Function.update m n none) ((Store.freeInode junk n).run exec s).2 := by
  have hst := (h.stores hf).setCredits 0
  obtain ⟨l', rfl, hv⟩ := h.run_free (h.lt hf) (freeInode_wp junk (h.lt hf) hst.idle
    hst.type_ne (Q := fun _ l' => l' = ((ls n).setCredits 0).setCell Inode.zero) rfl)
  exact ⟨((ls n).setCredits 0).setCell Inode.zero, fun _ => rfl, h.set hv ⟨hst.idle, rfl⟩ (h.lt hf)⟩

theorem allocInode (h : Represents ls m s) (junk : Junk) (type : UInt32) :
    (∃ i l', 0 < i ∧ i < inodeNum ∧ m i = none ∧ (∀ j, 0 < j → j < i → m j ≠ none) ∧
      ((Store.allocInode junk type).run exec s).1 = UInt32.ofNat i ∧
      (∀ b, l'.held b = (ls i).held b) ∧
      Represents (Function.update ls i l') (Function.update m i (newFile type))
        ((Store.allocInode junk type).run exec s).2) ∨
    (∀ i, 0 < i → i < inodeNum → m i ≠ none) ∧
      (Store.allocInode junk type).run exec s = (0, s) := by
  rcases findFreeInode_run junk s with ⟨i, h0, hi, hdead, hleast, hfind⟩ | ⟨hall, hfind⟩
  · have hm : m i = none := by
      by_contra hm
      exact hdead (h.live_iff.mpr hm)
    have hidle : ((ls i).setCredits 0).Idle := h.idle i
    have hwp : (putInode junk i (newInode type)).wp (Rule i)
        (fun _ l' => l' = ((ls i).setCredits 0).setCell (newInode type)) ((ls i).setCredits 0) :=
      putInode_wp hi hidle rfl
    obtain ⟨l', rfl, hv⟩ := h.run_free hi hwp
    rw [putInode_run junk s hi] at hv
    rw [allocInode_run hi type hfind]
    exact Or.inl ⟨i, ((ls i).setCredits 0).setCell (newInode type), h0, hi, hm,
      fun j h0 hj => h.live_iff.mp (hleast j h0 hj), rfl,
      fun _ => rfl, h.set hv (holds_newFile hidle type) hi⟩
  · refine Or.inr ⟨fun i h0 hi => h.live_iff.mp (hall i h0 hi), ?_⟩
    rw [Store.allocInode, Program.run_bind, hfind]
    rfl

end Represents

end Sequential

end Yfs.Store
