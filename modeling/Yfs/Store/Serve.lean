import Yfs.Effect.Hoare
import Yfs.Store.Files

/-! What a request to the extent server does to the files, and runs of requests. -/
namespace Yfs.Store
open Effect

/-- The inum a request is about; a `create` names none. -/
def Request.inum : Request → Option ℕ
  | .create _ => none
  | .put id _ => some (inumOf id)
  | .get id => some (inumOf id)
  | .getattr id => some (inumOf id)
  | .remove id => some (inumOf id)

/-- The answer for an inum without a file. -/
def Request.unbound : Request → Answer
  | .create _ => .created 0
  | .put _ _ => .ok
  | .get _ => .data []
  | .getattr _ => .attr ⟨0, 0, 0, 0, 0⟩
  | .remove _ => .ok

def File.attr (f : File) : Attr := ⟨f.type.toInt32.toUInt32, 0, 0, 0, UInt32.ofNat f.bytes.length⟩

/-- What a request may do: its answer, and the shares and the files that it leaves. -/
inductive Served (ls : ℕ → Share) (m : Files) :
    Request → Answer → (ℕ → Share) → Files → Prop where
  | create {type : UInt32} {i : ℕ} {l' : Share} (h0 : 0 < i) (hi : i < inodeNum)
    (hm : m i = none) (hheld : ∀ b, l'.held b = (ls i).held b) :
    Served ls m (.create type) (.created (UInt32.ofNat i)) (Function.update ls i l')
      (Function.update m i (newFile type))
  | full {type : UInt32} (h : ∀ i, 0 < i → i < inodeNum → m i ≠ none) :
    Served ls m (.create type) (.created 0) ls m
  | put {id : UInt64} {buf : List UInt8} {f : File} {l' : Share} (hf : m (inumOf id) = some f)
    (hw : Wrote (ls (inumOf id)) f.type f.bytes buf l') :
    Served ls m (.put id buf) .ok (Function.update ls (inumOf id) l')
      (Function.update m (inumOf id) (some ⟨f.type, buf⟩))
  | get {id : UInt64} {f : File} (hf : m (inumOf id) = some f) :
    Served ls m (.get id) (.data f.bytes) ls m
  | getattr {id : UInt64} {f : File} (hf : m (inumOf id) = some f) :
    Served ls m (.getattr id) (.attr f.attr) ls m
  | remove {id : UInt64} {f : File} {l' : Share} (hf : m (inumOf id) = some f)
    (hr : Removed (ls (inumOf id)) f.bytes.length l') :
    Served ls m (.remove id) .ok (Function.update ls (inumOf id) l')
      (Function.update m (inumOf id) none)
  | unbound {r : Request} {n : ℕ} (hn : r.inum = some n) (hm : m n = none) :
    Served ls m r r.unbound ls m

/-- A put spans fewer than `maxFile` blocks. -/
def Request.Fits : Request → Prop
  | .put _ buf => blocksOf buf.length < maxFile
  | _ => True

/-- A put spans at most `maxFile` blocks. -/
def Request.FitsFull : Request → Prop
  | .put _ buf => blocksOf buf.length ≤ maxFile
  | _ => True

theorem Request.Fits.full {r : Request} (h : r.Fits) : r.FitsFull := by
  cases r with
  | put id buf => exact Nat.le_of_lt h
  | _ => trivial

theorem length_of_fits {buf : List UInt8} (h : blocksOf buf.length ≤ maxFile) :
    buf.length ≤ maxFile * blockSize := by
  simp only [blocksOf, maxFile, nDirect, nIndirect, blockSize] at *
  omega

theorem cstr_getD (junk : Junk) {buf : List UInt8} {k : ℕ} (hk : k < buf.length) :
    cstr junk buf k = buf.getD k 0 := if_pos hk

/-- The `int` that a short length is turned into, and what the code makes of it. -/
theorem int_of_length {buf : List UInt8} (h : blocksOf buf.length ≤ maxFile) :
    (blockCountInt (Int32.ofNat buf.length)).toNat = blocksOf buf.length ∧
      (Int32.ofNat buf.length).toUInt32.toNat = buf.length := by
  have hlt := length_of_fits h
  simp only [maxFile, nDirect, nIndirect, blockSize] at hlt
  exact ⟨blockCountInt_ofNat (by omega), toUInt32_ofNat_toNat (by omega)⟩

/-! No request but a put allocates blocks. -/

def NoFind (c : Cmd) : Prop := c ≠ .find

section NoFind

variable (junk : Junk)

theorem getInode_only (n : ℕ) : (getInode junk n).Only NoFind := by
  unfold getInode
  split_ifs
  · trivial
  · refine Program.only_bind ⟨Cmd.noConfusion, fun _ => trivial⟩ fun buf => ?_
    split_ifs <;> trivial

theorem putInode_only (n : ℕ) (ino : Inode) : (putInode junk n ino).Only NoFind :=
  ⟨Cmd.noConfusion, fun _ => ⟨Cmd.noConfusion, fun _ => trivial⟩⟩

theorem allocInode_only (type : UInt32) : (allocInode junk type).Only NoFind := by
  refine Program.only_bind (Program.only_loop (fun i _ => ?_) _ _ _) ?_
  · refine Program.only_bind (getInode_only junk i) ?_
    rintro (_ | ino) <;> trivial
  · rintro (_ | i)
    · trivial
    · exact Program.only_bind (putInode_only junk i _) fun _ => trivial

theorem copyBlock_only (size : ℕ) (id : BlockId) (x : ReadState) :
    (copyBlock size id x).Only NoFind := ⟨Cmd.noConfusion, fun _ => trivial⟩

theorem readFile_only (n : ℕ) : (readFile junk n).Only NoFind := by
  refine Program.only_bind (getInode_only junk n) ?_
  rintro (_ | ino)
  · trivial
  have hfinish : ∀ x : ReadState, Program.Only NoFind (if x.readSize < ino.size.toNat
      then pure none
      else pure (some ⟨Function.update x.out ino.size.toNat 0, ino.size.toInt32⟩) :
      Prog (Option FileData)) := by
    intro x
    split_ifs <;> trivial
  refine Program.only_bind (Program.only_loop (fun i x => ?_) _ _ _) fun x => ?_
  · unfold readDirect
    split_ifs
    · trivial
    · exact Program.only_bind (copyBlock_only ..) fun _ => trivial
  · dsimp only
    split_ifs
    · refine Program.only_bind ⟨Cmd.noConfusion, fun _ => trivial⟩ fun ind => ?_
      refine Program.only_bind (Program.only_loop (fun i x => ?_) _ _ _) hfinish
      refine Program.only_bind (copyBlock_only ..) fun x => ?_
      split_ifs <;> trivial
    · exact hfinish x

theorem freeUpTo_only (count : ℕ) (block : ℕ → BlockId) (i : ℕ) :
    (freeUpTo count block i ()).Only NoFind := by
  unfold freeUpTo
  split_ifs
  · exact ⟨Cmd.noConfusion, fun _ => trivial⟩
  · trivial

theorem removeFile_only (n : ℕ) : (removeFile junk n).Only NoFind := by
  have hfree : (freeInode junk n).Only NoFind := by
    refine Program.only_bind (getInode_only junk n) ?_
    rintro (_ | ino)
    · trivial
    · exact putInode_only junk n _
  refine Program.only_bind (getInode_only junk n) ?_
  rintro (_ | ino)
  · trivial
  refine Program.only_bind (Program.only_loop (fun i _ => freeUpTo_only ..) _ _ _) fun _ => ?_
  split_ifs
  · refine Program.only_bind ⟨Cmd.noConfusion, fun _ => trivial⟩ fun ind => ?_
    refine Program.only_bind (Program.only_loop (fun i _ => freeUpTo_only ..) _ _ _) fun _ => ?_
    exact Program.only_bind ⟨Cmd.noConfusion, fun _ => trivial⟩ fun _ => hfree
  · exact hfree

end NoFind

section Step

variable {ls : ℕ → Share} {m : Files} {s : BlockManager} {f : File} {n : ℕ}

/-- `std::string::assign` of what `read_file` gives back. -/
theorem assign_eq (hst : Stores (ls n) f.type f.bytes) {buf : ℕ → UInt8}
    (hbuf : ∀ k < f.bytes.length, buf k = f.bytes.getD k 0) :
    (List.range (ls n).cell.size.toInt32.toNatClampNeg).map buf = f.bytes := by
  have hlt := hst.length_lt
  simp only [maxFile, nDirect, nIndirect, blockSize] at hlt
  have hsize : (ls n).cell.size.toInt32 = Int32.ofNat f.bytes.length := by
    rw [← hst.size_eq, ← UInt32.toInt32_ofNat', UInt32.ofNat_toNat]
  have hlen : (ls n).cell.size.toInt32.toNatClampNeg = f.bytes.length := by
    rw [hsize, Int32.toNatClampNeg, toInt_ofNat_of_lt (by omega), Int.toNat_natCast]
  rw [hlen]
  apply List.ext_getElem
  · simp
  · intro k hk _
    have hk' : k < f.bytes.length := by simpa using hk
    rw [List.getElem_map, List.getElem_range, hbuf k hk']
    simp [hk']

theorem Represents.put (h : Represents ls m s) {junk : Junk} {id : UInt64} {buf : List UInt8}
    (hf : m (inumOf id) = some f) (hfits : blocksOf buf.length < maxFile)
    (hpre : (ExtentServer.put junk id buf).Always exec FindsClear s) :
    ((ExtentServer.put junk id buf).run exec s).1 = .ok ∧
      ∃ l', Wrote (ls (inumOf id)) f.type f.bytes buf l' ∧
        Represents (Function.update ls (inumOf id) l')
          (Function.update m (inumOf id) (some ⟨f.type, buf⟩))
          ((ExtentServer.put junk id buf).run exec s).2 := by
  obtain ⟨hcur, hsize⟩ := int_of_length hfits.le
  have hpre' := ((Program.always_bind exec FindsClear _ _ s).mp hpre).1
  rw [ExtentServer.put, Program.run_bind]
  exact ⟨rfl, h.writeFile hf hcur hsize hfits (fun k hk => cstr_getD junk hk) hpre'⟩

theorem Represents.serve (h : Represents ls m s) (c : Call) (hfits : c.request.Fits)
    (hpre : ∀ id buf, c.request = .put id buf → c.handler.Always exec FindsClear s) :
    ∃ ls' m', Served ls m c.request (Store.serve c s).1 ls' m' ∧
      Represents ls' m' (Store.serve c s).2 := by
  obtain ⟨r, junk⟩ := c
  cases r with
  | create type =>
    simp only [Store.serve, Call.handler, Request.handler]
    rw [ExtentServer.create, Program.run_bind]
    rcases h.allocInode junk type with ⟨i, l', h0, hi, hm, -, hr, hheld, h'⟩ | ⟨hall, hr⟩
    · rw [hr]
      exact ⟨_, _, .create h0 hi hm hheld, h'⟩
    · rw [hr]
      exact ⟨_, _, .full hall, h⟩
  | put id buf =>
    change ∃ ls' m', Served ls m (.put id buf) ((ExtentServer.put junk id buf).run exec s).1 ls' m' ∧
      Represents ls' m' ((ExtentServer.put junk id buf).run exec s).2
    cases hf : m (inumOf id) with
    | none =>
      rw [ExtentServer.put, Program.run_bind, writeFile_dead junk (h.not_live hf)]
      exact ⟨_, _, .unbound rfl hf, h⟩
    | some f =>
      obtain ⟨hr, l', hw, h'⟩ := h.put hf hfits (hpre id buf rfl)
      rw [hr]
      exact ⟨_, _, .put hf hw, h'⟩
  | get id =>
    simp only [Store.serve, Call.handler, Request.handler]
    rw [ExtentServer.get, Program.run_bind]
    cases hf : m (inumOf id) with
    | none =>
      rw [readFile_dead junk (h.not_live hf)]
      exact ⟨_, _, .unbound rfl hf, h⟩
    | some f =>
      obtain ⟨⟨buf, hr, hbuf⟩, h'⟩ := h.readFile junk hf
      have hst := h.stores hf
      have ha := assign_eq hst hbuf
      have hdata : (if (ls (inumOf id)).cell.size.toInt32 = 0 then pure (.data [])
          else pure (.data ((List.range (ls (inumOf id)).cell.size.toInt32.toNatClampNeg).map buf)) :
          Prog Answer) = pure (.data f.bytes) := by
        rw [ha]
        split_ifs with h0
        · rw [h0] at ha
          rw [← ha]
          rfl
        · rfl
      rw [hr]
      dsimp only
      rw [hdata]
      exact ⟨_, _, .get hf, h'⟩
  | getattr id =>
    simp only [Store.serve, Call.handler, Request.handler]
    rw [ExtentServer.getattr, Program.run_bind]
    cases hf : m (inumOf id) with
    | none =>
      rw [getattr_dead junk (h.not_live hf)]
      exact ⟨_, _, .unbound rfl hf, h⟩
    | some f =>
      obtain ⟨hr, h'⟩ := h.getattr junk hf ⟨0, 0, 0, 0, 0⟩
      have hst := h.stores hf
      have ha : (ls (inumOf id)).cell.attr = f.attr := by
        obtain ⟨h1, h2, h3⟩ := hst.times
        rw [Inode.attr, h1, h2, h3, hst.type_eq, File.attr, ← hst.size_eq, UInt32.ofNat_toNat]
      rw [hr, ha]
      exact ⟨_, _, .getattr hf, h'⟩
  | remove id =>
    simp only [Store.serve, Call.handler, Request.handler]
    rw [ExtentServer.remove, Program.run_bind]
    cases hf : m (inumOf id) with
    | none =>
      rw [removeFile_dead junk (h.not_live hf)]
      exact ⟨_, _, .unbound rfl hf, h⟩
    | some f =>
      obtain ⟨l', hr, h'⟩ := h.removeFile junk hf
      exact ⟨_, _, .remove hf hr, h'⟩

/-- The blocks that a request has to allocate. -/
def Request.demand (m : Files) : Request → ℕ
  | .put id buf =>
    match m (inumOf id) with
    | some f => need (blocksOf f.bytes.length) (blocksOf buf.length)
    | none => 0
  | _ => 0

theorem Request.demand_le {r : Request} (hfits : r.FitsFull) (m : Files) :
    r.demand m ≤ maxFile + 1 := by
  cases r with
  | put id buf =>
    have hlt : blocksOf buf.length ≤ maxFile := hfits
    unfold demand need
    dsimp only
    split
    · split_ifs <;> omega
    · exact Nat.zero_le _
  | _ => exact Nat.zero_le _

/-- A request that has enough clear bits finds one whenever it looks for one. -/
theorem Represents.always (h : Represents ls m s) (c : Call) (hfits : c.request.FitsFull)
    (hfree : c.request.demand m ≤ (freeBits s.blockBitmap).card) :
    c.handler.Always exec FindsClear s := by
  have hnone : ∀ {p : Prog Answer}, p.Only NoFind → p.Always exec FindsClear s :=
    fun hp => Program.Only.always exec (fun _ _ hne he => absurd he hne) hp s
  obtain ⟨r, junk⟩ := c
  cases r with
  | create type => exact hnone (Program.only_bind (allocInode_only junk type) fun _ => trivial)
  | put id buf =>
    refine (Program.always_bind exec _ _ _ s).mpr ⟨?_, trivial⟩
    cases hf : m (inumOf id) with
    | none =>
      refine (Program.always_bind exec _ _ _ s).mpr ⟨?_, ?_⟩
      · exact Program.Only.always exec (fun _ _ hne he => absurd he hne) (getInode_only junk _) s
      · rw [getInode_dead junk (h.not_live hf)]
        trivial
    | some f =>
      obtain ⟨hcur, hsize⟩ := int_of_length hfits
      apply h.writeFile_always hf hcur hsize hfits (fun k hk => cstr_getD junk hk)
      simpa [Request.demand, hf] using hfree
  | get id =>
    refine hnone (Program.only_bind (readFile_only junk _) ?_)
    rintro (_ | x)
    · trivial
    · dsimp only
      split_ifs <;> trivial
  | getattr id =>
    refine hnone (Program.only_bind (Program.only_bind (getInode_only junk _) ?_) fun _ => trivial)
    rintro (_ | ino) <;> trivial
  | remove id => exact hnone (Program.only_bind (removeFile_only junk _) fun _ => trivial)

end Step

/-! The server before its first request. -/

theorem BlockManager.test_reservedBitmap (b : BlockId) :
    (reservedBitmap ipb).test b = decide (b.toNat < firstData) ∧
      (reservedBitmap ipb).numBits.toNat = blockNum := by
  have hn0 : firstMarked.numBits.toNat = blockNum := rfl
  obtain ⟨ht1, hn1⟩ := test_markFrom firstMarked 2 8 (by rw [hn0]; decide) b
  obtain ⟨ht2, hn2⟩ := test_markFrom (markFrom firstMarked 2 8) 10 343
    (by rw [hn1, hn0]; decide) b
  have he : reservedBitmap ipb = markFrom (markFrom firstMarked 2 8) 10 343 := rfl
  rw [he]
  refine ⟨?_, by rw [hn2, hn1, hn0]⟩
  rw [ht2, ht1, test_firstMarked, Bool.eq_iff_iff]
  simp only [firstData, Bool.or_eq_true, decide_eq_true_eq]
  omega

theorem BlockManager.init_test (b : BlockId) :
    init.blockBitmap.test b = decide (b.toNat < firstData) := by
  rw [init, (test_reservedBitmap b).1]

def emptyShare : Share := ⟨Inode.zero, fun _ => none, none, none, 0⟩

theorem BlockManager.init_represents :
    Represents (fun _ => emptyShare) (fun _ => none) BlockManager.init := by
  refine ⟨?_, fun n => ⟨⟨rfl, rfl⟩, rfl⟩, fun n h => absurd rfl h⟩
  constructor
  · exact (BlockManager.test_reservedBitmap 0).2
  · intro b hb
    rw [init_test, decide_eq_true hb]
  · intro n _
    exact Block.cell_zero _
  · intro n b c h
    cases h
  · intro n m b _ _
    rfl
  · intro n b h
    cases h
  · intro n b h
    cases h
  · intro b hb
    rw [init_test] at hb
    exact Or.inl (of_decide_eq_true hb)

/-- The files of a new server: the root directory. -/
def rootOnly : Files := fun n => if n = 1 then some ⟨1, []⟩ else none

/-- A new server has the root directory, and no inum holds a block. -/
theorem freshServer_represents (junk : Junk) : ∃ ls, Represents ls rootOnly (freshServer junk) ∧
    ∀ n b, (ls n).held b = none := by
  rcases BlockManager.init_represents.allocInode junk tDir with
    ⟨i, l', h0, hi, -, hleast, -, hheld, h'⟩ | ⟨hall, -⟩
  · have h1 : i = 1 := by
      by_contra hne
      exact hleast 1 Nat.one_pos (Nat.lt_of_le_of_ne h0 (Ne.symm hne)) rfl
    subst h1
    have hroot : Function.update (fun _ => none) 1 (newFile tDir) = rootOnly := by
      funext n
      rw [Function.update_apply]
      rfl
    rw [hroot] at h'
    refine ⟨_, h', fun n b => ?_⟩
    obtain rfl | hn := eq_or_ne n 1
    · rw [Function.update_self, hheld b]
      rfl
    · rw [Function.update_of_ne hn]
      rfl
  · exact absurd rfl (hall 1 (by decide) (by decide))

/-- The one inode that the constructor of `inode_manager` writes. -/
theorem freshServer_eq (junk : Junk) :
    freshServer junk = BlockManager.init.putCell 1 (newInode tDir) := by
  have hdead : ¬ BlockManager.init.Live 1 := BlockManager.init_represents.not_live rfl
  rcases findFreeInode_run junk BlockManager.init with
    ⟨i, h0, hi, -, hleast, hfind⟩ | ⟨hall, -⟩
  · have h1 : i = 1 := by
      by_contra hne
      exact hdead (hleast 1 Nat.one_pos (Nat.lt_of_le_of_ne h0 (Ne.symm hne)))
    subst h1
    rw [freshServer, allocInode_run hi tDir hfind]
  · exact absurd (hall 1 (by decide) (by decide)) hdead

/-- Memory that holds zeros only. -/
def noJunk : Junk := ⟨Block.zero, fun _ => 0⟩

/-! Runs. -/

/-- `P` holds of every request of a run and the state in which it is served. -/
abbrev Along (P : Call → BlockManager → Prop) : List Call → BlockManager → Prop :=
  EachStep (fun c s => (serve c s).2) P

end Yfs.Store
