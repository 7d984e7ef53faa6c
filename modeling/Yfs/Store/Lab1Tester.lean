import Yfs.Store.Exhaustion
import Yfs.Store.Handlers
import Mathlib.Data.Nat.Digits.Lemmas

/-! `lab1_tester`: its tests of an extent server, and the score that they come to. -/
namespace Yfs.Store
open Effect

/-- What a test asks for: a random number, or an operation of its `extent_client`. -/
inductive TestCmd where
  | rand
  | request (r : Request)

abbrev TestCmd.Reply : TestCmd → Type
  | .rand => ℕ
  | .request _ => Answer

abbrev Test (α : Type) : Type := Program TestCmd TestCmd.Reply α

/-- The server of the tester. The random numbers and what uninitialized memory holds are counted. -/
structure Bench where
  server : BlockManager
  drawn : ℕ
  served : ℕ

/-- What a command does, with the numbers that `rand` gives and the memory that requests find. -/
def Bench.exec (rands : ℕ → ℕ) (junk : ℕ → Junk) : (c : TestCmd) → Bench → c.Reply × Bench
  | .rand, b => (rands b.drawn, { b with drawn := b.drawn + 1 })
  | .request r, b =>
    ((serve ⟨r, junk b.served⟩ b.server).1,
      { b with server := (serve ⟨r, junk b.served⟩ b.server).2, served := b.served + 1 })

namespace Lab1Tester

def rand : Test ℕ := Program.request TestCmd.rand

def request (r : Request) : Test Answer := Program.request (TestCmd.request r)

/-- `extent_protocol::OK`, which every handler of the server returns. -/
def ok : Int32 := 0

/-! `extent_client`, whose methods give what the server returns and what it leaves in a variable. -/

def create (type : UInt32) : Test (Int32 × UInt64) := do
  match ← request (.create type) with
  | .created id => return (ok, id.toUInt64)
  | _ => return (ok, 0)

def getattr (id : UInt64) : Test (Int32 × Attr) := do
  match ← request (.getattr id) with
  | .attr a => return (ok, a)
  | _ => return (ok, ⟨0, 0, 0, 0, 0⟩)

def put (id : UInt64) (buf : List UInt8) : Test Int32 := do
  let _ ← request (.put id buf)
  return ok

def get (id : UInt64) : Test (Int32 × List UInt8) := do
  match ← request (.get id) with
  | .data buf => return (ok, buf)
  | _ => return (ok, [])

def remove (id : UInt64) : Test Int32 := do
  let _ ← request (.remove id)
  return ok

/-! The tests. A round of a loop gives the value with which the test returns, if it does. -/

def fileNum : ℕ := 50

def largeFileSize : ℕ := 512 * 64

/-- The loop goes on unless the test returns. -/
def next {σ : Type} (x : Option Int32 × σ) : ForInStep (Option Int32 × σ) :=
  if x.1.isSome then .done x else .yield x

/-- The id of the file of a round. -/
def fileId (i : ℕ) : UInt64 := UInt64.ofNat (i + 2)

def createFile (type : UInt32) : Test (Option Int32) := do
  let (_, id) ← create type
  if id.toUInt32.toInt32 = 0 then return some 1
  let (ret, a) ← getattr id
  if ret ≠ ok then return some 2
  if a.type ≠ type then return some 3
  return none

def testCreateAndGetattr (totalScore : ℕ) : Test (Int32 × ℕ) := do
  let (r, _) ← Program.loop (fun _ _ => do
    let rnum ← rand
    let r ← createFile (if rnum % 10 < 3 then tDir else tFile)
    return next (r, ())) fileNum 0 (none, ())
  match r with
  | some value => return (value, totalScore)
  | none => return (0, totalScore + 40)

/-- `char` number `97 + rnum` at each place, and what is in memory after the array up to a zero. -/
def fill (past : List UInt8) : Test (List UInt8) := do
  let temp ← Program.loop (fun _ temp => do
    let rnum ← rand
    return .yield (temp ++ [97 + UInt8.ofNat (rnum % 26)])) largeFileSize 0 []
  return temp ++ past

def testIndirect (past1 past2 : List UInt8) (totalScore : ℕ) : Test (Int32 × ℕ) := do
  let (_, id1) ← create tFile
  let buf ← fill past1
  if (← put id1 buf) ≠ ok then return (1, totalScore)
  let (_, id2) ← create tFile
  let buf2 ← fill past2
  if (← put id2 buf2) ≠ ok then return (2, totalScore)
  let (ret, bufGot) ← get id1
  if ret ≠ ok then return (3, totalScore)
  if buf ≠ bufGot then return (4, totalScore)
  let (ret, buf2Got) ← get id2
  if ret ≠ ok then return (5, totalScore)
  if buf2 ≠ buf2Got then return (6, totalScore)
  return (0, totalScore + 10)

/-- `sprintf` of a number that is not negative with `%d`. -/
def decimal (n : ℕ) : List UInt8 :=
  if n = 0 then [48] else (Nat.digits 10 n).reverse.map fun d => 48 + UInt8.ofNat d

def putFile (i : ℕ) (contents : ℕ → ℕ) : Test (Option Int32 × (ℕ → ℕ)) := do
  let (ret, a) ← getattr (fileId i)
  if ret ≠ ok then return (some 1, contents)
  if a.type = tFile then
    let rnum ← rand
    if (← put (fileId i) (decimal (rnum % 10000))) ≠ ok then return (some 2, contents)
    return (none, Function.update contents i (rnum % 10000))
  return (none, contents)

def getFile (i : ℕ) (contents : ℕ → ℕ) : Test (Option Int32) := do
  let (ret, a) ← getattr (fileId i)
  if ret ≠ ok then return some 3
  if a.type = tFile then
    let (ret, buf) ← get (fileId i)
    if ret ≠ ok then return some 4
    if buf ≠ decimal (contents i) then return some 5
  return none

/-- What `test_indirect` returns is ignored. -/
def testPutAndGet (contents : ℕ → ℕ) (past1 past2 : List UInt8) (totalScore : ℕ) :
    Test (Int32 × ℕ) := do
  let (r, contents) ← Program.loop (fun i x => do
    let x ← putFile i x.2
    return next x) fileNum 0 (none, contents)
  if let some value := r then return (value, totalScore)
  let (r, _) ← Program.loop (fun i _ => do
    let r ← getFile i contents
    return next (r, ())) fileNum 0 (none, ())
  if let some value := r then return (value, totalScore)
  let (_, totalScore) ← testIndirect past1 past2 (totalScore + 30)
  return (0, totalScore)

def removeFile (i : ℕ) : Test (Option Int32) := do
  if (← remove (fileId i)) ≠ ok then return some 1
  let (_, a) ← getattr (fileId i)
  if a.type ≠ 0 then return some 2
  return none

def testRemove (totalScore : ℕ) : Test (Int32 × ℕ) := do
  let (r, _) ← Program.loop (fun i _ => do
    let r ← removeFile i
    return next (r, ())) fileNum 0 (none, ())
  match r with
  | some value => return (value, totalScore)
  | none => return (0, totalScore + 20)

/-- The final score. -/
def main (contents : ℕ → ℕ) (past1 past2 : List UInt8) : Test ℕ := do
  let (r, totalScore) ← testCreateAndGetattr 0
  if r ≠ 0 then return totalScore
  let (r, totalScore) ← testPutAndGet contents past1 past2 totalScore
  if r ≠ 0 then return totalScore
  let (_, totalScore) ← testRemove totalScore
  return totalScore

end Lab1Tester

/-! What the server holds while the tests run. -/

/-- The server holds the files `m`, and has `spare` clear bits. -/
def Bench.Holding (m : Files) (spare : ℕ) (b : Bench) : Prop :=
  (∃ ls, Represents ls m b.server) ∧ spare ≤ (freeBits b.server.blockBitmap).card

/-- The files are those of the inums from 1 up to `n`, which is left out. -/
def Files.Upto (m : Files) (n : ℕ) : Prop := ∀ j, 0 < j → (m j = none ↔ n ≤ j)

theorem Bench.Holding.mono {m : Files} {b : Bench} {k spare : ℕ} (h : b.Holding m k)
    (hle : spare ≤ k) : b.Holding m spare := ⟨h.1, hle.trans h.2⟩

theorem rootOnly_upto : rootOnly.Upto 2 := by
  intro j h0
  unfold rootOnly
  split_ifs with h1
  · exact iff_of_false not_false (by omega)
  · exact iff_of_true rfl (by omega)

section Upto

variable {m : Files} {n j : ℕ} {f : File}

theorem Files.Upto.file (h : m.Upto n) (h0 : 0 < j) (hj : j < n) : ∃ f, m j = some f :=
  Option.ne_none_iff_exists'.mp fun he => absurd ((h j h0).mp he) (Nat.not_le.mpr hj)

theorem Files.Upto.add (h : m.Upto n) (f : File) :
    Files.Upto (Function.update m n (some f)) (n + 1) := by
  intro j h0
  obtain rfl | hne := eq_or_ne j n
  · rw [Function.update_self]
    exact iff_of_false (Option.some_ne_none f) (by omega)
  · rw [Function.update_of_ne hne, h j h0]
    omega

theorem Files.Upto.replace (h : m.Upto n) (hj : m j ≠ none) (f : File) :
    Files.Upto (Function.update m j (some f)) n := by
  intro i h0
  obtain rfl | hne := eq_or_ne i j
  · rw [Function.update_self]
    exact iff_of_false (Option.some_ne_none f) (mt (h i h0).mpr hj)
  · rw [Function.update_of_ne hne, h i h0]

end Upto

/-- The answer of a request about a file. -/
theorem Served.answer {ls ls' : ℕ → Share} {m m' : Files} {r : Request} {a : Answer} {n : ℕ}
    {f : File} (hs : Served ls m r a ls' m') (hr : r.inum = some n) (hm : m n = some f) :
    a = r.answer f := by
  have hsame : ∀ {i : ℕ} {g : File}, some i = some n → m i = some g → g = f := fun hi hg => by
    rw [Option.some.inj hi, hm] at hg
    exact (Option.some.inj hg).symm
  cases hs with
  | create h0 hi hfree hheld => cases hr
  | full hall => cases hr
  | put hf hw => rfl
  | get hf => rw [hsame hr hf]; rfl
  | getattr hf => rw [hsame hr hf]; rfl
  | remove hf hrem => rfl
  | unbound hn hnone =>
    rw [Option.some.inj (hr.symm.trans hn), hnone] at hm
    cases hm

theorem toUInt64_ofNat {n : ℕ} (hn : n < inodeNum) :
    (UInt32.ofNat n).toUInt64 = UInt64.ofNat n := by
  have hn : n < 1024 := hn
  apply UInt64.toNat_inj.mp
  rw [UInt32.toNat_toUInt64, UInt32.toNat_ofNat', UInt64.toNat_ofNat']
  omega

/-- The `int` that the tester makes of the id of a file is not 0. -/
theorem toInt32_ofNat_ne {n : ℕ} (h0 : 0 < n) (hn : n < inodeNum) :
    (UInt64.ofNat n).toUInt32.toInt32 ≠ 0 := by
  have hn : n < 1024 := hn
  intro he
  have hword := congrArg (fun x => x.toUInt32.toNat) he
  simp only [UInt32.toUInt32_toInt32, UInt64.toNat_toUInt32, UInt64.toNat_ofNat'] at hword
  have hzero : (0 : Int32).toUInt32.toNat = 0 := rfl
  rw [hzero] at hword
  omega

namespace Lab1Tester

section Tests

variable {rands : ℕ → ℕ} {junk : ℕ → Junk} {m : Files} {b : Bench} {n k i : ℕ} {id : UInt64}
  {f : File}

/-- A test that runs alone on the bench ends in `Q`. -/
abbrev Ends {α : Type} (rands : ℕ → ℕ) (junk : ℕ → Junk) (p : Test α) (Q : α → Bench → Prop)
    (b : Bench) : Prop := p.wlp (Bench.exec rands junk) (fun _ _ => True) Q b

theorem rand_ends (h : b.Holding m k) :
    Ends rands junk rand (fun _ b' => b'.Holding m k) b := fun _ => h

/-- A request does on the bench what the server does. -/
theorem request_serves {r : Request} {a : Answer}
    (ha : (serve ⟨r, junk b.served⟩ b.server).1 = a)
    (hrep : ∃ ls, Represents ls m (serve ⟨r, junk b.served⟩ b.server).2)
    (hfree : k ≤ (freeBits (serve ⟨r, junk b.served⟩ b.server).2.blockBitmap).card) :
    Ends rands junk (request r) (fun a' b' => a' = a ∧ b'.Holding m k) b :=
  fun _ => ⟨ha, hrep, hfree⟩

theorem request_ends {r : Request} (h : b.Holding m (r.demand m + k)) (hr : r.inum = some n)
    (hm : m n = some f) (hfits : r.Fits) :
    Ends rands junk (request r) (fun a b' => a = r.answer f ∧
      b'.Holding (Function.update m n (r.effect f)) k) b := by
  obtain ⟨⟨ls, hrep⟩, hfree⟩ := h
  have hpre := hrep.always ⟨r, junk b.served⟩ hfits.full (le_trans (Nat.le_add_right _ k) hfree)
  obtain ⟨ls', m', hserved, -⟩ := hrep.serve ⟨r, junk b.served⟩ hfits fun _ _ _ => hpre
  obtain ⟨hrep', hfree'⟩ := hrep.serve_effect (c := ⟨r, junk b.served⟩) hr hm hfits hfree
  exact request_serves (hserved.answer hr hm) hrep' hfree'

/-- A request that leaves its file as it is. -/
theorem asked_ends {r : Request} (h : b.Holding m k) (hr : r.inum = some n) (hm : m n = some f)
    (hfits : r.Fits) (hfree : r.demand m = 0) (heffect : r.effect f = some f) :
    Ends rands junk (request r) (fun a b' => a = r.answer f ∧ b'.Holding m k) b := by
  have hfund : b.Holding m (r.demand m + k) := h.mono (by omega)
  have hends : Ends rands junk (request r) (fun a b' => a = r.answer f ∧
      b'.Holding (Function.update m n (r.effect f)) k) b := request_ends hfund hr hm hfits
  rwa [heffect, ← hm, Function.update_eq_self] at hends

theorem create_ends (type : UInt32) (h : b.Holding m k) (hm : m.Upto n) (h0 : 0 < n)
    (hn : n < inodeNum) (hnew : newFile type = some f) :
    Ends rands junk (create type) (fun x b' => x = (ok, UInt64.ofNat n) ∧
      b'.Holding (Function.update m n (some f)) k) b := by
  obtain ⟨⟨ls, hrep⟩, hfree⟩ := h
  have hserve : serve ⟨.create type, junk b.served⟩ b.server =
      (.created ((allocInode (junk b.served) type).run exec b.server).1,
        ((allocInode (junk b.served) type).run exec b.server).2) := by
    rw [serve, Call.handler, Request.handler, ExtentServer.create, Program.run_bind]
    rfl
  have hnone : m n = none := (hm n h0).mpr le_rfl
  rcases hrep.allocInode (junk b.served) type with
    ⟨i, l', h0i, hi, hmi, hleast, hr, -, hrep'⟩ | ⟨hall, -⟩
  · have hin : i = n := by
      apply Nat.le_antisymm _ ((hm i h0i).mp hmi)
      by_contra hlt
      exact hleast n h0 (Nat.not_le.mp hlt) hnone
    subst hin
    rw [hnew] at hrep'
    have hends : Ends rands junk (request (.create type)) (fun a b' =>
        a = .created (UInt32.ofNat i) ∧ b'.Holding (Function.update m i (some f)) k) b := by
      apply request_serves
      · rw [hserve, hr]
      · rw [hserve]
        exact ⟨_, hrep'⟩
      · rw [hserve, allocInode_bitmap]
        exact hfree
    refine Program.wlp_seq _ hends ?_
    rintro a b' ⟨rfl, hb⟩
    exact fun _ => ⟨by rw [← toUInt64_ofNat hi]; rfl, hb⟩
  · exact absurd hnone (hall n h0 hn)

theorem getattr_ends (h : b.Holding m k) (hid : inumOf id = n) (hm : m n = some f) :
    Ends rands junk (getattr id) (fun x b' => x = (ok, f.attr) ∧ b'.Holding m k) b := by
  refine Program.wlp_seq _
    (asked_ends (r := .getattr id) h (congrArg some hid) hm trivial rfl rfl) ?_
  rintro a b' ⟨rfl, hb⟩
  exact fun _ => ⟨rfl, hb⟩

theorem get_ends (h : b.Holding m k) (hid : inumOf id = n) (hm : m n = some f) :
    Ends rands junk (get id) (fun x b' => x = (ok, f.bytes) ∧ b'.Holding m k) b := by
  refine Program.wlp_seq _ (asked_ends (r := .get id) h (congrArg some hid) hm trivial rfl rfl) ?_
  rintro a b' ⟨rfl, hb⟩
  exact fun _ => ⟨rfl, hb⟩

theorem put_ends {buf : List UInt8} (h : b.Holding m (maxFile + 1 + k))
    (hid : inumOf id = n) (hm : m n = some f) (hfits : blocksOf buf.length < maxFile) :
    Ends rands junk (put id buf) (fun ret b' => ret = ok ∧
      b'.Holding (Function.update m n (some ⟨f.type, buf⟩)) k) b := by
  have hdemand := Request.demand_le (r := .put id buf) hfits.le m
  have hfund : b.Holding m ((Request.put id buf).demand m + k) := h.mono (by omega)
  refine Program.wlp_seq _ (request_ends (r := .put id buf) hfund (congrArg some hid) hm hfits) ?_
  rintro a b' ⟨-, hb⟩
  exact fun _ => ⟨rfl, hb⟩

theorem remove_ends (h : b.Holding m k) (hid : inumOf id = n) (hm : m n = some f) :
    Ends rands junk (remove id) (fun ret b' => ret = ok ∧
      b'.Holding (Function.update m n none) k) b := by
  refine Program.wlp_seq _
    (request_ends (r := .remove id) (h.mono (Nat.zero_add k).le) (congrArg some hid) hm trivial) ?_
  rintro a b' ⟨-, hb⟩
  exact fun _ => ⟨rfl, hb⟩

/-- `getattr` of an inum without a file. -/
theorem getattr_unbound_ends (h : b.Holding m k) (hid : inumOf id = n) (hm : m n = none) :
    Ends rands junk (getattr id) (fun x b' => x.2.type = 0 ∧ b'.Holding m k) b := by
  obtain ⟨⟨ls, hrep⟩, hfree⟩ := h
  have hstate := serve_getattr id (junk b.served) b.server
  have hanswer : (serve ⟨.getattr id, junk b.served⟩ b.server).1 = .attr ⟨0, 0, 0, 0, 0⟩ := by
    rw [serve, Call.handler, Request.handler, ExtentServer.getattr, Program.run_bind,
      hid, getattr_dead _ (hrep.not_live hm)]
    rfl
  have hends : Ends rands junk (request (.getattr id)) (fun a b' => a = .attr ⟨0, 0, 0, 0, 0⟩ ∧
      b'.Holding m k) b := by
    apply request_serves hanswer
    · rw [hstate]
      exact ⟨ls, hrep⟩
    · rw [hstate]
      exact hfree
  refine Program.wlp_seq _ hends ?_
  rintro a b' ⟨rfl, hb⟩
  exact fun _ => ⟨rfl, hb⟩

/-! The tests. -/

theorem createFile_ends {type : UInt32} (htype : type = tDir ∨ type = tFile) (h : b.Holding m k)
    (hm : m.Upto n) (h0 : 0 < n) (hn : n < inodeNum) :
    Ends rands junk (createFile type) (fun r b' => r = none ∧
      ∃ m', m'.Upto (n + 1) ∧ b'.Holding m' k) b := by
  have hnew : ∃ f, newFile type = some f ∧ f.attr.type = type := by
    rcases htype with rfl | rfl
    · exact ⟨⟨1, []⟩, rfl, rfl⟩
    · exact ⟨⟨2, []⟩, rfl, rfl⟩
  obtain ⟨f, hf, hattr⟩ := hnew
  refine Program.wlp_seq _ (create_ends type h hm h0 hn hf) ?_
  rintro x b' ⟨rfl, hb⟩
  dsimp only
  rw [if_neg (toInt32_ofNat_ne h0 hn)]
  have hfile : Function.update m n (some f) n = some f := Function.update_self ..
  refine Program.wlp_seq _ (getattr_ends hb (inumOf_ofNat hn) hfile) ?_
  rintro x b' ⟨rfl, hb⟩
  dsimp only
  rw [if_neg (not_not_intro rfl), if_neg (not_not_intro hattr)]
  exact fun _ => ⟨rfl, _, hm.add f, hb⟩

theorem testCreateAndGetattr_ends (totalScore : ℕ) (h : b.Holding rootOnly k) :
    Ends rands junk (testCreateAndGetattr totalScore) (fun x b' => x = (0, totalScore + 40) ∧
      ∃ m, m.Upto (fileNum + 2) ∧ b'.Holding m k) b := by
  have hloop : Ends rands junk (Program.loop (fun _ _ => do
      let rnum ← rand
      let r ← createFile (if rnum % 10 < 3 then tDir else tFile)
      return next (r, ())) fileNum 0 (none, ())) (fun x b' => x = (none, ()) ∧
        ∃ m, m.Upto (fileNum + 2) ∧ b'.Holding m k) b := by
    refine Program.wlp_loop _ (fun i x b => x = (none, ()) ∧ ∃ m, m.Upto (i + 2) ∧ b.Holding m k)
      ⟨rfl, rootOnly, rootOnly_upto, h⟩ ?_ ?_
    · rintro i x b - hi ⟨rfl, m, hm, hb⟩
      have hlt : i + 2 < inodeNum := by
        simp only [fileNum, inodeNum] at *
        omega
      refine Program.wlp_seq _ (rand_ends hb) fun rnum b hb => ?_
      have htype : ∀ t, t = (if rnum % 10 < 3 then tDir else tFile) → t = tDir ∨ t = tFile := by
        rintro t rfl
        split_ifs
        · exact Or.inl rfl
        · exact Or.inr rfl
      refine Program.wlp_seq _ (createFile_ends (htype _ rfl) hb hm (by omega) hlt) ?_
      rintro r b ⟨rfl, m', hm', hb⟩
      exact fun _ => ⟨rfl, m', hm', hb⟩
    · rintro x b ⟨rfl, m, hm, hb⟩
      exact ⟨rfl, m, hm, hb⟩
  refine Program.wlp_seq _ hloop ?_
  rintro x b ⟨rfl, hb⟩
  exact fun _ => ⟨rfl, hb⟩

/-- The files of the rounds before `i` hold what has been written into them. -/
def Written (m : Files) (contents : ℕ → ℕ) (i : ℕ) : Prop :=
  ∀ j < i, ∀ f, m (j + 2) = some f → f.attr.type = tFile → f.bytes = decimal (contents j)

/-- The file of round `i` is written into. -/
theorem Written.put {contents : ℕ → ℕ} (hw : Written m contents i) (type : Int16) (r : ℕ) :
    Written (Function.update m (i + 2) (some ⟨type, decimal r⟩)) (Function.update contents i r)
      (i + 1) := by
  intro j hj g hg htype
  obtain rfl | hne := eq_or_ne j i
  · rw [Function.update_self] at hg ⊢
    rw [← Option.some.inj hg]
  · rw [Function.update_of_ne (by omega)] at hg
    rw [Function.update_of_ne hne]
    exact hw j (by omega) g hg htype

/-- Round `i` is about a directory. -/
theorem Written.skip {contents : ℕ → ℕ} (hw : Written m contents i) (hf : m (i + 2) = some f)
    (ht : f.attr.type ≠ tFile) : Written m contents (i + 1) := by
  intro j hj g hg htype
  obtain rfl | hne := eq_or_ne j i
  · rw [hf] at hg
    rw [← Option.some.inj hg] at htype
    exact absurd htype ht
  · exact hw j (by omega) g hg htype

theorem length_decimal_le {r : ℕ} (hr : r < 10000) : (decimal r).length ≤ 4 := by
  unfold decimal
  split_ifs
  · exact Nat.le_of_ble_eq_true rfl
  · rw [List.length_map, List.length_reverse, Nat.digits_length_le_iff (by decide)]
    exact hr

theorem putFile_ends {contents : ℕ → ℕ} (h : b.Holding m (maxFile + 1 + k)) (hm : m.Upto n)
    (hi : i + 2 < n) (hn : n < inodeNum) (hw : Written m contents i) :
    Ends rands junk (putFile i contents) (fun x b' => x.1 = none ∧
      ∃ m', m'.Upto n ∧ Written m' x.2 (i + 1) ∧ b'.Holding m' k) b := by
  have hid : inumOf (fileId i) = i + 2 := inumOf_ofNat (by omega)
  obtain ⟨f, hf⟩ := hm.file (by omega) hi
  refine Program.wlp_seq _ (getattr_ends h hid hf) ?_
  rintro x b' ⟨rfl, hb⟩
  dsimp only
  rw [if_neg (not_not_intro rfl)]
  by_cases ht : f.attr.type = tFile
  · rw [if_pos ht]
    refine Program.wlp_seq _ (rand_ends hb) fun rnum b hb => ?_
    have hlen := length_decimal_le (Nat.mod_lt rnum (show 10000 > 0 by decide))
    have hfits : blocksOf (decimal (rnum % 10000)).length < maxFile := by
      simp only [blocksOf, maxFile, nDirect, nIndirect]
      omega
    refine Program.wlp_seq _ (put_ends hb hid hf hfits) ?_
    rintro ret b ⟨rfl, hb⟩
    rw [if_neg (not_not_intro rfl)]
    have hbound : m (i + 2) ≠ none := by
      rw [hf]
      exact Option.some_ne_none f
    exact fun _ => ⟨rfl, _, hm.replace hbound _, hw.put f.type _, hb⟩
  · rw [if_neg ht]
    exact fun _ => ⟨rfl, m, hm, hw.skip hf ht, hb.mono (by omega)⟩

theorem getFile_ends {contents : ℕ → ℕ} {l : ℕ} (h : b.Holding m k) (hm : m.Upto n)
    (hi : i + 2 < n) (hn : n < inodeNum) (hw : Written m contents l) (hil : i < l) :
    Ends rands junk (getFile i contents) (fun r b' => r = none ∧ b'.Holding m k) b := by
  have hid : inumOf (fileId i) = i + 2 := inumOf_ofNat (by omega)
  obtain ⟨f, hf⟩ := hm.file (by omega) hi
  refine Program.wlp_seq _ (getattr_ends h hid hf) ?_
  rintro x b' ⟨rfl, hb⟩
  dsimp only
  rw [if_neg (not_not_intro rfl)]
  by_cases ht : f.attr.type = tFile
  · rw [if_pos ht]
    refine Program.wlp_seq _ (get_ends hb hid hf) ?_
    rintro x b' ⟨rfl, hb⟩
    dsimp only
    rw [if_neg (not_not_intro rfl), if_neg (not_not_intro (hw i hil f hf ht))]
    exact fun _ => ⟨rfl, hb⟩
  · rw [if_neg ht]
    exact fun _ => ⟨rfl, hb⟩

theorem fill_ends (past : List UInt8) (h : b.Holding m k) :
    Ends rands junk (fill past) (fun buf b' => buf.length = largeFileSize + past.length ∧
      b'.Holding m k) b := by
  have hloop : Ends rands junk (Program.loop (fun _ temp => do
      let rnum ← rand
      return .yield (temp ++ [97 + UInt8.ofNat (rnum % 26)])) largeFileSize 0 ([] : List UInt8))
      (fun temp b' => temp.length = largeFileSize ∧ b'.Holding m k) b := by
    refine Program.wlp_loop _ (fun i temp b => temp.length = i ∧ b.Holding m k) ⟨rfl, h⟩ ?_ ?_
    · rintro i temp b - - ⟨rfl, hb⟩
      refine Program.wlp_seq _ (rand_ends hb) fun rnum b hb => ?_
      exact fun _ => ⟨List.length_append.trans rfl, hb⟩
    · rintro temp b ⟨hlen, hb⟩
      exact ⟨hlen.trans (Nat.zero_add _), hb⟩
  refine Program.wlp_seq _ hloop ?_
  rintro temp b ⟨hlen, hb⟩
  have hall : (temp ++ past).length = largeFileSize + past.length := by
    rw [List.length_append, hlen]
  exact fun _ => ⟨hall, hb⟩

/-- The large files have blocks enough, and each reads back what was put. -/
theorem testIndirect_ends {past1 past2 : List UInt8}
    (h1 : blocksOf (largeFileSize + past1.length) < maxFile)
    (h2 : blocksOf (largeFileSize + past2.length) < maxFile) (totalScore : ℕ)
    (h : b.Holding m (maxFile + 1 + (maxFile + 1 + k))) (hm : m.Upto n) (h0 : 0 < n)
    (hn : n + 1 < inodeNum) :
    Ends rands junk (testIndirect past1 past2 totalScore) (fun x b' =>
      x = (0, totalScore + 10) ∧ ∃ m', m'.Upto (n + 2) ∧ b'.Holding m' k) b := by
  have hid1 : inumOf (UInt64.ofNat n) = n := inumOf_ofNat (by omega)
  have hid2 : inumOf (UInt64.ofNat (n + 1)) = n + 1 := inumOf_ofNat hn
  refine Program.wlp_seq _ (create_ends (f := ⟨2, []⟩) tFile h hm h0 (by omega) rfl) ?_
  rintro x b ⟨rfl, hb⟩
  refine Program.wlp_seq _ (fill_ends past1 hb) ?_
  rintro buf b ⟨hlen, hb⟩
  have hf1 : Function.update m n (some ⟨2, []⟩) n = some ⟨2, []⟩ := Function.update_self ..
  refine Program.wlp_seq _ (put_ends hb hid1 hf1 (hlen ▸ h1)) ?_
  rintro ret b ⟨rfl, hb⟩
  rw [if_neg (not_not_intro rfl)]
  rw [Function.update_idem] at hb
  refine Program.wlp_seq _ (create_ends (f := ⟨2, []⟩) tFile hb (hm.add _) (by omega) hn rfl) ?_
  rintro x b ⟨rfl, hb⟩
  refine Program.wlp_seq _ (fill_ends past2 hb) ?_
  rintro buf2 b ⟨hlen2, hb⟩
  have hf2 : Function.update (Function.update m n (some ⟨2, buf⟩)) (n + 1) (some ⟨2, []⟩) (n + 1) =
    some ⟨2, []⟩ := Function.update_self ..
  refine Program.wlp_seq _ (put_ends hb hid2 hf2 (hlen2 ▸ h2)) ?_
  rintro ret b ⟨rfl, hb⟩
  rw [if_neg (not_not_intro rfl)]
  rw [Function.update_idem] at hb
  have hg1 : Function.update (Function.update m n (some ⟨2, buf⟩)) (n + 1) (some ⟨2, buf2⟩) n =
      some ⟨2, buf⟩ := by
    rw [Function.update_of_ne (by omega), Function.update_self]
  have hg2 : Function.update (Function.update m n (some ⟨2, buf⟩)) (n + 1) (some ⟨2, buf2⟩)
      (n + 1) = some ⟨2, buf2⟩ := Function.update_self ..
  refine Program.wlp_seq _ (get_ends hb hid1 hg1) ?_
  rintro x b ⟨rfl, hb⟩
  dsimp only
  rw [if_neg (not_not_intro rfl), if_neg (not_not_intro rfl)]
  refine Program.wlp_seq _ (get_ends hb hid2 hg2) ?_
  rintro x b ⟨rfl, hb⟩
  dsimp only
  rw [if_neg (not_not_intro rfl), if_neg (not_not_intro rfl)]
  exact fun _ => ⟨rfl, _, (hm.add _).add _, hb⟩

/-- The blocks that the puts of `test_put_and_get` may take. -/
def budget (puts : ℕ) : ℕ := puts * (maxFile + 1)

theorem budget_succ (puts : ℕ) : budget (puts + 1) = maxFile + 1 + budget puts := by
  simp only [budget, Nat.add_one_mul, Nat.add_comm]

theorem testPutAndGet_ends (contents : ℕ → ℕ) {past1 past2 : List UInt8}
    (h1 : blocksOf (largeFileSize + past1.length) < maxFile)
    (h2 : blocksOf (largeFileSize + past2.length) < maxFile) (totalScore : ℕ)
    (h : b.Holding m (budget (fileNum + 2))) (hm : m.Upto (fileNum + 2)) :
    Ends rands junk (testPutAndGet contents past1 past2 totalScore) (fun x b' =>
      x = (0, totalScore + 40) ∧ ∃ m', m'.Upto (fileNum + 4) ∧ b'.Holding m' 0) b := by
  have hn : fileNum + 2 < inodeNum := by decide
  have hputs : Ends rands junk (Program.loop (fun i x => do
      let x ← putFile i x.2
      return next x) fileNum 0 (none, contents)) (fun x b' => x.1 = none ∧
        ∃ m', m'.Upto (fileNum + 2) ∧ Written m' x.2 fileNum ∧ b'.Holding m' (budget 2)) b := by
    refine Program.wlp_loop _ (fun i x b => x.1 = none ∧ ∃ m', m'.Upto (fileNum + 2) ∧
      Written m' x.2 i ∧ b.Holding m' (budget (fileNum + 2 - i)))
      ⟨rfl, m, hm, fun j hj => absurd hj (Nat.not_lt_zero j), h⟩ ?_ ?_
    · rintro i x b - hi ⟨-, m', hm', hw, hb⟩
      have hleft : fileNum + 2 - i = (fileNum + 2 - (i + 1)) + 1 := by omega
      rw [hleft, budget_succ] at hb
      refine Program.wlp_seq _ (putFile_ends hb hm' (by omega) hn hw) ?_
      rintro ⟨r, contents'⟩ b ⟨rfl, m'', hm'', hw', hb⟩
      exact fun _ => ⟨rfl, m'', hm'', hw', hb⟩
    · rintro x b ⟨hx, m', hm', hw, hb⟩
      rw [Nat.zero_add] at hw hb
      exact ⟨hx, m', hm', hw, hb⟩
  refine Program.wlp_seq _ hputs ?_
  rintro ⟨r, contents'⟩ b ⟨rfl, m', hm', hw, hb⟩
  have hgets : Ends rands junk (Program.loop (fun i _ => do
      let r ← getFile i contents'
      return next (r, ())) fileNum 0 (none, ())) (fun x b' => x = (none, ()) ∧
        b'.Holding m' (budget 2)) b := by
    refine Program.wlp_loop _ (fun _ x b => x = (none, ()) ∧ b.Holding m' (budget 2))
      ⟨rfl, hb⟩ ?_ ?_
    · rintro i x b - hi ⟨-, hb⟩
      refine Program.wlp_seq _ (getFile_ends hb hm' (by omega) hn hw (by omega)) ?_
      rintro r b ⟨rfl, hb⟩
      exact fun _ => ⟨rfl, hb⟩
    · exact fun x b hx => hx
  refine Program.wlp_seq _ hgets ?_
  rintro x b ⟨rfl, hb⟩
  refine Program.wlp_seq _
    (testIndirect_ends (k := 0) h1 h2 (totalScore + 30) hb hm' (by omega) (by decide)) ?_
  rintro x b ⟨rfl, m'', hm'', hb⟩
  exact fun _ => ⟨rfl, m'', hm'', hb⟩

theorem removeFile_ends (h : b.Holding m k) (hf : m (i + 2) = some f) (hi : i + 2 < inodeNum) :
    Ends rands junk (removeFile i) (fun r b' => r = none ∧
      b'.Holding (Function.update m (i + 2) none) k) b := by
  have hid : inumOf (fileId i) = i + 2 := inumOf_ofNat hi
  refine Program.wlp_seq _ (remove_ends h hid hf) ?_
  rintro ret b ⟨rfl, hb⟩
  rw [if_neg (not_not_intro rfl)]
  refine Program.wlp_seq _ (getattr_unbound_ends hb hid (Function.update_self ..)) ?_
  rintro x b ⟨hx, hb⟩
  dsimp only
  rw [if_neg (not_not_intro hx)]
  exact fun _ => ⟨rfl, hb⟩

theorem testRemove_ends (totalScore : ℕ) (h : b.Holding m k) (hm : m.Upto n)
    (hn : fileNum + 2 ≤ n) :
    Ends rands junk (testRemove totalScore) (fun x _ => x = (0, totalScore + 20)) b := by
  have hloop : Ends rands junk (Program.loop (fun i _ => do
      let r ← removeFile i
      return next (r, ())) fileNum 0 (none, ())) (fun x _ => x = (none, ())) b := by
    refine Program.wlp_loop _ (fun i x b => x = (none, ()) ∧
      ∃ m', (∀ j, i ≤ j → j < fileNum → m' (j + 2) ≠ none) ∧ b.Holding m' k) ⟨rfl, m, ?_, h⟩ ?_ ?_
    · intro j _ hj hnone
      have hle := (hm (j + 2) (by omega)).mp hnone
      omega
    · rintro i x b - hi ⟨-, m', hleft, hb⟩
      have hi' : i < fileNum := by omega
      obtain ⟨f, hf⟩ := Option.ne_none_iff_exists'.mp (hleft i le_rfl hi')
      have hlt : i + 2 < inodeNum := by
        simp only [fileNum, inodeNum] at *
        omega
      refine Program.wlp_seq _ (removeFile_ends hb hf hlt) ?_
      rintro r b ⟨rfl, hb⟩
      refine fun _ => ⟨rfl, _, fun j hj hlt => ?_, hb⟩
      rw [Function.update_of_ne (by omega)]
      exact hleft j (by omega) hlt
    · exact fun x b hx => hx.1
  refine Program.wlp_seq _ hloop ?_
  rintro x b rfl
  exact fun _ => rfl

end Tests

end Lab1Tester

/-- The tester gives the full score, whatever numbers `rand` gives and whatever is in the memory
that is not initialized, as long as no such memory makes a large file too large. -/
theorem lab1_full_score (rands : ℕ → ℕ) (junk : ℕ → Junk) (contents : ℕ → ℕ)
    {past1 past2 : List UInt8}
    (h1 : blocksOf (Lab1Tester.largeFileSize + past1.length) < maxFile)
    (h2 : blocksOf (Lab1Tester.largeFileSize + past2.length) < maxFile) (first : Junk) :
    ((Lab1Tester.main contents past1 past2).run (Bench.exec rands junk)
      ⟨freshServer first, 0, 0⟩).1 = 100 := by
  obtain ⟨ls, hrep, hheld⟩ := freshServer_represents first
  have hfree := (show Lab1Tester.budget (Lab1Tester.fileNum + 2) ≤ 32415 by decide).trans
    (hrep.valid.free_of_idle hheld)
  have hb : Bench.Holding rootOnly (Lab1Tester.budget (Lab1Tester.fileNum + 2))
      ⟨freshServer first, 0, 0⟩ := ⟨⟨ls, hrep⟩, hfree⟩
  have hmain : Lab1Tester.Ends rands junk (Lab1Tester.main contents past1 past2)
      (fun score _ => score = 100) ⟨freshServer first, 0, 0⟩ := by
    refine Program.wlp_seq _ (Lab1Tester.testCreateAndGetattr_ends 0 hb) ?_
    rintro x b ⟨rfl, m, hm, hb⟩
    dsimp only
    rw [if_neg (not_not_intro rfl)]
    refine Program.wlp_seq _ (Lab1Tester.testPutAndGet_ends contents h1 h2 _ hb hm) ?_
    rintro x b ⟨rfl, m', hm', hb⟩
    dsimp only
    rw [if_neg (not_not_intro rfl)]
    refine Program.wlp_seq _ (Lab1Tester.testRemove_ends _ hb hm' (by decide)) ?_
    rintro x b rfl
    exact fun _ => rfl
  exact hmain (Program.always_true _ _ _)

theorem lab1_full_score_example :
    ((Lab1Tester.main (fun _ => 0) [] []).run (Bench.exec (fun i => i) fun _ => noJunk)
      ⟨freshServer noJunk, 0, 0⟩).1 = 100 :=
  lab1_full_score (fun i => i) (fun _ => noJunk) (fun _ => 0) (by decide) (by decide) noJunk

end Yfs.Store
