import Yfs.Store.Serve

/-! The extent server refines a map from inums to typed byte strings. -/
namespace Yfs.Store
open Effect

/-- A map from inums to the type and the bytes of a file. -/
abbrev Contents : Type := ℕ → Option (UInt32 × List UInt8)

/-- What a request answers and does according to the map. -/
inductive Spec (m : Contents) : Request → Answer → Contents → Prop where
  | create {type : UInt32} {n : ℕ} (h0 : 0 < n) (hn : n < inodeNum) (hfree : m n = none) :
    Spec m (.create type) (.created (UInt32.ofNat n)) (Function.update m n (some (type, [])))
  | createFull {type : UInt32} (hfull : ∀ n, 0 < n → n < inodeNum → m n ≠ none) :
    Spec m (.create type) (.created 0) m
  | put {id : UInt64} {buf old : List UInt8} {type : UInt32}
    (hm : m (inumOf id) = some (type, old)) :
    Spec m (.put id buf) .ok (Function.update m (inumOf id) (some (type, buf)))
  | putUnbound {id : UInt64} {buf : List UInt8} (hm : m (inumOf id) = none) :
    Spec m (.put id buf) .ok m
  | get {id : UInt64} {buf : List UInt8} {type : UInt32} (hm : m (inumOf id) = some (type, buf)) :
    Spec m (.get id) (.data buf) m
  | getUnbound {id : UInt64} (hm : m (inumOf id) = none) : Spec m (.get id) (.data []) m
  | getattr {id : UInt64} {buf : List UInt8} {type : UInt32}
    (hm : m (inumOf id) = some (type, buf)) :
    Spec m (.getattr id) (.attr ⟨type, 0, 0, 0, UInt32.ofNat buf.length⟩) m
  | getattrUnbound {id : UInt64} (hm : m (inumOf id) = none) :
    Spec m (.getattr id) (.attr ⟨0, 0, 0, 0, 0⟩) m
  | remove {id : UInt64} : Spec m (.remove id) .ok (Function.update m (inumOf id) none)

/-- A run of requests with their answers that the map allows. -/
inductive SpecRun : Contents → List (Request × Answer) → Contents → Prop where
  | nil {m : Contents} : SpecRun m [] m
  | cons {m m' m'' : Contents} {r : Request} {a : Answer} {log : List (Request × Answer)}
    (hstep : Spec m r a m') (hrun : SpecRun m' log m'') : SpecRun m ((r, a) :: log) m''

/-- The map of a new server. -/
def Contents.initial : Contents := fun n => if n = 1 then some (tDir, []) else none

/-- The requests of a run with the answers of the server. -/
def log : List Call → BlockManager → List (Request × Answer)
  | [], _ => []
  | c :: calls, s => (c.request, (serve c s).1) :: log calls (serve c s).2

/-- The map that the disk of a server stands for. -/
def BlockManager.contents (s : BlockManager) : Contents := fun n =>
  if n < inodeNum then
    let ino := s.inode n
    if ino.type = 0 then none
    else some (ino.type.toInt32.toUInt32, (List.range ino.size.toNat).map fun k =>
      (s.d (s.slot n (.data (k / blockSize))).toNat).byte (k % blockSize))
  else none

/-- A request of a safe run. -/
def Call.Safe (c : Call) (s : BlockManager) : Prop :=
  (∀ type, c.request = .create type → type = tDir ∨ type = tFile) ∧ c.request.Fits ∧
    c.handler.Always exec FindsClear s

def File.entry (f : File) : UInt32 × List UInt8 := (f.type.toInt32.toUInt32, f.bytes)

section Represents

variable {ls : ℕ → Share} {m : Files} {s : BlockManager}

theorem Represents.contents_eq (h : Represents ls m s) :
    s.contents = fun n => (m n).map File.entry := by
  funext n
  unfold BlockManager.contents
  by_cases hn : n < inodeNum
  · simp only [if_pos hn, h.inode_eq hn]
    cases hm : m n with
    | none =>
      have hh := h.holds n
      rw [hm] at hh
      exact if_pos hh.2
    | some f =>
      have hst := h.stores hm
      rw [if_neg hst.type_ne, hst.type_eq, hst.size_eq]
      refine congrArg (fun bs => some (f.type.toInt32.toUInt32, bs)) ?_
      apply List.ext_getElem
      · simp
      intro k hk _
      have hk' : k < f.bytes.length := by simpa using hk
      have hin : (Pos.data (k / blockSize)).InUse (blocksOf f.bytes.length) := by
        change k / 512 < _
        rw [lt_blocksOf_iff]
        omega
      obtain ⟨c, hc, hb⟩ := hst.content k hk'
      rw [List.getElem_map, List.getElem_range, h.slot_eq hm hin, (h.valid.held n _ c hc).2.2]
      refine hb.trans ?_
      simp [hk']
  · have hm : m n = none := by
      by_contra hm
      exact hn (h.bound n hm)
    rw [if_neg hn, hm]
    rfl

/-- What a request does to the files it does to the map. -/
theorem Served.spec {r : Request} {a : Answer} {ls' : ℕ → Share} {m' : Files}
    (h : Served ls m r a ls' m') (hr : ∀ type, r = .create type → type = tDir ∨ type = tFile) :
    Spec (fun n => (m n).map File.entry) r a (fun n => (m' n).map File.entry) := by
  have hupdate : ∀ (i : ℕ) (o : Option File),
      (fun n => (Function.update m i o n).map File.entry) =
        Function.update (fun n => (m n).map File.entry) i (o.map File.entry) := by
    intro i o
    funext n
    exact Function.apply_update (fun _ => Option.map File.entry) m i o n
  have hsome : ∀ {n : ℕ} {f : File}, m n = some f → (m n).map File.entry = some f.entry := by
    intro n f hf
    rw [hf]
    rfl
  have hnone : ∀ {n : ℕ}, m n = none → (m n).map File.entry = none := by
    intro n hn
    rw [hn]
    rfl
  cases h with
  | @create type i l' h0 hi hm hheld =>
    have hnew : (newFile type).map File.entry = some (type, []) := by
      rcases hr type rfl with rfl | rfl <;> decide
    rw [hupdate, hnew]
    exact .create h0 hi (hnone hm)
  | full hall =>
    refine .createFull fun n h0 hn he => hall n h0 hn ?_
    exact Option.map_eq_none_iff.mp he
  | put hf hw =>
    have hm := hsome hf
    rw [hupdate]
    exact .put hm
  | get hf => exact .get (hsome hf)
  | getattr hf => exact .getattr (hsome hf)
  | remove hf hr' =>
    rw [hupdate]
    exact .remove
  | @unbound r n hn hm =>
    cases r with
    | create type => cases hn
    | put id buf =>
      cases hn
      exact .putUnbound (hnone hm)
    | get id =>
      cases hn
      exact .getUnbound (hnone hm)
    | getattr id =>
      cases hn
      exact .getattrUnbound (hnone hm)
    | remove id =>
      cases hn
      have hs : Spec (fun n => (m n).map File.entry) (.remove id) .ok
          (Function.update (fun n => (m n).map File.entry) (inumOf id) none) := .remove
      rwa [← hnone hm, Function.update_eq_self] at hs

theorem Represents.refines (h : Represents ls m s) {calls : List Call}
    (hsafe : Along Call.Safe calls s) :
    SpecRun s.contents (log calls s) (serveAll calls s).contents := by
  induction calls generalizing ls m s with
  | nil => exact .nil
  | cons c calls ih =>
    obtain ⟨⟨hcreate, hfits, hpre⟩, hrest⟩ := hsafe
    obtain ⟨ls', m', hserved, h'⟩ := h.serve c hfits fun _ _ _ => hpre
    have hstep := hserved.spec hcreate
    rw [← h.contents_eq, ← h'.contents_eq] at hstep
    exact .cons hstep (ih h' hrest)

/-- Without puts a run allocates nothing. -/
theorem Represents.safe_of_noPut (h : Represents ls m s) {calls : List Call}
    (hcalls : ∀ c ∈ calls, (∀ type, c.request = .create type → type = tDir ∨ type = tFile) ∧
      ∀ id buf, c.request ≠ .put id buf) : Along Call.Safe calls s := by
  induction calls generalizing ls m s with
  | nil => trivial
  | cons c calls ih =>
    obtain ⟨hcreate, hput⟩ := hcalls c (List.mem_cons_self ..)
    have hfits : c.request.Fits := by
      cases hr : c.request with
      | put id buf => exact absurd hr (hput id buf)
      | _ => trivial
    have hfree : c.request.demand m ≤ (freeBits s.blockBitmap).card := by
      cases hr : c.request with
      | put id buf => exact absurd hr (hput id buf)
      | _ => exact Nat.zero_le _
    obtain ⟨ls', m', -, h'⟩ := h.serve c hfits fun _ _ hr => absurd hr (hput _ _)
    exact ⟨⟨hcreate, hfits, h.always c hfits.full hfree⟩,
      ih h' fun c hc => hcalls c (List.mem_cons_of_mem _ hc)⟩

/-- A run that begins with a put on a new server and puts nothing more is safe. -/
theorem safe_put_cons (junk : Junk) (id : UInt64) {buf : List UInt8} (calls : List Call)
    (hfits : blocksOf buf.length < maxFile)
    (hcalls : ∀ c ∈ calls, (∀ type, c.request = .create type → type = tDir ∨ type = tFile) ∧
      ∀ id buf, c.request ≠ .put id buf) :
    Along Call.Safe (⟨.put id buf, junk⟩ :: calls) (freshServer junk) := by
  obtain ⟨ls, h, hheld⟩ := freshServer_represents junk
  have hdemand := Request.demand_le (r := .put id buf) hfits.le rootOnly
  have hfree := (hdemand.trans (show maxFile + 1 ≤ 32415 by decide)).trans
    (h.valid.free_of_idle hheld)
  have hpre := h.always ⟨.put id buf, junk⟩ hfits.le hfree
  obtain ⟨ls', m', -, h'⟩ := h.serve ⟨.put id buf, junk⟩ hfits fun _ _ _ => hpre
  refine ⟨⟨?_, hfits, hpre⟩, h'.safe_of_noPut hcalls⟩
  intro type hr
  cases hr

end Represents

theorem freshServer_contents (junk : Junk) : (freshServer junk).contents = Contents.initial := by
  obtain ⟨ls, h, -⟩ := freshServer_represents junk
  rw [h.contents_eq]
  funext n
  unfold rootOnly Contents.initial
  split_ifs <;> rfl

/-- The extent server refines the map along every safe run. -/
theorem extentServer_refines (junk : Junk) (calls : List Call)
    (hsafe : Along Call.Safe calls (freshServer junk)) :
    SpecRun Contents.initial (log calls (freshServer junk))
      (serveAll calls (freshServer junk)).contents := by
  obtain ⟨ls, h, -⟩ := freshServer_represents junk
  rw [← freshServer_contents junk]
  exact h.refines hsafe

theorem extentServer_refines_example :
    SpecRun Contents.initial
      (log [⟨.put 1 [7, 8], noJunk⟩, ⟨.create tFile, noJunk⟩, ⟨.get 1, noJunk⟩,
        ⟨.remove 1, noJunk⟩] (freshServer noJunk))
      (serveAll [⟨.put 1 [7, 8], noJunk⟩, ⟨.create tFile, noJunk⟩, ⟨.get 1, noJunk⟩,
        ⟨.remove 1, noJunk⟩] (freshServer noJunk)).contents := by
  apply extentServer_refines
  apply safe_put_cons
  · decide
  · intro c hc
    simp only [List.mem_cons, List.not_mem_nil, or_false] at hc
    rcases hc with rfl | rfl | rfl <;> simp

end Yfs.Store
