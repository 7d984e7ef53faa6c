import Yfs.Store.Bounds

/-! Two in-use slots never hold the same block as long as the disk does not fill up. -/
namespace Yfs.Store
open Effect

/-- No block is in two in-use slots, none of them is reserved, and the reserved blocks
are marked. -/
structure BlockManager.Separated (s : BlockManager) : Prop where
  inj : ∀ n m (p q : Pos), s.Live n → s.Live m → p.InUse (s.blocks n) → q.InUse (s.blocks m) →
    s.slot n p = s.slot m q → n = m ∧ p = q
  unreserved : ∀ n (p : Pos), s.Live n → p.InUse (s.blocks n) →
    ¬ (s.slot n p).toNat < firstData
  reserved : ∀ b : BlockId, b.toNat < firstData → s.blockBitmap.test b = true

/-- A put on a live inum finds as many clear bits as it has to allocate. -/
def Call.Funded (c : Call) (s : BlockManager) : Prop :=
  ∀ id buf, c.request = .put id buf → s.Live (inumOf id) →
    need (s.blocks (inumOf id)) (blocksOf buf.length) ≤ (freeBits s.blockBitmap).card

section Separated

variable {ls : ℕ → Share} {m : Files} {s : BlockManager}

theorem Represents.separated (h : Represents ls m s) : s.Separated := by
  have hheld : ∀ {n : ℕ} {p : Pos}, s.Live n → p.InUse (s.blocks n) →
      (ls n).held (s.slot n p) ≠ none ∧ ∀ q : Pos, q.InUse (s.blocks n) →
        s.slot n p = s.slot n q → p = q := by
    intro n p hl hp
    obtain ⟨f, hf⟩ := Option.ne_none_iff_exists'.mp (h.live_iff.mp hl)
    have hst := h.stores hf
    rw [h.blocks_eq hf] at hp ⊢
    rw [h.slot_eq hf hp]
    refine ⟨hst.inUse p hp, fun q hq he => ?_⟩
    rw [h.slot_eq hf hq] at he
    exact hst.inj p q hp hq he
  constructor
  · intro n k p q hn hk hp hq he
    obtain ⟨hpn, hinj⟩ := hheld hn hp
    have hnk : n = k := by
      by_contra hne
      have hnone := h.valid.apart n k _ hne hpn
      rw [he] at hnone
      exact (hheld hk hq).1 hnone
    subst hnk
    exact ⟨rfl, hinj q hq he⟩
  · intro n p hn hp
    have hdata := h.valid.held_isSome_data (hheld hn hp).1
    exact Nat.not_lt.mpr hdata.1
  · exact h.valid.reserved

theorem Call.Funded.demand_le (h : Represents ls m s) {c : Call} (hc : c.Funded s) :
    c.request.demand m ≤ (freeBits s.blockBitmap).card := by
  cases hr : c.request with
  | put id buf =>
    cases hf : m (inumOf id) with
    | none =>
      simp only [Request.demand, hf]
      exact Nat.zero_le _
    | some f =>
      have hlive : s.Live (inumOf id) := by
        rw [h.live_iff, hf]
        exact Option.some_ne_none f
      have hle := hc id buf hr hlive
      rw [h.blocks_eq hf] at hle
      simpa only [Request.demand, hf] using hle
  | _ => exact Nat.zero_le _

theorem Represents.funded_step (h : Represents ls m s) (c : Call) (hfits : c.request.Fits)
    (hc : c.Funded s) :
    ∃ ls' m', Served ls m c.request (Store.serve c s).1 ls' m' ∧
      Represents ls' m' (Store.serve c s).2 :=
  h.serve c hfits fun _ _ _ => h.always c hfits.full (hc.demand_le h)

/-- A put concerns the contents of its own inum only. -/
theorem Served.contents_other {r : Request} {a : Answer} {ls' : ℕ → Share} {m' : Files}
    (hs : Served ls m r a ls' m') {id : UInt64} {buf : List UInt8} (hr : r = .put id buf) {n : ℕ}
    (hn : n ≠ inumOf id) : m' n = m n := by
  subst hr
  cases hs with
  | put hf hw => exact Function.update_of_ne hn _ _
  | unbound => rfl

end Separated

/-- In a run whose puts find the blocks they ask for, blocks stay separated, and no put
changes what is read from another inum. -/
theorem separated_of_funded (junk : Junk) (calls : List Call)
    (hrun : Along (fun c s => c.request.Fits ∧ c.Funded s) calls (freshServer junk)) :
    (serveAll calls (freshServer junk)).Separated ∧
      ∀ c : Call, c.request.Fits → c.Funded (serveAll calls (freshServer junk)) →
        ∀ id buf, c.request = .put id buf → ∀ n, n ≠ inumOf id →
          (serve c (serveAll calls (freshServer junk))).2.contents n =
            (serveAll calls (freshServer junk)).contents n := by
  obtain ⟨ls, h, -⟩ := freshServer_represents junk
  obtain ⟨ls', m', h'⟩ := EachStep.invariant _ (I := fun s => ∃ ls m, Represents ls m s)
    (fun c s ⟨ls, m, h⟩ hc => by
      obtain ⟨ls', m', -, h'⟩ := h.funded_step c hc.1 hc.2
      exact ⟨ls', m', h'⟩) ⟨ls, rootOnly, h⟩ hrun
  have h' : Represents ls' m' (serveAll calls (freshServer junk)) := h'
  refine ⟨h'.separated, fun c hfits hc id buf hr n hn => ?_⟩
  obtain ⟨ls'', m'', hs, h''⟩ := h'.funded_step c hfits hc
  rw [h''.contents_eq, h'.contents_eq]
  dsimp only
  rw [hs.contents_other hr hn]

theorem separated_of_funded_example :
    (serveAll [⟨.put 1 [7], noJunk⟩] (freshServer noJunk)).Separated := by
  refine (separated_of_funded noJunk [⟨.put 1 [7], noJunk⟩] ⟨⟨?_, ?_⟩, trivial⟩).1
  · change blocksOf 1 < maxFile
    decide
  · intro id buf hr _
    cases hr
    obtain ⟨ls, h, hheld⟩ := freshServer_represents noJunk
    have hf : rootOnly (inumOf 1) = some ⟨1, []⟩ := rfl
    rw [h.blocks_eq hf]
    exact le_trans (by decide) (h.valid.free_of_idle hheld)

section Fill

variable {s : BlockManager}

/-- The number of bytes of `NDIRECT` blocks. -/
def directSize : ℕ := nDirect * blockSize

/-- A file of as many bytes. -/
@[irreducible] def directFile : List UInt8 := List.replicate directSize 1

theorem length_directFile : directFile.length = directSize := by
  rw [directFile, List.length_replicate]

theorem blocksOf_directFile : blocksOf directFile.length = nDirect := by
  rw [length_directFile]
  decide

/-- `count` requests to create a file. -/
def creates (count : ℕ) : List Call := List.replicate count ⟨.create tFile, noJunk⟩

/-- A put of `directFile` on each of the inums `1, …, count`. -/
def puts (count : ℕ) : List Call :=
  (List.range count).map fun i => ⟨.put (UInt64.ofNat (i + 1)) directFile, noJunk⟩

/-- Every inum is given a file, and every file `NDIRECT` blocks. -/
def fillDisk : List Call := creates (inodeNum - 2) ++ puts (inodeNum - 1)

theorem fillDisk_fits : ∀ c ∈ fillDisk, c.request.Fits := by
  intro c hc
  rcases List.mem_append.mp hc with hc | hc
  · obtain rfl := List.eq_of_mem_replicate hc
    trivial
  · obtain ⟨i, -, rfl⟩ := List.mem_map.mp hc
    change blocksOf directFile.length < maxFile
    rw [blocksOf_directFile]
    decide

/-- A `create` makes the first inum live that is not. -/
theorem live_create {count : ℕ} (type : UInt32) (htype : (newInode type).type ≠ 0)
    (hl : ∀ i, 0 < i → i < inodeNum → i ≤ count → s.Live i) (junk : Junk) :
    ∀ i, 0 < i → i < inodeNum → i ≤ count + 1 → (serve ⟨.create type, junk⟩ s).2.Live i := by
  intro i h0 hi hle
  rw [serve_create]
  rcases findFreeInode_run junk s with ⟨k, hk0, hk, hdead, hleast, hfind⟩ | ⟨hall, hfind⟩
  · rw [allocInode_run hk type hfind]
    refine ⟨hi, ?_⟩
    rw [BlockManager.inode_putCell hk hi]
    split_ifs with hik
    · exact htype
    · have hlt : i < k ∨ i ≤ count := by
        by_contra hc
        exact hdead (hl k hk0 hk (by omega))
      rcases hlt with hlt | hlt
      · exact (hleast i h0 hlt).2
      · exact (hl i h0 hi hlt).2
  · rw [Store.allocInode, Program.run_bind, hfind]
    exact hall i h0 hi

theorem live_creates (hc : Contained s) (h1 : s.Live 1) (count : ℕ) :
    Contained (serveAll (creates count) s) ∧
      ∀ i, 0 < i → i < inodeNum → i ≤ count + 1 → (serveAll (creates count) s).Live i := by
  induction count with
  | zero =>
    refine ⟨hc, fun i h0 _ hle => ?_⟩
    obtain rfl : i = 1 := by omega
    exact h1
  | succ count ih =>
    rw [creates, List.replicate_succ', serveAll_append, ← creates, serveAll_cons, serveAll_nil]
    refine ⟨?_, live_create tFile (by decide) ih.2 noJunk⟩
    rw [serve_create]
    exact ih.1.allocInode noJunk tFile

/-- The first `count` inums are live and have a file of `directSize` bytes each. -/
structure Filled (count : ℕ) (s : BlockManager) : Prop where
  contained : Contained s
  live : ∀ i, 0 < i → i < inodeNum → s.Live i
  size_eq : ∀ i, 0 < i → i ≤ count → (s.inode i).size.toNat = directSize

theorem inumOf_ofNat {i : ℕ} (hi : i < inodeNum) : inumOf (UInt64.ofNat i) = i := by
  have hlt : i < 2 ^ 31 := hi.trans (by decide)
  have h64 : (UInt64.ofNat i).toNat = i := UInt64.toNat_ofNat_of_lt' (hlt.trans (by decide))
  have hmask : (0x7fffffff : UInt64).toNat = 2 ^ 31 - 1 := rfl
  rw [inumOf, UInt64.toNat_and, h64, hmask, Nat.and_two_pow_sub_one_eq_mod, Nat.mod_eq_of_lt hlt]

theorem Filled.put {count : ℕ} (h : Filled count s) (hlt : count + 1 < inodeNum) (junk : Junk) :
    Filled (count + 1) (serve ⟨.put (UInt64.ofNat (count + 1)) directFile, junk⟩ s).2 := by
  have hlive := h.live (count + 1) (Nat.succ_pos _) hlt
  rw [serve_put, inumOf_ofNat hlt, length_directFile]
  have hp := writeFile_contained h.contained hlive (by decide) (fun _ hbig => absurd hbig (by decide))
    (Program.always_true exec
      (writeFile junk (count + 1) (cstr junk directFile) (Int32.ofNat directSize)) s)
  refine ⟨hp.contained, fun i h0 hi => ⟨hi, ?_⟩, fun i h0 hle => ?_⟩
  · obtain rfl | hne := eq_or_ne i (count + 1)
    · rw [hp.type_eq]
      exact hlive.2
    · rw [hp.other i hi hne]
      exact (h.live i h0 hi).2
  · obtain rfl | hne := eq_or_ne i (count + 1)
    · exact hp.size_eq
    · rw [hp.other i (by omega) hne]
      exact h.size_eq i h0 (by omega)

theorem Filled.puts (h : Filled 0 s) {count : ℕ} (hlt : count < inodeNum) :
    Filled count (serveAll (puts count) s) := by
  induction count with
  | zero => exact h
  | succ count ih =>
    rw [Store.puts, List.range_succ, List.map_append, serveAll_append, ← Store.puts]
    exact (ih (by omega)).put hlt noJunk

/-- Distinct numbers between `c` and `d` for `a - 1` times `b` places. -/
theorem mul_le_of_injective {a b c d : ℕ} (f : ℕ → ℕ → ℕ)
    (hmem : ∀ i j, 0 < i → i < a → j < b → c ≤ f i j ∧ f i j < d)
    (hinj : ∀ i j i' j', 0 < i → i < a → j < b → 0 < i' → i' < a → j' < b →
      f i j = f i' j' → i = i' ∧ j = j') : (a - 1) * b ≤ d - c := by
  have hplaces : ∀ x, x ∈ Finset.Ico 1 a ×ˢ Finset.range b ↔ (1 ≤ x.1 ∧ x.1 < a) ∧ x.2 < b := by
    intro x
    rw [Finset.mem_product, Finset.mem_Ico, Finset.mem_range]
  have hcard := Finset.card_le_card_of_injOn (s := Finset.Ico 1 a ×ˢ Finset.range b)
    (t := Finset.Ico c d) (fun x => f x.1 x.2) ?_ ?_
  · rwa [Finset.card_product, Nat.card_Ico, Finset.card_range, Nat.card_Ico] at hcard
  · intro x hx
    obtain ⟨⟨h0, hi⟩, hj⟩ := (hplaces x).mp hx
    exact Finset.mem_coe.mpr (Finset.mem_Ico.mpr (hmem x.1 x.2 h0 hi hj))
  · intro x hx y hy he
    obtain ⟨⟨h0, hi⟩, hj⟩ := (hplaces x).mp hx
    obtain ⟨⟨h0', hi'⟩, hj'⟩ := (hplaces y).mp hy
    obtain ⟨h1, h2⟩ := hinj _ _ _ _ h0 hi hj h0' hi' hj' he
    exact Prod.ext h1 h2

/-- There are fewer blocks outside the reserved ones than `Filled` files have slots. -/
theorem Filled.not_separated (h : Filled (inodeNum - 1) s) : ¬ s.Separated := by
  intro hsep
  have hblocks : ∀ i, 0 < i → i < inodeNum → s.blocks i = nDirect := by
    intro i h0 hi
    rw [BlockManager.blocks, blockCount_toNat, h.size_eq i h0 (by omega)]
    · decide
    · rw [h.size_eq i h0 (by omega)]
      decide
  have hin : ∀ i j, 0 < i → i < inodeNum → j < nDirect → (Pos.data j).InUse (s.blocks i) := by
    intro i j h0 hi hj
    rw [hblocks i h0 hi]
    exact hj
  have hle := mul_le_of_injective (a := inodeNum) (b := nDirect) (c := firstData)
    (d := blockNum) (fun i j => (s.slot i (.data j)).toNat) ?_ ?_
  · exact absurd hle (by decide)
  · intro i j h0 hi hj
    constructor
    · exact Nat.not_lt.mp (hsep.unreserved i _ (h.live i h0 hi) (hin i j h0 hi hj))
    · have hslot : s.slot i (.data j) = (s.inode i).slot j := if_pos hj
      rw [hslot]
      exact (h.contained.slots i (h.live i h0 hi) j hj.le (hin i j h0 hi hj)).2
  · intro i j i' j' h0 hi hj h0' hi' hj' he
    obtain ⟨h1, h2⟩ := hsep.inj i i' _ _ (h.live i h0 hi) (h.live i' h0' hi')
      (hin i j h0 hi hj) (hin i' j' h0' hi' hj') (UInt32.toNat_inj.mp he)
    exact ⟨h1, Pos.data.inj h2⟩

end Fill

/-- After more blocks were asked for than there are, blocks are no longer separated. -/
theorem separation_lost :
    (∀ c ∈ fillDisk, c.request.Fits) ∧
      ¬ (serveAll fillDisk (freshServer noJunk)).Separated := by
  refine ⟨fillDisk_fits, ?_⟩
  obtain ⟨ls, h, -⟩ := freshServer_represents noJunk
  have hone : (freshServer noJunk).Live 1 := h.live_iff.mpr (Option.some_ne_none _)
  obtain ⟨hc, hl⟩ := live_creates h.contained hone (inodeNum - 2)
  have hfilled : Filled 0 (serveAll (creates (inodeNum - 2)) (freshServer noJunk)) := by
    refine ⟨hc, fun i h0 hi => hl i h0 hi ?_, fun i h0 hle => ?_⟩
    · simp only [inodeNum] at *
      omega
    · omega
  rw [fillDisk, serveAll_append]
  exact (hfilled.puts (by decide)).not_separated

end Yfs.Store
