import Yfs.Store.Layout
import Mathlib.Order.MinMax

/-! What `write_file` does to the share of its inum. -/
namespace Yfs.Store
open Effect

/-- The places below `n`, and the indirect one if `k`. -/
def used (n : ℕ) (k : Prop) : Pos → Prop
  | .data j => j < n
  | .indirect => k

/-- A write in progress. The places `U` hold the blocks `f`, of which the first `done`
have their new contents; `K`, if any, is what the indirect block has on disk. -/
structure Writing (l₀ : Share) (buf : ℕ → UInt8) (K : Option Block) (f : Pos → BlockId)
    (U : Pos → Prop) (done : ℕ) (l : Share) : Prop where
  idle : l.Idle
  cell : l.cell = l₀.cell
  inUse : ∀ p, U p → l.held (f p) ≠ none
  inj : ∀ p q, U p → U q → f p = f q → p = q
  written : ∀ j < done, U (.data j) ∧ l.held (f (.data j)) = some (piece buf j)
  kept : ∀ c, K = some c → U .indirect ∧ l.held (f .indirect) = some c
  grows : ∀ b, l₀.held b ≠ none → l.held b ≠ none
  onlyNew : ∀ b, l.held b ≠ none → l₀.held b ≠ none ∨ ∃ p, U p ∧ f p = b

namespace Writing

variable {l₀ l : Share} {buf : ℕ → UInt8} {K : Option Block} {f : Pos → BlockId}
  {U : Pos → Prop} {i : ℕ}

theorem congr (w : Writing l₀ buf K f U i l) {f' : Pos → BlockId} {U' : Pos → Prop}
    (hU : ∀ p, U' p ↔ U p) (hf : ∀ p, U p → f' p = f p) : Writing l₀ buf K f' U' i l := by
  constructor
  · exact w.idle
  · exact w.cell
  · intro p hp
    have hp' := (hU p).mp hp
    rw [hf p hp']
    exact w.inUse p hp'
  · intro p q hp hq he
    have hp' := (hU p).mp hp
    have hq' := (hU q).mp hq
    rw [hf p hp', hf q hq'] at he
    exact w.inj p q hp' hq' he
  · intro j hj
    obtain ⟨hu, hw⟩ := w.written j hj
    exact ⟨(hU _).mpr hu, by rwa [hf _ hu]⟩
  · intro c hc
    obtain ⟨hu, hw⟩ := w.kept c hc
    exact ⟨(hU _).mpr hu, by rwa [hf _ hu]⟩
  · exact w.grows
  · intro b hb
    rcases w.onlyNew b hb with h | ⟨p, hp, rfl⟩
    · exact Or.inl h
    · exact Or.inr ⟨p, (hU p).mpr hp, hf p hp⟩

/-- Writing one block of the file leaves the others as they are. -/
theorem held_other (w : Writing l₀ buf K f U i l) {p q : Pos} (hp : U p) (hq : U q)
    (hne : q ≠ p) (c : Option Block) : (l.setHeld (f p) c).held (f q) = l.held (f q) := by
  rw [Share.held_setHeld, if_neg]
  intro he
  exact hne (w.inj q p hq hp he)

theorem setHeld (w : Writing l₀ buf K f U i l) {p : Pos} (hp : U p) (c : Block)
    (hdone : ∀ j < i, .data j ≠ p) (hK : ∀ c, K = some c → Pos.indirect ≠ p) :
    Writing l₀ buf K f U i (l.setHeld (f p) (some c)) := by
  have hsome : ∀ b, l.held b ≠ none → (l.setHeld (f p) (some c)).held b ≠ none := by
    intro b hb
    rw [Share.held_setHeld]
    split_ifs
    · exact Option.some_ne_none c
    · exact hb
  constructor
  · exact Share.idle_setHeld w.idle _ _
  · exact w.cell
  · intro q hq
    exact hsome _ (w.inUse q hq)
  · exact w.inj
  · intro j hj
    obtain ⟨hu, hw⟩ := w.written j hj
    rw [w.held_other hp hu (hdone j hj)]
    exact ⟨hu, hw⟩
  · intro c' hc'
    obtain ⟨hu, hw⟩ := w.kept c' hc'
    rw [w.held_other hp hu (hK c' hc')]
    exact ⟨hu, hw⟩
  · intro b hb
    exact hsome b (w.grows b hb)
  · intro b hb
    rw [Share.held_setHeld] at hb
    split_ifs at hb with he
    · exact Or.inr ⟨p, hp, he.symm⟩
    · exact w.onlyNew b hb

/-- A block number already in place gets the next piece of the file. -/
theorem rewrite (w : Writing l₀ buf K f U i l) (hU : U (.data i)) :
    Writing l₀ buf K f U (i + 1) (l.setHeld (f (.data i)) (some (piece buf i))) := by
  have h := w.setHeld hU (piece buf i) (fun j hj => by simp; omega) (fun c _ => by simp)
  constructor
  · exact h.idle
  · exact h.cell
  · exact h.inUse
  · exact h.inj
  · intro j hj
    obtain rfl | hlt := Nat.eq_or_lt_of_le (Nat.lt_succ_iff.mp hj)
    · exact ⟨hU, by rw [Share.held_setHeld, if_pos rfl]⟩
    · exact h.written j hlt
  · exact h.kept
  · exact h.grows
  · exact h.onlyNew

/-- A place gets a block number that was not held before. -/
theorem take (w : Writing l₀ buf K f U i l) {p : Pos} {b : BlockId} (hb : l.held b = none)
    (hU : ¬ U p) (c : Block) :
    Writing l₀ buf K (Function.update f p b) (fun q => q = p ∨ U q) i (l.take b c) := by
  have hf : ∀ q, U q → Function.update f p b q = f q := by
    intro q hq
    rw [Function.update_of_ne]
    rintro rfl
    exact hU hq
  have hne : ∀ q, U q → f q ≠ b := by
    intro q hq he
    exact w.inUse q hq (he ▸ hb)
  have hheld : ∀ q, U q → (l.take b c).held (f q) = l.held (f q) := by
    intro q hq
    rw [Share.held_take, if_neg (hne q hq)]
  have hsome : ∀ b', l.held b' ≠ none → (l.take b c).held b' ≠ none := by
    intro b' hb'
    rw [Share.held_take]
    split_ifs
    · exact Option.some_ne_none c
    · exact hb'
  constructor
  · exact Share.idle_take w.idle b c
  · exact w.cell
  · rintro q (rfl | hq)
    · rw [Function.update_self, Share.held_take, if_pos rfl]
      exact Option.some_ne_none c
    · rw [hf q hq]
      exact hsome _ (w.inUse q hq)
  · rintro q r (rfl | hq) (rfl | hr) he
    · rfl
    · rw [Function.update_self, hf r hr] at he
      exact absurd he.symm (hne r hr)
    · rw [Function.update_self, hf q hq] at he
      exact absurd he (hne q hq)
    · rw [hf q hq, hf r hr] at he
      exact w.inj q r hq hr he
  · intro j hj
    obtain ⟨hu, hw⟩ := w.written j hj
    rw [hf _ hu, hheld _ hu]
    exact ⟨Or.inr hu, hw⟩
  · intro c' hc'
    obtain ⟨hu, hw⟩ := w.kept c' hc'
    rw [hf _ hu, hheld _ hu]
    exact ⟨Or.inr hu, hw⟩
  · intro b' hb'
    exact hsome b' (w.grows b' hb')
  · intro b' hb'
    rw [Share.held_take] at hb'
    split_ifs at hb' with he
    · exact Or.inr ⟨p, Or.inl rfl, by rw [Function.update_self, he]⟩
    · rcases w.onlyNew b' hb' with h | ⟨q, hq, rfl⟩
      · exact Or.inl h
      · exact Or.inr ⟨q, Or.inr hq, hf q hq⟩

/-- The indirect block is written out. -/
theorem putIndirect (w : Writing l₀ buf K f U i l) (hU : U .indirect) (c : Block) :
    Writing l₀ buf (some c) f U i (l.setHeld (f .indirect) (some c)) := by
  have w' : Writing l₀ buf none f U i l :=
    { w with kept := fun _ h => by cases h }
  have h := w'.setHeld hU c (fun j _ => by simp) (fun _ h => by cases h)
  refine { h with kept := ?_ }
  intro c' hc'
  obtain rfl : c = c' := Option.some.inj hc'
  exact ⟨hU, by rw [Share.held_setHeld, if_pos rfl]⟩

end Writing

/-- `ino'` is `ino` with other block numbers in the slots from `lo` up to `hi`. -/
def Inode.Grown (ino ino' : Inode) (lo hi : ℕ) : Prop :=
  (∃ blocks, ino' = { ino with blocks := blocks }) ∧
    ∀ j, j < lo ∨ hi ≤ j → ino'.slot j = ino.slot j

theorem Inode.Grown.setSlot {ino ino' : Inode} {lo i : ℕ} (h : ino.Grown ino' lo i)
    (hlo : lo ≤ i) (hi : i < nDirect + 1) (b : BlockId) :
    ino.Grown (ino'.setSlot i b) lo (i + 1) := by
  obtain ⟨⟨blocks, rfl⟩, hs⟩ := h
  refine ⟨⟨_, rfl⟩, fun j hj => ?_⟩
  rw [Inode.slot_setSlot _ hi, if_neg (by omega)]
  exact hs j (by omega)

/-- The state of the loop over the direct blocks before round `i`. -/
structure DirectLoop (l₀ : Share) (buf : ℕ → UInt8) (K : Option Block) (ind : Block)
    (orig cur rest : ℕ) (k : Prop) (ino : Inode) (i : ℕ) (ino' : Inode) (l : Share) :
    Prop where
  writing : Writing l₀ buf K (slotOf ino' ind) (used (max orig i) k) i l
  grown : ino.Grown ino' orig i
  credits : min nDirect cur - max orig i + rest ≤ l.credits
  le : i ≤ cur

theorem DirectLoop.round {l₀ l : Share} {buf : ℕ → UInt8} {K : Option Block} {ind : Block}
    {orig cur rest n i : ℕ} {k : Prop} {ino ino' : Inode} (hn : n < inodeNum)
    (hi : i < nDirect) (h : DirectLoop l₀ buf K ind orig cur rest k ino i ino' l) :
    (writeDirect buf orig cur i ino').wp (Rule n)
      (Program.Round (DirectLoop l₀ buf K ind orig cur rest k ino (i + 1))
        (DirectLoop l₀ buf K ind orig cur rest k ino (min nDirect cur))) l := by
  obtain ⟨w, hg, hc, hle⟩ := h
  have hslot : ∀ ino'' : Inode, slotOf ino'' ind (.data i) = ino''.slot i := fun _ => if_pos hi
  unfold writeDirect
  split_ifs with h1 h2
  · -- the block is there already
    have hU : used (max orig i) k (.data i) := lt_max_of_lt_left h1.2
    have hm : max orig (i + 1) = max orig i := by omega
    have w' := w.rewrite hU
    have hin := w.inUse _ hU
    rw [hslot] at w' hin
    refine Program.wp_bind _ (writeBlock_wp w.idle hin ?_)
    refine ⟨by rwa [hm], ⟨hg.1, fun j hj => hg.2 j (by omega)⟩, ?_, by omega⟩
    rw [hm]
    exact hc
  · -- a new block
    have horig : orig ≤ i := by omega
    have hm : max orig i = i := max_eq_right horig
    have hm' : max orig (i + 1) = i + 1 := max_eq_right (by omega)
    rw [hm] at w hc
    refine Program.wp_bind _ (allocBlock_wp hn w.idle (by omega) fun b c _ hb => ?_)
    have hU : ¬ used i k (.data i) := Nat.lt_irrefl i
    have w1 := w.take hb hU c
    have w2 : Writing l₀ buf K (slotOf (ino'.setSlot i b) ind) (used (i + 1) k) i
        (l.take b c) := by
      refine w1.congr (fun p => ?_) fun p _ => slotOf_setSlot ino' ind hi b p
      cases p with
      | data j =>
        simp only [used, Pos.data.injEq]
        omega
      | indirect => simp [used]
    have w3 := w2.rewrite (Nat.lt_succ_self i)
    have hin := w2.inUse (.data i) (Nat.lt_succ_self i)
    rw [hslot] at w3 hin
    refine Program.wp_bind _ (writeBlock_wp w2.idle hin ?_)
    refine ⟨by rwa [hm'], hg.setSlot horig (by omega) b, ?_, by omega⟩
    have hcr : ((l.take b c).setHeld ((ino'.setSlot i b).slot i)
      (some (piece buf i))).credits = l.credits - 1 := rfl
    rw [hm', hcr]
    omega
  · have hm : min nDirect cur = i := by omega
    rw [hm]
    exact ⟨w, hg, by rwa [hm] at hc ⊢, hle⟩

/-- The loop over the direct blocks. -/
theorem writeDirect_wp {l₀ l : Share} {buf : ℕ → UInt8} {K : Option Block} {ind : Block}
    {orig cur rest n : ℕ} {k : Prop} {ino : Inode} {Q : Inode → Share → Prop}
    (hn : n < inodeNum) (w : Writing l₀ buf K (slotOf ino ind) (used orig k) 0 l)
    (hc : min nDirect cur - orig + rest ≤ l.credits)
    (hQ : ∀ ino' l',
      DirectLoop l₀ buf K ind orig cur rest k ino (min nDirect cur) ino' l' → Q ino' l') :
    (Program.loop (writeDirect buf orig cur) nDirect 0 ino).wp (Rule n) Q l := by
  refine Program.wp_mono _ (Program.wp_loop _
    (DirectLoop l₀ buf K ind orig cur rest k ino)
    ?_ (fun j ino' l' _ hj h => DirectLoop.round hn (by omega) h) ?_) hQ
  · rw [← Nat.max_zero orig] at w hc
    exact ⟨w, ⟨⟨_, rfl⟩, fun _ _ => rfl⟩, hc, Nat.zero_le _⟩
  · intro ino' l' h
    have hm : min nDirect cur = 0 + nDirect := by
      have := h.le
      omega
    rwa [hm]

/-- The state of the loop over the indirect blocks before round `i`. -/
structure IndirectLoop (l₀ : Share) (buf : ℕ → UInt8) (K : Option Block) (ino : Inode)
    (orig cur : ℕ) (ind : Block) (i : ℕ) (ind' : Block) (l : Share) : Prop where
  writing : Writing l₀ buf K (slotOf ino ind') (used (max orig i) True) i l
  entries : ∀ j, j + nDirect < orig → ind'.entry j = ind.entry j
  credits : cur - max orig i ≤ l.credits
  le : i ≤ cur

theorem IndirectLoop.round {l₀ l : Share} {buf : ℕ → UInt8} {K : Option Block} {ino : Inode}
    {orig cur n i : ℕ} {ind ind' : Block} (hn : n < inodeNum) (hi : nDirect ≤ i)
    (hi' : i < maxFile) (h : IndirectLoop l₀ buf K ino orig cur ind i ind' l) :
    (writeIndirect buf orig cur ino i ind').wp (Rule n)
      (Program.Round (IndirectLoop l₀ buf K ino orig cur ind (i + 1))
        (fun ind' => IndirectLoop l₀ buf (some ind') ino orig cur ind cur ind')) l := by
  obtain ⟨w, he, hc, hle⟩ := h
  have hslot : ∀ ind'' : Block, slotOf ino ind'' (.data i) = ind''.entry (i - nDirect) :=
    fun _ => if_neg (by omega)
  unfold writeIndirect
  split_ifs with h1 h2
  · have hU : used (max orig i) True (.data i) := lt_max_of_lt_left h1.2
    have hm : max orig (i + 1) = max orig i := by omega
    have w' := w.rewrite hU
    have hin := w.inUse _ hU
    rw [hslot] at w' hin
    refine Program.wp_bind _ (writeBlock_wp w.idle hin ?_)
    refine ⟨by rwa [hm], he, ?_, by omega⟩
    rw [hm]
    exact hc
  · have horig : orig ≤ i := by omega
    have hm : max orig i = i := max_eq_right horig
    have hm' : max orig (i + 1) = i + 1 := max_eq_right (by omega)
    rw [hm] at w hc
    refine Program.wp_bind _ (allocBlock_wp hn w.idle (by omega) fun b c _ hb => ?_)
    have hU : ¬ used i True (.data i) := Nat.lt_irrefl i
    have w1 := w.take hb hU c
    have w2 : Writing l₀ buf K (slotOf ino (ind'.setEntry (i - nDirect) b))
        (used (i + 1) True) i (l.take b c) := by
      refine w1.congr (fun p => ?_) fun p _ => slotOf_setEntry ino ind' hi hi' b p
      cases p with
      | data j =>
        simp only [used, Pos.data.injEq]
        omega
      | indirect => simp [used]
    have w3 := w2.rewrite (Nat.lt_succ_self i)
    have hin := w2.inUse (.data i) (Nat.lt_succ_self i)
    rw [hslot] at w3 hin
    refine Program.wp_bind _ (writeBlock_wp w2.idle hin ?_)
    refine ⟨by rwa [hm'], fun j hj => ?_, ?_, by omega⟩
    · simp only [nDirect, nIndirect, maxFile] at *
      rw [Block.entry_setEntry _ (by simp only [nIndirect]; omega), if_neg (by omega)]
      exact he j hj
    · have hcr : ((l.take b c).setHeld ((ind'.setEntry (i - nDirect) b).entry (i - nDirect))
        (some (piece buf i))).credits = l.credits - 1 := rfl
      rw [hm', hcr]
      omega
  · -- the last round writes the indirect block out
    have hm : cur = i := by omega
    have hin := w.inUse .indirect trivial
    have w' := w.putIndirect trivial ind'
    refine Program.wp_bind _ (writeBlock_wp w.idle hin ?_)
    rw [hm] at hc ⊢
    exact ⟨w', he, hc, le_rfl⟩

/-- The loop over the indirect blocks. Only a round at index `cur` writes the indirect
block out, and there is such a round just when `cur` is below `maxFile`. -/
theorem writeIndirect_wp {l₀ l : Share} {buf : ℕ → UInt8} {K : Option Block} {ino : Inode}
    {orig cur n : ℕ} {ind : Block} {Q : Block → Share → Prop} (hn : n < inodeNum)
    (hcur : nDirect < cur) (hcur' : cur ≤ maxFile)
    (w : Writing l₀ buf K (slotOf ino ind) (used (max orig nDirect) True) nDirect l)
    (hc : cur - max orig nDirect ≤ l.credits)
    (hQ : ∀ K' ind' l', (cur < maxFile → K' = some ind') →
      IndirectLoop l₀ buf K' ino orig cur ind cur ind' l' → Q ind' l') :
    (Program.loop (writeIndirect buf orig cur ino) nIndirect nDirect ind).wp (Rule n) Q l := by
  apply Program.wp_loop _ (IndirectLoop l₀ buf K ino orig cur ind)
  · exact ⟨w, fun _ _ => rfl, hc, hcur.le⟩
  · intro j ind' l' hj hj' h
    refine Program.wp_mono _ (IndirectLoop.round hn hj hj' h) ?_
    intro r l'' hr
    cases r with
    | yield _ => exact hr
    | done ind'' => exact hQ _ _ _ (fun _ => rfl) hr
  · intro ind' l' h
    have hle := h.le
    have hm : nDirect + nIndirect = cur := by
      simp only [maxFile] at hcur'
      omega
    rw [hm] at h
    exact hQ K ind' l' (fun hlt => absurd hm (Nat.ne_of_gt hlt)) h

/-- The number of blocks that a write from `orig` to `cur` blocks allocates. -/
def need (orig cur : ℕ) : ℕ := cur - orig + if nDirect < cur ∧ orig ≤ nDirect then 1 else 0

theorem slotOf_congr_ind {p : Pos} {n : ℕ} (hp : p.InUse n) (hn : n ≤ nDirect) (ino : Inode)
    (ind ind' : Block) : slotOf ino ind p = slotOf ino ind' p := by
  cases p with
  | data j =>
    have hj : j < nDirect := lt_of_lt_of_le hp hn
    rw [slotOf, if_pos hj, slotOf, if_pos hj]
  | indirect => rfl

/-- What a finished write has made of the share `l`. -/
structure Wrote (l : Share) (type : Int16) (old new : List UInt8) (l' : Share) : Prop where
  stores : Stores l' type new
  grows : ∀ b, l.held b ≠ none → l'.held b ≠ none
  onlyNew : ∀ b, l'.held b ≠ none →
    l.held b ≠ none ∨ ∃ p : Pos, p.InUse (blocksOf new.length) ∧ l'.slotAt p = b
  kept : ∀ p : Pos, p.InUse (blocksOf old.length) → p.InUse (blocksOf new.length) →
    l'.slotAt p = l.slotAt p

/-- A write that has filled all its places is the file it was meant to be. -/
theorem Writing.stores {l₀ l : Share} {buf : ℕ → UInt8} {K : Option Block} {ino : Inode}
    {ind : Block} {U : Pos → Prop} {type : Int16} {old new : List UInt8} {size : UInt32}
    (w : Writing l₀ buf K (slotOf ino ind) U (blocksOf new.length) l)
    (hold : Stores l₀ type old) (hino : ∃ blocks, ino = { l₀.cell with blocks := blocks })
    (hsize : size.toNat = new.length) (hsmall : blocksOf new.length < maxFile)
    (hbuf : ∀ k < new.length, buf k = new.getD k 0)
    (hU : ∀ p : Pos, p.InUse (blocksOf new.length) → U p)
    (hK : nDirect < blocksOf new.length → K = some ind) :
    Stores { l with cell := { ino with size := size } } type new ∧
      ∀ p : Pos, p.InUse (blocksOf new.length) →
        Share.slotAt { l with cell := { ino with size := size } } p = slotOf ino ind p := by
  have hslot : ∀ p : Pos, p.InUse (blocksOf new.length) →
      Share.slotAt { l with cell := { ino with size := size } } p = slotOf ino ind p := by
    intro p hp
    by_cases hn : nDirect < blocksOf new.length
    · have hind := (w.kept ind (hK hn)).2
      have he : Share.ind { l with cell := { ino with size := size } } = ind := by
        change (l.held (slotOf ino ind .indirect)).getD Block.zero = ind
        rw [hind, Option.getD_some]
      rw [Share.slotAt, he]
      rfl
    · exact slotOf_congr_ind hp (by omega) _ _ _
  obtain ⟨blocks, rfl⟩ := hino
  refine ⟨?_, hslot⟩
  constructor
  · exact w.idle
  · exact hold.type_eq
  · exact hold.live
  · exact hsize
  · exact hsmall
  · exact hold.times
  · intro p hp
    rw [hslot p hp]
    exact w.inUse p (hU p hp)
  · intro p q hp hq he
    rw [hslot p hp, hslot q hq] at he
    exact w.inj p q (hU p hp) (hU q hq) he
  · intro k hk
    have hk' : k / 512 < blocksOf new.length := by rw [lt_blocksOf_iff]; omega
    rw [hslot (.data (k / 512)) hk']
    refine ⟨_, (w.written _ hk').2, ?_⟩
    rw [piece, Block.byte_ofBytes (Nat.mod_lt _ (by decide)), ← hbuf k hk]
    congr 1
    simp only [blockSize]
    omega

/-- A write that has just begun. -/
theorem Writing.start {l : Share} {type : Int16} {old : List UInt8} (h : Stores l type old)
    (buf : ℕ → UInt8) :
    Writing l buf (if nDirect < blocksOf old.length then some l.ind else none)
      (slotOf l.cell l.ind) (used (blocksOf old.length) (nDirect < blocksOf old.length)) 0 l := by
  have hU : ∀ p, used (blocksOf old.length) (nDirect < blocksOf old.length) p ↔
      p.InUse (blocksOf old.length) := by
    intro p
    cases p <;> rfl
  constructor
  · exact h.idle
  · rfl
  · intro p hp
    exact h.inUse p ((hU p).mp hp)
  · intro p q hp hq
    exact h.inj p q ((hU p).mp hp) ((hU q).mp hq)
  · intro j hj
    omega
  · intro c hc
    split_ifs at hc with hn
    obtain rfl : l.ind = c := Option.some.inj hc
    refine ⟨hn, ?_⟩
    obtain ⟨c, hc⟩ := Option.ne_none_iff_exists'.mp (h.inUse .indirect hn)
    have hc' : l.held (l.cell.slot nDirect) = some c := hc
    rw [Share.ind, hc', Option.getD_some]
    exact hc
  · exact fun _ hb => hb
  · exact fun _ hb => Or.inl hb

section WriteFile

variable {n : ℕ} {l : Share} {type : Int16} {old new : List UInt8} {buf : ℕ → UInt8}
  {junk : Junk}

/-- The state in which the loop over the indirect blocks starts. -/
structure Opened (l : Share) (buf : ℕ → UInt8) (old new : List UInt8) (ino : Inode)
    (ind : Block) (l' : Share) : Prop where
  writing : ∃ K, Writing l buf K (slotOf ino ind)
    (used (max (blocksOf old.length) nDirect) True) nDirect l'
  blocks : ∃ blocks, ino = { l.cell with blocks := blocks }
  kept : ∀ p : Pos, p.InUse (blocksOf old.length) → slotOf ino ind p = l.slotAt p
  credits : blocksOf new.length - max (blocksOf old.length) nDirect ≤ l'.credits

theorem openIndirect_wp {l' : Share} {ino : Inode} {Q : Inode × Block → Share → Prop}
    {K : Option Block}
    (hn : n < inodeNum)
    (hK : K = if nDirect < blocksOf old.length then some l.ind else none)
    (h : DirectLoop l buf K l.ind (blocksOf old.length) (blocksOf new.length)
      (blocksOf new.length - max (blocksOf old.length) nDirect +
        if blocksOf old.length ≤ nDirect then 1 else 0)
      (nDirect < blocksOf old.length) l.cell nDirect ino l')
    (hQ : ∀ ino' ind l'', Opened l buf old new ino' ind l'' → Q (ino', ind) l'') :
    (openIndirect junk (blocksOf old.length) ino).wp (Rule n) Q l' := by
  obtain ⟨w, ⟨hblocks, hslots⟩, hc, -⟩ := h
  have hsame : ∀ p : Pos, p.InUse (blocksOf old.length) → p ≠ .indirect →
      slotOf ino l.ind p = l.slotAt p := by
    intro p hp hne
    cases p with
    | data j =>
      have hs := hslots j (Or.inl hp)
      rw [Share.slotAt, slotOf, slotOf, hs]
    | indirect => exact absurd rfl hne
  unfold openIndirect
  split_ifs with ho
  · have hU : ∀ p, used (max (blocksOf old.length) nDirect) True p ↔
        used (max (blocksOf old.length) nDirect) (nDirect < blocksOf old.length) p := by
      intro p
      cases p with
      | data j => rfl
      | indirect => exact ⟨fun _ => ho, fun _ => trivial⟩
    rw [if_pos ho] at hK
    have hin := (w.kept _ hK).2
    refine Program.wp_bind _ (readBlock_wp w.idle hin (hQ _ _ _ ?_))
    refine ⟨⟨_, w.congr hU fun _ _ => rfl⟩, hblocks, fun p hp => ?_, by omega⟩
    by_cases hp' : p = .indirect
    · subst hp'
      have hs := hslots nDirect (Or.inr le_rfl)
      rw [Share.slotAt, slotOf, slotOf, hs]
    · exact hsame p hp hp'
  · have hm : max (blocksOf old.length) nDirect = nDirect := max_eq_right (by omega)
    rw [hm] at w
    rw [if_pos (by omega : blocksOf old.length ≤ nDirect)] at hc
    refine Program.wp_bind _ (allocBlock_wp hn w.idle (by omega) fun b c _ hb => hQ _ _ _ ?_)
    have hU : ¬ used nDirect (nDirect < blocksOf old.length) .indirect := ho
    have w1 := w.take hb hU c
    refine ⟨⟨K, w1.congr (fun p => ?_) fun p hp => ?_⟩, ?_, fun p hp => ?_, ?_⟩
    · rw [hm]
      cases p with
      | data j => simp [used]
      | indirect => simp [used]
    · cases p with
      | data j =>
        have hj : j < nDirect := by
          rcases hp with hp | hp
          · cases hp
          · exact hp
        rw [Function.update_of_ne (by simp), slotOf, if_pos hj, slotOf, if_pos hj,
          Inode.slot_setSlot _ (by omega), if_neg (by omega)]
      | indirect =>
        rw [Function.update_self, slotOf, Inode.slot_setSlot _ (by omega), if_pos rfl]
    · obtain ⟨blocks, rfl⟩ := hblocks
      exact ⟨_, rfl⟩
    · cases p with
      | data j =>
        have hj : j < blocksOf old.length := hp
        have hs := hsame (.data j) hp (by simp)
        rw [slotOf, if_pos (by omega)] at hs
        rw [slotOf, if_pos (by omega), Inode.slot_setSlot _ (by omega), if_neg (by omega), hs]
      | indirect => exact absurd hp ho
    · have hcr : (l'.take b c).credits = l'.credits - 1 := rfl
      rw [hcr]
      omega

/-- From the last loop to the inode on disk. -/
theorem Writing.wrote {l' : Share} {K : Option Block} {ino : Inode} {ind : Block} {k : Prop}
    {size : UInt32}
    (w : Writing l buf K (slotOf ino ind)
      (used (max (blocksOf old.length) (blocksOf new.length)) k) (blocksOf new.length) l')
    (hold : Stores l type old) (hino : ∃ blocks, ino = { l.cell with blocks := blocks })
    (hsize : size.toNat = new.length) (hsmall : blocksOf new.length < maxFile)
    (hbuf : ∀ k < new.length, buf k = new.getD k 0)
    (hk : k ↔ nDirect < max (blocksOf old.length) (blocksOf new.length))
    (hK : nDirect < blocksOf new.length → K = some ind)
    (hkept : ∀ p : Pos, p.InUse (blocksOf old.length) → slotOf ino ind p = l.slotAt p) :
    Wrote l type old new { l' with cell := { ino with size := size } } := by
  have hU : ∀ p : Pos, p.InUse (blocksOf new.length) →
      used (max (blocksOf old.length) (blocksOf new.length)) k p := by
    intro p hp
    cases p with
    | data j => exact lt_max_of_lt_right hp
    | indirect => exact hk.mpr (lt_max_of_lt_right hp)
  obtain ⟨hst, hslot⟩ := w.stores hold hino hsize hsmall hbuf hU hK
  constructor
  · exact hst
  · exact w.grows
  · intro b hb
    rcases w.onlyNew b hb with hb' | ⟨p, hp, rfl⟩
    · exact Or.inl hb'
    · -- a place that is in use no more still holds its old block
      by_cases hp' : p.InUse (blocksOf new.length)
      · exact Or.inr ⟨p, hp', hslot p hp'⟩
      · have hpo : p.InUse (blocksOf old.length) := by
          cases p with
          | data j =>
            have hj : j < max (blocksOf old.length) (blocksOf new.length) := hp
            have hj' : ¬ j < blocksOf new.length := hp'
            exact (lt_max_iff.mp hj).resolve_right hj'
          | indirect => exact (lt_max_iff.mp (hk.mp hp)).resolve_right hp'
        rw [hkept p hpo]
        exact Or.inl (hold.inUse p hpo)
  · intro p hp hp'
    rw [hslot p hp', hkept p hp]

/-- `write_file` on a live inum, for sizes of up to `maxFile` blocks. -/
theorem writeFile_wp {size : Int32} (hn : n < inodeNum) (h : Stores l type old)
    (hcur : (blockCountInt size).toNat = blocksOf new.length)
    (hsize : size.toUInt32.toNat = new.length) (hsmall : blocksOf new.length ≤ maxFile)
    (hbuf : ∀ k < new.length, buf k = new.getD k 0)
    (hc : need (blocksOf old.length) (blocksOf new.length) ≤ l.credits) :
    (writeFile junk n buf size).wp (Rule n)
      (fun _ l' => blocksOf new.length < maxFile → Wrote l type old new l') l := by
  have hinode : l.inode = some l.cell := if_neg h.type_ne
  unfold need at hc
  unfold writeFile
  refine Program.wp_bind _ (getInode_wp hn h.idle ?_)
  simp only [hinode, h.blockCount_eq, hcur]
  by_cases hbig : nDirect < blocksOf new.length
  · -- the file needs an indirect block
    have hmin : min nDirect (blocksOf new.length) = nDirect := min_eq_left hbig.le
    have hrest : min nDirect (blocksOf new.length) - blocksOf old.length +
        (blocksOf new.length - max (blocksOf old.length) nDirect +
          if blocksOf old.length ≤ nDirect then 1 else 0) ≤ l.credits := by
      by_cases ho : blocksOf old.length ≤ nDirect
      · rw [if_pos ⟨hbig, ho⟩] at hc
        rw [if_pos ho]
        omega
      · rw [if_neg (fun h => ho h.2)] at hc
        rw [if_neg ho]
        omega
    refine Program.wp_bind _ (writeDirect_wp hn (Writing.start h buf) hrest fun ino' l' hd => ?_)
    rw [hmin] at hd
    simp only [if_pos hbig]
    refine Program.wp_bind _ (openIndirect_wp hn rfl hd fun ino'' ind l'' ho => ?_)
    obtain ⟨⟨K, w⟩, hblocks, hkept, hcred⟩ := ho
    refine Program.wp_bind _ (writeIndirect_wp hn hbig hsmall w hcred fun K' ind' l₃ hK hi => ?_)
    have hw := hi.writing
    refine putInode_wp hn hw.idle fun hlt =>
      hw.wrote h hblocks hsize hlt hbuf ?_ (fun _ => hK hlt) ?_
    · exact ⟨fun _ => lt_max_of_lt_right hbig, fun _ => trivial⟩
    · intro p hp
      rw [← hkept p hp]
      cases p with
      | data j =>
        have hj : j < blocksOf old.length := hp
        rw [slotOf, slotOf]
        split
        · rfl
        · exact hi.entries _ (by omega)
      | indirect => rfl
  · have hmin : min nDirect (blocksOf new.length) = blocksOf new.length := min_eq_right (by omega)
    have hrest : min nDirect (blocksOf new.length) - blocksOf old.length + 0 ≤ l.credits := by
      omega
    refine Program.wp_bind _ (writeDirect_wp hn (Writing.start h buf) hrest fun ino' l' hd => ?_)
    rw [hmin] at hd
    simp only [if_neg hbig]
    have hw := hd.writing
    obtain ⟨hblocks, hslots⟩ := hd.grown
    refine putInode_wp hn hw.idle fun hlt => hw.wrote h hblocks hsize hlt hbuf ?_
      (fun hb => absurd hb hbig) ?_
    · rw [lt_max_iff, or_iff_left hbig]
    · intro p hp
      cases p with
      | data j =>
        have hj : j < blocksOf old.length := hp
        rw [Share.slotAt, slotOf, slotOf, hslots j (Or.inl hj)]
      | indirect =>
        rw [Share.slotAt, slotOf, slotOf, hslots nDirect (Or.inr (by omega))]

end WriteFile

end Yfs.Store
