import Yfs.Effect.Interleave
import Yfs.Store.Inode

/-! Who owns what on the disk. Every inum owns its cell of the inode table and some
data blocks; the rules say what a request on that inum may do with them. -/
namespace Yfs.Store
open Effect

/-- The first block after the boot sector, the superblock, the bitmap and the inode
table, all of which the constructor of `block_manager` marks. -/
abbrev firstData : ℕ := 353

def IsData (b : BlockId) : Prop := firstData ≤ b.toNat ∧ b.toNat < blockNum

/-- The part of the state that a request on one inum relies on. Between `find` and
`mark` it has `found` a block; between the transfers of `put_inode` it relies on the
whole table block. `credits` bounds the blocks it may still allocate. -/
structure Share where
  cell : Inode
  held : BlockId → Option Block
  found : Option BlockId
  window : Option Block
  credits : ℕ

namespace Share

def Idle (l : Share) : Prop := l.found = none ∧ l.window = none

def setCell (l : Share) (ino : Inode) : Share := { l with cell := ino }

def setCredits (l : Share) (k : ℕ) : Share := { l with credits := k }

def setHeld (l : Share) (b : BlockId) (c : Option Block) : Share :=
  { l with held := Function.update l.held b c }

/-- The share once `mark` has turned the block that was found into a held one. -/
def take (l : Share) (b : BlockId) (c : Block) : Share :=
  { l with found := none, held := Function.update l.held b (some c), credits := l.credits - 1 }

end Share

/-- What a request on inum `n` may do next while it owns `l`, and what it learns. -/
inductive Rule (n : ℕ) (l : Share) : (c : Cmd) → (Reply c → Share → Prop) → Prop where
  | find (hn : n < inodeNum) (hl : l.Idle) (hc : 0 < l.credits) :
    Rule n l .find fun i l' => IsData i ∧ l.held i = none ∧ l' = { l with found := some i }
  | mark {i : BlockId} (hn : n < inodeNum) (hf : l.found = some i) (hw : l.window = none) :
    Rule n l (.mark i) fun _ l' => ∃ c, l' = l.take i c
  | clear {b : BlockId} (hl : l.Idle) (hb : l.held b ≠ none) :
    Rule n l (.clear b) fun _ l' => l' = l.setHeld b none
  | readHeld {b : BlockId} {c : Block} (hl : l.Idle) (hb : l.held b = some c) :
    Rule n l (.readBlock b) fun r l' => r = some c ∧ l' = l
  | readCell (hn : n < inodeNum) (hl : l.Idle) :
    Rule n l (.readBlock (iblock n sb.nblocks)) fun r l' =>
      ∃ buf : Block, r = some buf ∧ buf.cell (n % ipb) = l.cell ∧ l' = l
  | openCell (hn : n < inodeNum) (hl : l.Idle) :
    Rule n l (.readBlock (iblock n sb.nblocks)) fun r l' =>
      ∃ buf : Block, r = some buf ∧ buf.cell (n % ipb) = l.cell ∧
        l' = { l with window := some buf }
  | writeHeld {b : BlockId} (buf : Block) (hl : l.Idle) (hb : l.held b ≠ none) :
    Rule n l (.writeBlock b buf) fun _ l' => l' = l.setHeld b (some buf)
  | closeCell {buf : Block} (ino : Inode) (hf : l.found = none) (hw : l.window = some buf) :
    Rule n l (.writeBlock (iblock n sb.nblocks) (buf.setCell (n % ipb) ino)) fun _ l' =>
      l' = { l with cell := ino, window := none }

/-- The shares `ls` are a correct account of the state. Every marked block is reserved
or held by someone. -/
structure Valid (ls : ℕ → Share) (s : BlockManager) : Prop where
  numBits : s.blockBitmap.numBits.toNat = blockNum
  reserved : ∀ b : BlockId, b.toNat < firstData → s.blockBitmap.test b = true
  cells : ∀ n < inodeNum, (s.d (iblock n sb.nblocks).toNat).cell (n % ipb) = (ls n).cell
  held : ∀ n b c, (ls n).held b = some c →
    IsData b ∧ s.blockBitmap.test b = true ∧ s.d b.toNat = c
  apart : ∀ n m b, n ≠ m → (ls n).held b ≠ none → (ls m).held b = none
  found : ∀ n b, (ls n).found = some b → IsData b ∧ s.blockBitmap.test b = false
  window : ∀ n buf, (ls n).window = some buf →
    n < inodeNum ∧ s.d (iblock n sb.nblocks).toNat = buf
  marked : ∀ b, s.blockBitmap.test b = true →
    b.toNat < firstData ∨ ∃ n, (ls n).held b ≠ none

/-- Two commands that may be pending at once. Two requests must not be about to mark the
same block, nor both be between the transfers of `put_inode` on one table block. -/
def Compat : Cmd → Cmd → Prop
  | .mark i, .mark j => i ≠ j
  | .writeBlock b _, .writeBlock b' _ => b = b' → IsData b
  | _, _ => True

/-- An allocation finds a clear bit. -/
def FindsClear (c : Cmd) (s : BlockManager) : Prop :=
  c = .find → ∃ w, w < s.blockBitmap.numBits ∧ s.blockBitmap.test w = false

theorem iblock_lt {n : ℕ} (hn : n < inodeNum) :
    (iblock n sb.nblocks).toNat < firstData := by
  rw [iblock_toNat hn]
  simp only [inodeNum] at hn
  simp only [firstData]
  omega

theorem iblock_not_data {n : ℕ} (hn : n < inodeNum) : ¬ IsData (iblock n sb.nblocks) := by
  intro h
  have h1 := iblock_lt hn
  have h2 := h.1
  omega

/-- Two inums with the same table block and the same cell are equal. -/
theorem iblock_cell_inj {n m : ℕ} (hn : n < inodeNum) (hm : m < inodeNum)
    (h : (iblock n sb.nblocks).toNat = (iblock m sb.nblocks).toNat)
    (hc : n % ipb = m % ipb) : n = m := by
  rw [iblock_toNat hn, iblock_toNat hm] at h
  simp only [ipb, blockSize, inodeSize] at hc
  omega

theorem Disk.readBlock_of_lt (d : Disk) {b : BlockId} (h : b.toNat < blockNum) :
    d.readBlock b = some (d b.toNat) := if_neg (by omega)

theorem Disk.writeBlock_of_lt (d : Disk) {b : BlockId} (buf : Block) (h : b.toNat < blockNum) :
    d.writeBlock b buf = Function.update d b.toNat buf := if_neg (by omega)

namespace Valid

variable {ls : ℕ → Share} {s : BlockManager}

theorem lt_numBits (hv : Valid ls s) {b : BlockId} :
    b < s.blockBitmap.numBits ↔ b.toNat < blockNum := by
  rw [UInt32.lt_iff_toNat_lt, hv.numBits]

theorem data_of_clear (hv : Valid ls s) {b : BlockId} (hb : b < s.blockBitmap.numBits)
    (ht : s.blockBitmap.test b = false) : IsData b := by
  refine ⟨?_, hv.lt_numBits.mp hb⟩
  by_contra h
  rw [hv.reserved b (by omega)] at ht
  cases ht

theorem held_eq_none (hv : Valid ls s) {b : BlockId} (ht : s.blockBitmap.test b = false)
    (n : ℕ) : (ls n).held b = none := by
  cases hb : (ls n).held b with
  | none => rfl
  | some c =>
    have hm := (hv.held n b c hb).2.1
    rw [ht] at hm
    cases hm

theorem held_isSome_data (hv : Valid ls s) {n : ℕ} {b : BlockId} (hb : (ls n).held b ≠ none) :
    IsData b := by
  obtain ⟨c, hc⟩ := Option.ne_none_iff_exists'.mp hb
  exact (hv.held n b c hc).1

/-- A change to one share that concerns neither its cell nor its blocks. -/
theorem congr_share (hv : Valid ls s) {t : ℕ} {l' : Share} (hcell : l'.cell = (ls t).cell)
    (hheld : l'.held = (ls t).held)
    (hfound : ∀ b, l'.found = some b → IsData b ∧ s.blockBitmap.test b = false)
    (hwindow : ∀ buf, l'.window = some buf →
      t < inodeNum ∧ s.d (iblock t sb.nblocks).toNat = buf) :
    Valid (Function.update ls t l') s := by
  have hc : ∀ m, (Function.update ls t l' m).cell = (ls m).cell ∧
      (Function.update ls t l' m).held = (ls m).held := by
    intro m
    obtain rfl | hm := eq_or_ne m t
    · rw [Function.update_self]
      exact ⟨hcell, hheld⟩
    · rw [Function.update_of_ne hm]
      exact ⟨rfl, rfl⟩
  constructor
  · exact hv.numBits
  · exact hv.reserved
  · intro m hm
    rw [(hc m).1]
    exact hv.cells m hm
  · intro m b c h
    rw [(hc m).2] at h
    exact hv.held m b c h
  · intro m m' b hne h
    rw [(hc m).2] at h
    rw [(hc m').2]
    exact hv.apart m m' b hne h
  · intro m b h
    obtain rfl | hm := eq_or_ne m t
    · rw [Function.update_self] at h
      exact hfound b h
    · rw [Function.update_of_ne hm] at h
      exact hv.found m b h
  · intro m buf h
    obtain rfl | hm := eq_or_ne m t
    · rw [Function.update_self] at h
      exact hwindow buf h
    · rw [Function.update_of_ne hm] at h
      exact hv.window m buf h
  · intro b hb
    rcases hv.marked b hb with h | ⟨m, h⟩
    · exact Or.inl h
    · exact Or.inr ⟨m, by rwa [(hc m).2]⟩

/-- How much a request may still allocate is no part of the state. -/
theorem setCredits (hv : Valid ls s) (n k : ℕ) :
    Valid (Function.update ls n ((ls n).setCredits k)) s :=
  hv.congr_share rfl rfl (hv.found n) (hv.window n)

theorem of_setCredits {n k : ℕ} (hv : Valid (Function.update ls n ((ls n).setCredits k)) s) :
    Valid ls s := by
  have h := hv.setCredits n (ls n).credits
  have he : ((ls n).setCredits k).setCredits (ls n).credits = ls n := rfl
  rwa [Function.update_self, Function.update_idem, he, Function.update_eq_self] at h

/-- The shares after the blocks held by `t`, and nothing else, have changed. -/
private theorem cell_found_window (ls : ℕ → Share) (t : ℕ) (l' : Share) (hcell : l'.cell = (ls t).cell)
    (hfound : l'.found = (ls t).found) (hwindow : l'.window = (ls t).window) (m : ℕ) :
    (Function.update ls t l' m).cell = (ls m).cell ∧
      (Function.update ls t l' m).found = (ls m).found ∧
      (Function.update ls t l' m).window = (ls m).window := by
  obtain rfl | hm := eq_or_ne m t
  · rw [Function.update_self]
    exact ⟨hcell, hfound, hwindow⟩
  · rw [Function.update_of_ne hm]
    exact ⟨rfl, rfl, rfl⟩

/-- The blocks held after `t` has changed what it holds of block `b` only. -/
private theorem held_update {t : ℕ} {b : BlockId} {c : Option Block} {l' : Share}
    (h : l'.held = Function.update (ls t).held b c) (m : ℕ) (b' : BlockId) :
    (Function.update ls t l' m).held b' = if m = t ∧ b' = b then c else (ls m).held b' := by
  obtain rfl | hm := eq_or_ne m t
  · rw [Function.update_self, h]
    by_cases hb : b' = b
    · rw [hb, Function.update_self, if_pos ⟨rfl, rfl⟩]
    · rw [Function.update_of_ne hb, if_neg (fun h => hb h.2)]
  · rw [Function.update_of_ne hm, if_neg (fun h => hm h.1)]

theorem after_mark (hv : Valid ls s) {t : ℕ} {i : BlockId} (hf : (ls t).found = some i)
    (hw : (ls t).window = none) (hothers : ∀ u, u ≠ t → (ls u).found ≠ some i) :
    Valid (Function.update ls t ((ls t).take i (s.d i.toNat)))
      { s with blockBitmap := s.blockBitmap.mark i } := by
  obtain ⟨hdata, hclear⟩ := hv.found t i hf
  have hi : i < s.blockBitmap.numBits := hv.lt_numBits.mpr hdata.2
  have hheld : ∀ m b, (Function.update ls t ((ls t).take i (s.d i.toNat)) m).held b =
      if m = t ∧ b = i then some (s.d i.toNat) else (ls m).held b := held_update rfl
  have htest : ∀ b, (s.blockBitmap.mark i).test b =
      if b = i then true else s.blockBitmap.test b := by
    intro b
    rw [Bitmap.test_mark, decide_eq_true hi]
  have hnone := hv.held_eq_none hclear
  constructor
  · rw [Bitmap.numBits_mark]
    exact hv.numBits
  · intro b hb
    rw [htest, hv.reserved b hb, ite_self]
  · intro m hm
    obtain rfl | hmt := eq_or_ne m t
    · rw [Function.update_self]
      exact hv.cells m hm
    · rw [Function.update_of_ne hmt]
      exact hv.cells m hm
  · intro m b c h
    rw [hheld] at h
    rw [htest]
    split_ifs at h with hb
    · rw [hb.2]
      exact ⟨hdata, if_pos rfl, Option.some.inj h⟩
    · obtain ⟨h1, h2, h3⟩ := hv.held m b c h
      exact ⟨h1, by rw [h2, ite_self], h3⟩
  · intro m m' b hne h
    rw [hheld] at h ⊢
    split_ifs at h with hb
    · rw [if_neg (fun h' => hne (hb.1.trans h'.1.symm)), hb.2]
      exact hnone m'
    · rw [if_neg ?_]
      · exact hv.apart m m' b hne h
      · rintro ⟨-, rfl⟩
        exact h (hnone m)
  · intro m b h
    obtain rfl | hmt := eq_or_ne m t
    · rw [Function.update_self] at h
      cases h
    · rw [Function.update_of_ne hmt] at h
      obtain ⟨h1, h2⟩ := hv.found m b h
      refine ⟨h1, ?_⟩
      rw [htest, if_neg ?_, h2]
      rintro rfl
      exact hothers m hmt h
  · intro m buf h
    obtain rfl | hmt := eq_or_ne m t
    · rw [Function.update_self, Share.take, hw] at h
      cases h
    · rw [Function.update_of_ne hmt] at h
      exact hv.window m buf h
  · intro b hb
    rw [htest] at hb
    by_cases hbi : b = i
    · exact Or.inr ⟨t, by rw [hheld, if_pos ⟨rfl, hbi⟩]; exact Option.some_ne_none _⟩
    · rw [if_neg hbi] at hb
      rcases hv.marked b hb with h | ⟨m, h⟩
      · exact Or.inl h
      · exact Or.inr ⟨m, by rwa [hheld, if_neg (fun h' => hbi h'.2)]⟩

theorem after_clear (hv : Valid ls s) {t : ℕ} {b : BlockId} (hb : (ls t).held b ≠ none) :
    Valid (Function.update ls t ((ls t).setHeld b none))
      { s with blockBitmap := s.blockBitmap.clear b } := by
  have hdata := hv.held_isSome_data hb
  have hsame := cell_found_window ls t ((ls t).setHeld b none) rfl rfl rfl
  have htest : ∀ b', (s.blockBitmap.clear b).test b' =
      if b' = b then false else s.blockBitmap.test b' := Bitmap.test_clear _ b
  have hheld : ∀ m b', (Function.update ls t ((ls t).setHeld b none) m).held b' =
      if m = t ∧ b' = b then none else (ls m).held b' := held_update rfl
  constructor
  · rw [Bitmap.numBits_clear]
    exact hv.numBits
  · intro b' hb'
    have hne : b' ≠ b := by
      rintro rfl
      have h1 := hdata.1
      omega
    rw [htest, if_neg hne]
    exact hv.reserved b' hb'
  · intro m hm
    rw [(hsame m).1]
    exact hv.cells m hm
  · intro m b' c h
    rw [hheld] at h
    split_ifs at h with hmb
    obtain ⟨h1, h2, h3⟩ := hv.held m b' c h
    have hne : b' ≠ b := by
      rintro rfl
      obtain rfl | hm := eq_or_ne m t
      · exact hmb ⟨rfl, rfl⟩
      · rw [hv.apart t m b' hm.symm hb] at h
        cases h
    refine ⟨h1, ?_, h3⟩
    rw [htest, if_neg hne]
    exact h2
  · intro m m' b' hne h
    rw [hheld] at h ⊢
    split_ifs at h with hmb
    · exact absurd rfl h
    · rw [hv.apart m m' b' hne h, ite_self]
  · intro m b' h
    rw [(hsame m).2.1] at h
    obtain ⟨h1, h2⟩ := hv.found m b' h
    exact ⟨h1, by rw [htest, h2, ite_self]⟩
  · intro m buf h
    rw [(hsame m).2.2] at h
    exact hv.window m buf h
  · intro b' hb'
    rw [htest] at hb'
    split_ifs at hb' with hbb
    rcases hv.marked b' hb' with h | ⟨m, h⟩
    · exact Or.inl h
    · exact Or.inr ⟨m, by rwa [hheld, if_neg (fun h' => hbb h'.2)]⟩

theorem after_writeHeld (hv : Valid ls s) {t : ℕ} {b : BlockId} (buf : Block)
    (hb : (ls t).held b ≠ none) :
    Valid (Function.update ls t ((ls t).setHeld b (some buf)))
      { s with d := s.d.writeBlock b buf } := by
  have hdata := hv.held_isSome_data hb
  have hsame := cell_found_window ls t ((ls t).setHeld b (some buf)) rfl rfl rfl
  have hheld : ∀ m b', (Function.update ls t ((ls t).setHeld b (some buf)) m).held b' =
      if m = t ∧ b' = b then some buf else (ls m).held b' := held_update rfl
  have htable : ∀ m < inodeNum, s.d.writeBlock b buf (iblock m sb.nblocks).toNat =
      s.d (iblock m sb.nblocks).toNat := by
    intro m hm
    rw [Disk.writeBlock_of_lt _ _ hdata.2, Function.update_of_ne]
    have h1 := iblock_lt hm
    have h2 := hdata.1
    omega
  constructor
  · exact hv.numBits
  · exact hv.reserved
  · intro m hm
    dsimp only
    rw [(hsame m).1, htable m hm]
    exact hv.cells m hm
  · intro m b' c h
    rw [hheld] at h
    dsimp only
    rw [Disk.writeBlock_of_lt _ _ hdata.2]
    split_ifs at h with hmb
    · rw [hmb.2, Function.update_self]
      obtain ⟨c', hc'⟩ := Option.ne_none_iff_exists'.mp hb
      exact ⟨hdata, (hv.held t b c' hc').2.1, Option.some.inj h⟩
    · obtain ⟨h1, h2, h3⟩ := hv.held m b' c h
      have hne : b' ≠ b := by
        rintro rfl
        obtain rfl | hm := eq_or_ne m t
        · exact hmb ⟨rfl, rfl⟩
        · rw [hv.apart t m b' hm.symm hb] at h
          cases h
      refine ⟨h1, h2, ?_⟩
      rw [Function.update_of_ne (fun h' => hne (UInt32.toNat_inj.mp h'))]
      exact h3
  · intro m m' b' hne h
    rw [hheld] at h ⊢
    split_ifs at h with hmb
    · rw [if_neg (fun h' => hne (hmb.1.trans h'.1.symm)), hmb.2]
      exact hv.apart t m' b (hmb.1 ▸ hne) hb
    · rw [if_neg ?_]
      · exact hv.apart m m' b' hne h
      · rintro ⟨rfl, rfl⟩
        exact hb (hv.apart m m' b' hne h)
  · intro m b' h
    rw [(hsame m).2.1] at h
    exact hv.found m b' h
  · intro m buf' h
    rw [(hsame m).2.2] at h
    obtain ⟨hm, h'⟩ := hv.window m buf' h
    exact ⟨hm, (htable m hm).trans h'⟩
  · intro b' hb'
    rcases hv.marked b' hb' with h | ⟨m, h⟩
    · exact Or.inl h
    · refine Or.inr ⟨m, ?_⟩
      rw [hheld]
      split_ifs
      · exact Option.some_ne_none _
      · exact h

/-- The write that ends `put_inode`, while no other request is about to write the same
block of the table. -/
theorem after_closeCell (hv : Valid ls s) {t : ℕ} {buf : Block} (ino : Inode)
    (hw : (ls t).window = some buf) (hf : (ls t).found = none)
    (hothers : ∀ u, u ≠ t → iblock u sb.nblocks = iblock t sb.nblocks →
      (ls u).window = none) :
    Valid (Function.update ls t { ls t with cell := ino, window := none })
      { s with
        d := s.d.writeBlock (iblock t sb.nblocks) (buf.setCell (t % ipb) ino) } := by
  obtain ⟨ht, hbuf⟩ := hv.window t buf hw
  have hlt : (iblock t sb.nblocks).toNat < blockNum := (iblock_lt ht).trans (by decide)
  have hc : ∀ m, (Function.update ls t { ls t with cell := ino, window := none } m).held =
      (ls m).held ∧
      (Function.update ls t { ls t with cell := ino, window := none } m).found =
        (ls m).found := by
    intro m
    obtain rfl | hm := eq_or_ne m t
    · rw [Function.update_self]
      exact ⟨rfl, rfl⟩
    · rw [Function.update_of_ne hm]
      exact ⟨rfl, rfl⟩
  rw [Disk.writeBlock_of_lt _ _ hlt]
  constructor
  · exact hv.numBits
  · exact hv.reserved
  · intro m hm
    have hcell := hv.cells m hm
    dsimp only
    obtain rfl | hmt := eq_or_ne m t
    · rw [Function.update_self, Function.update_self]
      exact Block.cell_setCell buf (Nat.mod_lt _ (by decide)) ino
    · rw [Function.update_of_ne hmt]
      by_cases hb : (iblock m sb.nblocks).toNat = (iblock t sb.nblocks).toNat
      · have hne : m % ipb ≠ t % ipb := fun h => hmt (iblock_cell_inj hm ht hb h)
        rw [hb, Function.update_self, Block.cell_setCell_of_ne buf hne, ← hbuf, ← hb]
        exact hcell
      · rw [Function.update_of_ne hb]
        exact hcell
  · intro m b c h
    rw [(hc m).1] at h
    obtain ⟨h1, h2, h3⟩ := hv.held m b c h
    refine ⟨h1, h2, ?_⟩
    dsimp only
    rw [Function.update_of_ne]
    · exact h3
    · have h4 := iblock_lt ht
      have h5 := h1.1
      omega
  · intro m m' b hne h
    rw [(hc m).1] at h
    rw [(hc m').1]
    exact hv.apart m m' b hne h
  · intro m b h
    rw [(hc m).2] at h
    exact hv.found m b h
  · intro m buf' h
    obtain rfl | hmt := eq_or_ne m t
    · rw [Function.update_self] at h
      cases h
    · rw [Function.update_of_ne hmt] at h
      obtain ⟨hm, h'⟩ := hv.window m buf' h
      refine ⟨hm, ?_⟩
      dsimp only
      rw [Function.update_of_ne]
      · exact h'
      · intro hb
        rw [hothers m hmt (UInt32.toNat_inj.mp hb)] at h
        cases h
  · intro b hb
    rcases hv.marked b hb with h | ⟨m, h⟩
    · exact Or.inl h
    · exact Or.inr ⟨m, by rwa [(hc m).1]⟩

end Valid

/-- Of a request that is idle or may issue a command compatible with `mark`. -/
private theorem found_ne_of_mark {u : ℕ} {l : Share} {i : BlockId}
    (h : l.Idle ∨ ∃ c' post', Rule u l c' post' ∧ Compat (.mark i) c') :
    l.found ≠ some i := by
  intro hfound
  have hnone : ¬ l.found = none := by
    rw [hfound]
    exact Option.some_ne_none i
  rcases h with hi | ⟨c', post', hr, hc⟩
  · exact hnone hi.1
  · cases hr with
    | find _ hl => exact hnone hl.1
    | mark _ hf => exact hc (Option.some.inj (hfound.symm.trans hf))
    | clear hl => exact hnone hl.1
    | readHeld hl => exact hnone hl.1
    | readCell _ hl => exact hnone hl.1
    | openCell _ hl => exact hnone hl.1
    | writeHeld _ hl => exact hnone hl.1
    | closeCell _ hf => exact hnone hf

private theorem window_eq_none_of_write {u t : ℕ} {l : Share} {buf : Block}
    (ht : t < inodeNum) (he : iblock u sb.nblocks = iblock t sb.nblocks)
    (h : l.Idle ∨ ∃ c' post', Rule u l c' post' ∧
      Compat (.writeBlock (iblock t sb.nblocks) buf) c') : l.window = none := by
  rcases h with hi | ⟨c', post', hr, hc⟩
  · exact hi.2
  · cases hr with
    | find _ hl => exact hl.2
    | mark _ _ hw => exact hw
    | clear hl => exact hl.2
    | readHeld hl => exact hl.2
    | readCell _ hl => exact hl.2
    | openCell _ hl => exact hl.2
    | writeHeld _ hl => exact hl.2
    | closeCell => exact absurd (hc he.symm) (iblock_not_data ht)

/-- The rules are sound for the block layer, as long as every allocation finds a clear
bit and no two requests meet in the middle of an allocation or of a `put_inode`. -/
theorem rule_sound : Sound exec Rule Valid Share.Idle Compat FindsClear := by
  constructor
  intro ls s t c post hv hr hothers hpre
  cases hr with
  | find hn hl hc =>
    obtain ⟨hlt, ht, -⟩ := Bitmap.find_spec _ (hpre rfl)
    have hdata := hv.data_of_clear hlt ht
    refine ⟨_, ⟨hdata, hv.held_eq_none ht t, rfl⟩, hv.congr_share rfl rfl ?_ (hv.window t)⟩
    intro b hb
    obtain rfl : s.blockBitmap.find = b := Option.some.inj hb
    exact ⟨hdata, ht⟩
  | mark hn hf hw =>
    refine ⟨_, ⟨_, rfl⟩, hv.after_mark hf hw fun u hu => ?_⟩
    exact found_ne_of_mark (hothers u hu)
  | clear hl hb => exact ⟨_, rfl, hv.after_clear hb⟩
  | readHeld hl hb =>
    obtain ⟨hdata, -, hd⟩ := hv.held t _ _ hb
    refine ⟨_, ⟨?_, rfl⟩, by rwa [Function.update_eq_self]⟩
    rw [← hd]
    exact s.d.readBlock_of_lt hdata.2
  | readCell hn hl =>
    have hlt := (iblock_lt hn).trans (show firstData < blockNum by decide)
    refine ⟨_, ⟨_, s.d.readBlock_of_lt hlt, hv.cells t hn, rfl⟩, ?_⟩
    rwa [Function.update_eq_self]
  | openCell hn hl =>
    have hlt := (iblock_lt hn).trans (show firstData < blockNum by decide)
    refine ⟨_, ⟨_, s.d.readBlock_of_lt hlt, hv.cells t hn, rfl⟩, ?_⟩
    refine hv.congr_share rfl rfl (hv.found t) fun buf hbuf => ⟨hn, Option.some.inj hbuf⟩
  | writeHeld buf hl hb => exact ⟨_, rfl, hv.after_writeHeld buf hb⟩
  | closeCell ino hf hw =>
    refine ⟨_, rfl, hv.after_closeCell ino hw hf fun u hu he => ?_⟩
    exact window_eq_none_of_write (hv.window t _ hw).1 he (hothers u hu)

end Yfs.Store
