import Yfs.Store.Layout
import Mathlib.Order.MinMax

/-! What `remove_file` does to the share of its inum. -/
namespace Yfs.Store
open Effect

/-- A removal in progress: the places `U` of the file of `l` are freed. -/
structure Freeing (l : Share) (U : Pos → Prop) (l' : Share) : Prop where
  idle : l'.Idle
  cell : l'.cell = l.cell
  freed : ∀ p, U p → l'.held (l.slotAt p) = none
  rest : ∀ b, (∀ p, U p → l.slotAt p ≠ b) → l'.held b = l.held b

/-- What is left once a file of `size` bytes is removed. -/
structure Removed (l : Share) (size : ℕ) (l' : Share) : Prop where
  idle : l'.Idle
  cell : l'.cell = Inode.zero
  freed : ∀ p : Pos, p.InUse (blocksOf size) → l'.held (l.slotAt p) = none
  rest : ∀ b, (∀ p : Pos, p.InUse (blocksOf size) → l.slotAt p ≠ b) → l'.held b = l.held b

section RemoveFile

variable {n : ℕ} {l l' : Share} {type : Int16} {bytes : List UInt8} {U : Pos → Prop}

theorem Freeing.congr (h : Freeing l U l') {U' : Pos → Prop} (hU : ∀ p, U' p ↔ U p) :
    Freeing l U' l' := by
  obtain rfl : U' = U := funext fun p => propext (hU p)
  exact h

/-- A place that is in use and not yet freed still holds its block. -/
theorem Freeing.held_of_not (h : Freeing l U l') (hs : Stores l type bytes)
    (hU : ∀ p, U p → p.InUse (blocksOf bytes.length)) {p : Pos}
    (hp : p.InUse (blocksOf bytes.length)) (hn : ¬ U p) :
    l'.held (l.slotAt p) = l.held (l.slotAt p) := by
  apply h.rest
  intro q hq he
  rw [hs.inj q p (hU q hq) hp he] at hq
  exact hn hq

theorem Freeing.free (h : Freeing l U l') (p : Pos) :
    Freeing l (fun q => q = p ∨ U q) (l'.setHeld (l.slotAt p) none) := by
  constructor
  · exact Share.idle_setHeld h.idle _ _
  · exact h.cell
  · rintro q (rfl | hq)
    · rw [Share.held_setHeld, if_pos rfl]
    · rw [Share.held_setHeld, h.freed q hq, ite_self]
  · intro b hb
    rw [Share.held_setHeld, if_neg (fun he => hb p (Or.inl rfl) he.symm)]
    exact h.rest b fun q hq => hb q (Or.inr hq)

/-- The places of the data blocks below `n`. -/
def dataBelow (n : ℕ) : Pos → Prop
  | .data j => j < n
  | .indirect => False

theorem freeUpTo_wp {count rem lo : ℕ} {block : ℕ → BlockId} (hs : Stores l type bytes)
    (hblock : ∀ i < min rem count, block i = l.slotAt (.data (lo + i)))
    (hle : lo + min rem count ≤ blocksOf bytes.length) (h : Freeing l (dataBelow lo) l') :
    (Program.loop (freeUpTo count block) rem 0 ()).wp (Rule n)
      (fun _ l'' => Freeing l (dataBelow (lo + min rem count)) l'') l' := by
  apply Program.wp_loop _ (fun i _ l'' => Freeing l (dataBelow (lo + i)) l'' ∧ i ≤ count)
  · exact ⟨h, Nat.zero_le _⟩
  · rintro i _ l'' - hi ⟨hf, hle'⟩
    unfold freeUpTo
    split_ifs with hc
    · have hin : (Pos.data (lo + i)).InUse (blocksOf bytes.length) := by
        have hi' : lo + i < lo + min rem count := by omega
        exact lt_of_lt_of_le hi' hle
      have hheld := hf.held_of_not hs (fun p hp => ?_) hin (Nat.lt_irrefl (lo + i))
      · rw [hblock i (by omega)]
        refine Program.wp_bind _ (freeBlock_wp hf.idle ?_ ⟨?_, hc⟩)
        · rw [hheld]
          exact hs.inUse _ hin
        · refine (hf.free (.data (lo + i))).congr fun p => ?_
          cases p with
          | data j =>
            simp only [dataBelow, Pos.data.injEq]
            omega
          | indirect => simp [dataBelow]
      · cases p with
        | data j =>
          have hj : j < lo + i := hp
          have hlt : lo + i < blocksOf bytes.length := hin
          exact hj.trans hlt
        | indirect => exact hp.elim
    · have hm : min rem count = i := by omega
      rw [hm]
      exact hf
  · rintro _ l'' ⟨hf, hle'⟩
    have hm : min rem count = 0 + rem := by omega
    rw [hm]
    exact hf

theorem freeInode_wp (junk : Junk) {Q : Unit → Share → Prop} (hn : n < inodeNum) (hl : l.Idle)
    (hlive : l.cell.type ≠ 0) (h : Q () (l.setCell Inode.zero)) :
    (freeInode junk n).wp (Rule n) Q l := by
  have hinode : l.inode = some l.cell := if_neg hlive
  unfold freeInode
  refine Program.wp_bind _ (getInode_wp hn hl ?_)
  rw [hinode]
  exact putInode_wp hn hl h

/-- `remove_file` on a live inum. -/
theorem removeFile_wp (junk : Junk) (hn : n < inodeNum) (h : Stores l type bytes) :
    (removeFile junk n).wp (Rule n) (fun _ l' => Removed l bytes.length l') l := by
  have hinode : l.inode = some l.cell := if_neg h.type_ne
  have hfinish : ∀ l', Freeing l (fun p => p.InUse (blocksOf bytes.length)) l' →
      (freeInode junk n).wp (Rule n) (fun _ l'' => Removed l bytes.length l'') l' := by
    intro l' hf
    apply freeInode_wp junk hn hf.idle
    · rw [hf.cell]
      exact h.type_ne
    · exact ⟨hf.idle, rfl, hf.freed, hf.rest⟩
  have hstart : Freeing l (dataBelow 0) l := by
    refine ⟨h.idle, rfl, fun p hp => ?_, fun _ _ => rfl⟩
    cases p with
    | data j => exact absurd hp (Nat.not_lt_zero j)
    | indirect => exact hp.elim
  unfold removeFile
  refine Program.wp_bind _ (getInode_wp hn h.idle ?_)
  simp only [hinode, h.blockCount_eq]
  refine Program.wp_seq _ (freeUpTo_wp h (fun i hi => ?_) (by omega) hstart) ?_
  · rw [Share.slotAt, slotOf, if_pos (by omega), Nat.zero_add]
  rintro _ l' hf
  by_cases hbig : nDirect < blocksOf bytes.length
  · have hsmall := h.small
    have hm : min nDirect (blocksOf bytes.length) = nDirect := min_eq_left hbig.le
    have hm' : nDirect + min nIndirect (blocksOf bytes.length - nDirect) =
        blocksOf bytes.length := by
      simp only [maxFile] at hsmall
      omega
    rw [hm, Nat.zero_add] at hf
    have hin : Pos.indirect.InUse (blocksOf bytes.length) := hbig
    obtain ⟨c, hc⟩ := Option.ne_none_iff_exists'.mp (h.inUse .indirect hin)
    have hdata : ∀ k ≤ blocksOf bytes.length, ∀ p, dataBelow k p →
        p.InUse (blocksOf bytes.length) := by
      intro k hk p hp
      cases p with
      | data j => exact lt_of_lt_of_le hp hk
      | indirect => exact hp.elim
    have hheld := hf.held_of_not h (hdata _ hbig.le) hin id
    have hind : l.ind = c := by
      have hc' : l.held (l.cell.slot nDirect) = some c := hc
      rw [Share.ind, hc', Option.getD_some]
    simp only [if_pos hbig]
    refine Program.wp_bind _ (readBlock_wp hf.idle (hheld.trans hc) ?_)
    rw [← hind]
    refine Program.wp_seq _ (freeUpTo_wp h (fun i hi => ?_) hm'.le hf) ?_
    · rw [Share.slotAt, slotOf, if_neg (by omega), Nat.add_sub_cancel_left]
    rintro _ l₂ hf₂
    rw [hm'] at hf₂
    have hheld₂ := hf₂.held_of_not h (hdata _ le_rfl) hin id
    refine Program.wp_bind _ (freeBlock_wp hf₂.idle ?_ (hfinish _ ?_))
    · exact hheld₂ ▸ h.inUse .indirect hin
    · refine (hf₂.free .indirect).congr fun p => ?_
      cases p with
      | data j => simp [dataBelow, Pos.InUse]
      | indirect => simp [hin]
  · simp only [if_neg hbig]
    apply hfinish
    refine hf.congr fun p => ?_
    cases p with
    | data j =>
      simp only [dataBelow, Pos.InUse]
      omega
    | indirect => exact ⟨fun h' => absurd h' hbig, False.elim⟩

end RemoveFile

end Yfs.Store
