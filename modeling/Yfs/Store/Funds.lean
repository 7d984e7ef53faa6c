import Yfs.Store.Ownership
import Mathlib.Algebra.BigOperators.Group.Finset.Piecewise
import Mathlib.Algebra.Order.BigOperators.Group.Finset
import Mathlib.Order.Interval.Finset.Nat

/-! Free blocks as funds. A request that may allocate `credits` blocks is sure to find
them when the credits of all requests together do not exceed the clear bits. -/
namespace Yfs.Store
open Effect

/-- The clear bits of a bitmap, below the number of blocks of the disk. -/
def freeBits (b : Bitmap) : Finset ℕ :=
  (Finset.range blockNum).filter fun i => b.test (UInt32.ofNat i) = false

theorem mem_freeBits {b : Bitmap} {i : BlockId} :
    i.toNat ∈ freeBits b ↔ i.toNat < blockNum ∧ b.test i = false := by
  rw [freeBits, Finset.mem_filter, Finset.mem_range, UInt32.ofNat_toNat]

theorem freeBits_mark (b : Bitmap) {i : BlockId} (hi : i < b.numBits) :
    freeBits (b.mark i) = (freeBits b).erase i.toNat := by
  ext j
  simp only [freeBits, Finset.mem_filter, Finset.mem_erase, Finset.mem_range, Bitmap.test_mark]
  by_cases hj : j < blockNum
  · have hv : (UInt32.ofNat j).toNat = j :=
      UInt32.toNat_ofNat_of_lt' (hj.trans (by decide))
    by_cases he : UInt32.ofNat j = i
    · have hji : j = i.toNat := by rw [← he, hv]
      simp [hi, hji]
    · have hji : j ≠ i.toNat := fun h => he (by rw [h, UInt32.ofNat_toNat])
      simp [he, hji]
  · simp [hj]

theorem freeBits_clear (b : Bitmap) (i : BlockId) : freeBits b ⊆ freeBits (b.clear i) := by
  intro j hj
  rw [freeBits, Finset.mem_filter] at hj ⊢
  rw [Bitmap.test_clear, hj.2, ite_self]
  exact ⟨hj.1, rfl⟩

def totalCredits (ls : ℕ → Share) : ℕ := ∑ n ∈ Finset.range inodeNum, (ls n).credits

/-- Valid shares whose credits are covered by clear bits. -/
structure Funded (ls : ℕ → Share) (s : BlockManager) : Prop where
  valid : Valid ls s
  covered : totalCredits ls ≤ (freeBits s.blockBitmap).card
  pending : ∀ n b, (ls n).found = some b → 0 < (ls n).credits

section Credits

variable {ls : ℕ → Share} {s : BlockManager} {t : ℕ} {l' : Share}

theorem totalCredits_update (ls : ℕ → Share) (l' : Share) (ht : t < inodeNum) :
    totalCredits (Function.update ls t l') + (ls t).credits = totalCredits ls + l'.credits := by
  have hm := Finset.mem_range.mpr ht
  have hsame : ∑ n ∈ (Finset.range inodeNum).erase t, (Function.update ls t l' n).credits =
      ∑ n ∈ (Finset.range inodeNum).erase t, (ls n).credits := by
    refine Finset.sum_congr rfl fun n hn => ?_
    rw [Function.update_of_ne (Finset.ne_of_mem_erase hn)]
  have h1 := Finset.add_sum_erase (Finset.range inodeNum)
    (fun n => (Function.update ls t l' n).credits) hm
  have h2 := Finset.add_sum_erase (Finset.range inodeNum) (fun n => (ls n).credits) hm
  simp only [Function.update_self] at h1
  unfold totalCredits
  omega

theorem totalCredits_update_le (h : l'.credits ≤ (ls t).credits) :
    totalCredits (Function.update ls t l') ≤ totalCredits ls := by
  refine Finset.sum_le_sum fun n _ => ?_
  obtain rfl | hn := eq_or_ne n t
  · rwa [Function.update_self]
  · rw [Function.update_of_ne hn]

theorem credits_le_total (ht : t < inodeNum) : (ls t).credits ≤ totalCredits ls :=
  Finset.single_le_sum (f := fun n => (ls n).credits) (fun _ _ => Nat.zero_le _)
    (Finset.mem_range.mpr ht)

/-- A command a funded request may issue finds a clear bit if it looks for one. -/
theorem Funded.findsClear (hf : Funded ls s) {c : Cmd} {post : Reply c → Share → Prop}
    (hr : Rule t (ls t) c post) : FindsClear c s := by
  rintro rfl
  cases hr with
  | find hn hl hc =>
    have hpos : 0 < (freeBits s.blockBitmap).card :=
      hc.trans_le ((credits_le_total hn).trans hf.covered)
    obtain ⟨i, hi⟩ := Finset.card_pos.mp hpos
    rw [freeBits, Finset.mem_filter, Finset.mem_range] at hi
    refine ⟨UInt32.ofNat i, hf.valid.lt_numBits.mpr ?_, hi.2⟩
    rw [UInt32.toNat_ofNat_of_lt' (hi.1.trans (by decide))]
    exact hi.1

theorem Funded.of_le (hf : Funded ls s) {s' : BlockManager}
    (hv : Valid (Function.update ls t l') s') (hc : l'.credits = (ls t).credits)
    (hfound : l'.found ≠ none → 0 < l'.credits)
    (hfree : freeBits s.blockBitmap ⊆ freeBits s'.blockBitmap) :
    Funded (Function.update ls t l') s' := by
  refine ⟨hv, ?_, fun n b hb => ?_⟩
  · exact (totalCredits_update_le hc.le).trans (hf.covered.trans (Finset.card_le_card hfree))
  · obtain rfl | hn := eq_or_ne n t
    · rw [Function.update_self] at hb ⊢
      apply hfound
      rw [hb]
      exact Option.some_ne_none b
    · rw [Function.update_of_ne hn] at hb ⊢
      exact hf.pending n b hb

end Credits

/-- Only `mark` uses up a clear bit, and it uses up a credit too. -/
theorem funded_sound : Sound exec Rule Funded Share.Idle Compat FindsClear := by
  constructor
  intro ls s t c post hf hr hothers hpre
  obtain ⟨l', hpost, hv'⟩ := rule_sound.step hf.valid hr hothers hpre
  refine ⟨l', hpost, ?_⟩
  cases hr with
  | find hn hl hc =>
    obtain ⟨-, -, rfl⟩ := hpost
    exact hf.of_le hv' rfl (fun _ => hc) subset_rfl
  | @mark i hn hfd hw =>
    obtain ⟨c, rfl⟩ := hpost
    obtain ⟨hdata, hclear⟩ := hf.valid.found t i hfd
    have hpos := hf.pending t i hfd
    have hmem : i.toNat ∈ freeBits s.blockBitmap := mem_freeBits.mpr ⟨hdata.2, hclear⟩
    have htotal := totalCredits_update ls ((ls t).take i c) hn
    have hcr : ((ls t).take i c).credits = (ls t).credits - 1 := rfl
    have hcov := hf.covered
    refine ⟨hv', ?_, fun n b hb => ?_⟩
    · change _ ≤ (freeBits (s.blockBitmap.mark i)).card
      rw [freeBits_mark _ (hf.valid.lt_numBits.mpr hdata.2), Finset.card_erase_of_mem hmem]
      omega
    · obtain rfl | hn := eq_or_ne n t
      · rw [Function.update_self] at hb
        cases hb
      · rw [Function.update_of_ne hn] at hb ⊢
        exact hf.pending n b hb
  | clear hl hb =>
    obtain rfl := hpost
    exact hf.of_le hv' rfl (fun h => absurd hl.1 h) (freeBits_clear _ _)
  | readHeld hl hb =>
    obtain ⟨-, rfl⟩ := hpost
    exact hf.of_le hv' rfl (fun h => absurd hl.1 h) subset_rfl
  | readCell hn hl =>
    obtain ⟨-, -, -, rfl⟩ := hpost
    exact hf.of_le hv' rfl (fun h => absurd hl.1 h) subset_rfl
  | openCell hn hl =>
    obtain ⟨buf, -, -, rfl⟩ := hpost
    exact hf.of_le hv' rfl (fun h => absurd hl.1 h) subset_rfl
  | writeHeld buf hl hb =>
    obtain rfl := hpost
    exact hf.of_le hv' rfl (fun h => absurd hl.1 h) subset_rfl
  | closeCell ino hfd hw =>
    obtain rfl := hpost
    exact hf.of_le hv' rfl (fun h => absurd hfd h) subset_rfl

/-- As long as no share holds a block all data blocks are free. -/
theorem Valid.free_of_idle {ls : ℕ → Share} {s : BlockManager} (hv : Valid ls s)
    (hheld : ∀ n b, (ls n).held b = none) : 32415 ≤ (freeBits s.blockBitmap).card := by
  have hsub : Finset.Ico firstData blockNum ⊆ freeBits s.blockBitmap := by
    intro i hi
    rw [Finset.mem_Ico] at hi
    have hi' : (UInt32.ofNat i).toNat = i := UInt32.toNat_ofNat_of_lt' (hi.2.trans (by decide))
    rw [freeBits, Finset.mem_filter, Finset.mem_range]
    refine ⟨hi.2, ?_⟩
    by_contra ht
    rcases hv.marked (UInt32.ofNat i) (by simpa using ht) with h | ⟨n, h⟩
    · rw [hi'] at h
      omega
    · exact h (hheld n _)
  have hcard := Finset.card_le_card hsub
  rwa [Nat.card_Ico] at hcard

/-- Idle shares may be given credits that are covered by clear bits. -/
theorem Valid.fund {ls : ℕ → Share} {s : BlockManager} (hv : Valid ls s)
    (hidle : ∀ n, (ls n).Idle) {credits : ℕ → ℕ}
    (hc : ∑ n ∈ Finset.range inodeNum, credits n ≤ (freeBits s.blockBitmap).card) :
    Funded (fun n => (ls n).setCredits (credits n)) s := by
  refine ⟨{ hv with }, hc, fun n b hb => ?_⟩
  have h : (ls n).found = some b := hb
  rw [(hidle n).1] at h
  cases h

/-- A request that runs alone with no more credits than there are clear bits finds a
clear bit whenever it looks for one. -/
theorem Valid.always {α : Type} {ls : ℕ → Share} {s : BlockManager} (hv : Valid ls s)
    (hidle : ∀ n, (ls n).Idle) {p : Prog α} {Q : α → Share → Prop} {n k : ℕ}
    (hn : n < inodeNum) (hwp : p.wp (Rule n) Q ((ls n).setCredits k))
    (hk : k ≤ (freeBits s.blockBitmap).card) : p.Always exec FindsClear s := by
  have hsum : ∑ j ∈ Finset.range inodeNum, (if j = n then k else 0) ≤
      (freeBits s.blockBitmap).card := by
    rwa [Finset.sum_ite_eq', if_pos (Finset.mem_range.mpr hn)]
  have hf := hv.fund hidle hsum
  refine funded_sound.always (t := n) (Q := Q) (fun hf hr => hf.findsClear hr) ?_ hf
    fun u _ => hidle u
  rwa [if_pos rfl]

/-- Clear bits beyond those for which a request has credits are clear after it. -/
theorem Valid.reserve {α : Type} {ls : ℕ → Share} {s : BlockManager} (hv : Valid ls s)
    (hidle : ∀ n, (ls n).Idle) {p : Prog α} {Q : α → Share → Prop} {n k spare : ℕ}
    (hn : n < inodeNum) (hwp : p.wp (Rule n) Q ((ls n).setCredits k))
    (hk : k + spare ≤ (freeBits s.blockBitmap).card) :
    spare ≤ (freeBits (p.run exec s).2.blockBitmap).card := by
  -- another inum holds the credits that are not used
  obtain ⟨t, ht, htn⟩ : ∃ t, t < inodeNum ∧ t ≠ n := by
    obtain rfl | h0 := eq_or_ne n 0
    · exact ⟨1, by decide, by decide⟩
    · exact ⟨0, by decide, h0.symm⟩
  have hsum : ∑ j ∈ Finset.range inodeNum,
      ((if j = n then k else 0) + if j = t then spare else 0) ≤ (freeBits s.blockBitmap).card := by
    rw [Finset.sum_add_distrib, Finset.sum_ite_eq', Finset.sum_ite_eq',
      if_pos (Finset.mem_range.mpr hn), if_pos (Finset.mem_range.mpr ht)]
    exact hk
  have hf := hv.fund hidle hsum
  have hwp' : p.wp (Rule n) Q ((ls n).setCredits
      ((if n = n then k else 0) + if n = t then spare else 0)) := by
    rwa [if_pos rfl, if_neg htn.symm]
  have halways := funded_sound.always (fun hf hr => hf.findsClear hr) hwp' hf fun u _ => hidle u
  obtain ⟨l', -, hf'⟩ := funded_sound.run hwp' hf (fun u _ => hidle u) halways
  have hle := (credits_le_total ht).trans hf'.covered
  rw [Function.update_of_ne htn] at hle
  have hcr : ((ls t).setCredits ((if t = n then k else 0) + if t = t then spare else 0)).credits =
      spare := by
    rw [if_neg htn, if_pos rfl]
    exact Nat.zero_add _
  rwa [hcr] at hle

end Yfs.Store
