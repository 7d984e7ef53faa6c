import Yfs.Rpc.Word
import Mathlib.Data.List.Induction
import Mathlib.Order.Bounds.Basic

/-! The xids a client has reported, as `rpcc::update_xid_rep` keeps them. -/
namespace Yfs.Rpc

/-- Places `xid` before the first greater element. -/
def insertXid : List UInt32 → UInt32 → List UInt32
  | [], xid => [xid]
  | a :: w, xid => if a > xid then xid :: a :: w else a :: insertXid w xid

/-- `while (front + 1 == *it) pop_front` with the iterator at `x`, after the elements `before`.
There is no result when the loop removes `x` itself. -/
def popWhile : List UInt32 → UInt32 → Option (List UInt32)
  | [], x => if x + 1 = x then none else some []
  | a :: before, x => if a + 1 = x then popWhile before x else some (a :: before)

/-- The rounds of the compress loop that are left, with the iterator after `before`. -/
def compressFrom : List UInt32 → List UInt32 → Option (List UInt32)
  | before, [] => some before
  | before, x :: after => do
    let before ← popWhile before x
    compressFrom (before ++ [x]) after

def compress : List UInt32 → Option (List UInt32)
  | [] => none
  | a :: w => compressFrom [a] w

/-- A window without a front has no result. -/
def updateXidRep (window : List UInt32) (xid : UInt32) : Option (List UInt32) :=
  match window.head? with
  | none => none
  | some front => if xid ≤ front then some window else compress (insertXid window xid)

/-- The window after a list of reports, from the one `rpcc::rpcc` starts with. -/
def reportAll (xids : List UInt32) : Option (List UInt32) :=
  xids.foldlM updateXidRep [0]

/-- The list `f :: w` stands for the xids in `R`. -/
structure Tracks (R : UInt32 → Prop) (f : UInt32) (w : List UInt32) : Prop where
  sorted : (f :: w).Pairwise (· ≤ ·)
  covered : ∀ x, 1 ≤ x → x ≤ f → R x
  above : ∀ x, f < x → (x ∈ w ↔ R x)

/-- No element is one above the front. -/
def Compressed (f : UInt32) (w : List UInt32) : Prop :=
  ∀ x ∈ w, x ≠ f + 1

section Insert

variable {w : List UInt32} {a x xid : UInt32}

theorem mem_insertXid : x ∈ insertXid w xid ↔ x = xid ∨ x ∈ w := by
  induction w with
  | nil => simp [insertXid]
  | cons a w ih =>
    unfold insertXid
    split_ifs with h
    · simp
    · simp [ih]
      tauto

theorem sorted_insertXid (h : w.Pairwise (· ≤ ·)) : (insertXid w xid).Pairwise (· ≤ ·) := by
  induction w with
  | nil => simp [insertXid]
  | cons a w ih =>
    obtain ⟨ha, hw⟩ := List.pairwise_cons.mp h
    unfold insertXid
    split_ifs with hlt
    · apply List.pairwise_cons.mpr
      constructor
      · intro y hy
        cases hy with
        | head => exact le_of_lt hlt
        | tail _ hy => exact le_trans (le_of_lt hlt) (ha y hy)
      · exact h
    · apply List.pairwise_cons.mpr
      constructor
      · intro y hy
        obtain rfl | hy := mem_insertXid.mp hy
        · exact not_lt.mp hlt
        · exact ha y hy
      · exact ih hw

theorem insertXid_cons (h : a < xid) : insertXid (a :: w) xid = a :: insertXid w xid :=
  if_neg (lt_asymm h)

end Insert

section Compress

variable {R : UInt32 → Prop} {f x : UInt32} {before after w : List UInt32}

/-- Elements that all equal the front go together. -/
theorem popWhile_front (hfx : f + 1 = x) (h : ∀ a ∈ before, a = f) :
    popWhile before x = some [] := by
  induction before with
  | nil => exact if_neg (succ_ne x)
  | cons a before ih =>
    have ha := h a (List.mem_cons_self ..)
    rw [popWhile, if_pos (by rw [ha, hfx])]
    exact ih fun b hb => h b (List.mem_cons_of_mem _ hb)

/-- One round of the loop: the front moves up to the element under the iterator, or stays. -/
theorem Tracks.round (h : Tracks R f (before ++ x :: after)) (hc : Compressed f before) :
    ∃ f' before', (do
        let before ← popWhile (f :: before) x
        compressFrom (before ++ [x]) after) = compressFrom (f' :: before') after ∧
      Tracks R f' (before' ++ after) ∧ Compressed f' before' := by
  have hsort := h.sorted
  rw [List.pairwise_cons, List.pairwise_append, List.pairwise_cons] at hsort
  obtain ⟨hf, hbefore, ⟨hx, hafter⟩, hba⟩ := hsort
  have hfx : f ≤ x := hf x (by simp)
  by_cases heq : f + 1 = x
  · have hall : ∀ a ∈ f :: before, a = f := by
      intro a ha
      cases ha with
      | head => rfl
      | tail _ ha =>
        have ha : a ∈ before := ha
        apply eq_of_le_succ heq hfx (hf a (by simp [ha])) (hba a ha x (by simp))
        rw [← heq]
        exact hc a ha
    rw [popWhile_front heq hall]
    refine ⟨x, [], rfl, ⟨?_, ?_, ?_⟩, by simp [Compressed]⟩
    · exact List.pairwise_cons.mpr ⟨hx, hafter⟩
    · intro y h1 hy
      by_cases hyf : y ≤ f
      · exact h.covered y h1 hyf
      · exact (h.above y (not_le.mp hyf)).mp (by
          have hyx : y = x := by
            by_contra hne
            exact hyf (le_of_eq (eq_of_le_succ heq hfx (le_of_not_ge hyf) hy hne))
          simp [hyx])
    · intro y hy
      have hlt : f < y := lt_of_le_of_lt hfx hy
      rw [← h.above y hlt]
      simp only [List.nil_append, List.mem_append, List.mem_cons]
      constructor
      · exact fun hm => Or.inr (Or.inr hm)
      · intro hm
        obtain hm | hm | hm := hm
        · rw [hall y (List.mem_cons_of_mem _ hm)] at hlt
          exact absurd hlt (lt_irrefl f)
        · exact absurd hm (ne_of_gt hy)
        · exact hm
  · rw [popWhile, if_neg heq]
    refine ⟨f, before ++ [x], rfl, by simpa using h, ?_⟩
    intro y hy
    obtain hy | hy := List.mem_append.mp hy
    · exact hc y hy
    · rw [List.mem_singleton.mp hy]
      exact fun he => heq he.symm

theorem Tracks.compressFrom (h : Tracks R f (before ++ after)) (hc : Compressed f before) :
    ∃ f' w', compressFrom (f :: before) after = some (f' :: w') ∧ Tracks R f' w' ∧
      Compressed f' w' := by
  induction after generalizing f before with
  | nil => exact ⟨f, before, rfl, by simpa using h, hc⟩
  | cons x after ih =>
    obtain ⟨f', before', hround, h', hc'⟩ := h.round hc
    obtain ⟨f'', w', hrest, hw⟩ := ih h' hc'
    exact ⟨f'', w', (Rpc.compressFrom.eq_2 ..).trans (hround.trans hrest), hw⟩

/-- One report. -/
theorem Tracks.updateXidRep (h : Tracks R f w) (hc : Compressed f w) (xid : UInt32) :
    ∃ f' w', updateXidRep (f :: w) xid = some (f' :: w') ∧
      Tracks (fun x => R x ∨ 1 ≤ x ∧ x = xid) f' w' ∧ Compressed f' w' := by
  unfold Rpc.updateXidRep
  simp only [List.head?_cons]
  split_ifs with hle
  · refine ⟨f, w, rfl, ⟨h.sorted, fun x h1 hx => Or.inl (h.covered x h1 hx), ?_⟩, hc⟩
    intro x hx
    rw [h.above x hx, or_iff_left]
    rintro ⟨-, rfl⟩
    exact not_lt.mpr hle hx
  · have hlt := not_le.mp hle
    rw [insertXid_cons hlt, compress]
    apply Tracks.compressFrom
    · refine ⟨?_, fun x h1 hx => Or.inl (h.covered x h1 hx), ?_⟩
      · rw [List.nil_append, ← insertXid_cons hlt]
        exact sorted_insertXid h.sorted
      · intro x hx
        rw [List.nil_append, mem_insertXid, h.above x hx]
        have h1 : 1 ≤ x := one_le_of_lt hx
        tauto
    · simp [Compressed]

end Compress

theorem reportAll_tracks (xids : List UInt32) :
    ∃ f w, reportAll xids = some (f :: w) ∧ Tracks (fun x => 1 ≤ x ∧ x ∈ xids) f w ∧
      Compressed f w := by
  induction xids using List.reverseRecOn with
  | nil =>
    refine ⟨0, [], rfl, ⟨List.pairwise_singleton _ _, ?_, by simp⟩, by simp [Compressed]⟩
    intro x h1 hx
    exact absurd (le_trans h1 hx) (by decide)
  | append_singleton xids xid ih =>
    obtain ⟨f, w, hw, h, hc⟩ := ih
    obtain ⟨f', w', hw', h', hc'⟩ := h.updateXidRep hc xid
    refine ⟨f', w', ?_, ?_, hc'⟩
    · rw [reportAll, List.foldlM_append, ← reportAll, hw]
      simpa using hw'
    · convert h' using 2
      simp only [List.mem_append, List.mem_singleton]
      tauto

/-- The window is exact whatever is reported, in whatever order and how often. -/
theorem ackWindow_exact (xids : List UInt32) :
    ∃ r w, reportAll xids = some (r :: w) ∧
      IsGreatest {r | ∀ x, 1 ≤ x → x ≤ r → x ∈ xids} r ∧
      (r :: w).Pairwise (· ≤ ·) ∧ (∀ x ∈ r :: w, x.toNat ≠ r.toNat + 1) ∧
      ∀ x, r < x → (x ∈ w ↔ x ∈ xids) := by
  obtain ⟨r, w, hw, h, hc⟩ := reportAll_tracks xids
  have habove : ∀ x, r < x → (x ∈ w ↔ x ∈ xids) := by
    intro x hx
    rw [h.above x hx]
    have h1 : 1 ≤ x := one_le_of_lt hx
    simp [h1]
  refine ⟨r, w, hw, ⟨fun x h1 hx => (h.covered x h1 hx).2, ?_⟩, h.sorted, ?_, habove⟩
  · intro r' hr'
    by_contra hlt
    have hlt := not_le.mp hlt
    have hr1 : r < r + 1 := lt_succ_of_lt hlt
    have hmem := (habove _ hr1).mpr (hr' _ (one_le_of_lt hr1) (succ_le_of_lt hlt))
    exact hc (r + 1) hmem rfl
  · intro x hx hs
    have hlt : r < x := UInt32.lt_iff_toNat_lt.mpr (by omega)
    cases hx with
    | head => omega
    | tail _ hx =>
      apply hc x hx
      apply UInt32.toNat_inj.mp
      rw [toNat_succ_of_lt hlt, hs]

end Yfs.Rpc
