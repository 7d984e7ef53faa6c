import Mathlib.Algebra.BigOperators.Fin

/-! Sums over finitely many threads, each of which is in some state. -/
namespace Effect

open scoped BigOperators

variable {ι α : Type} [Fintype ι] [DecidableEq ι]

/-- One thread moves from its state to `v`. -/
theorem sum_update (f : α → ℕ) (a : ι → α) (i : ι) (v : α) :
    ∑ j, f (Function.update a i v j) + f (a i) = ∑ j, f (a j) + f v := by
  have hi := Finset.mem_univ i
  rw [← Finset.add_sum_erase _ _ hi, ← Finset.add_sum_erase _ (fun j => f (a j)) hi,
    Function.update_self]
  have hrest : ∑ j ∈ Finset.univ.erase i, f (Function.update a i v j) =
      ∑ j ∈ Finset.univ.erase i, f (a j) := by
    apply Finset.sum_congr rfl
    intro j hj
    rw [Function.update_of_ne (Finset.ne_of_mem_erase hj)]
  rw [hrest]
  omega

section Tally

variable [DecidableEq α]

/-- How many threads are in a state. -/
def tally (a : ι → α) (x : α) : ℕ := ∑ i, if a i = x then 1 else 0

theorem tally_update (a : ι → α) (i : ι) (v x : α) :
    tally (Function.update a i v) x + (if a i = x then 1 else 0) =
      tally a x + if v = x then 1 else 0 := sum_update (fun y => if y = x then 1 else 0) a i v

omit [DecidableEq ι] in
theorem tally_eq_card (a : ι → α) (x : α) :
    tally a x = (Finset.univ.filter fun i => a i = x).card := (Finset.card_filter _ _).symm

/-- Different threads in one state are no more than the threads in it. -/
theorem length_le_tally {a : ι → α} {x : α} {l : List ι} (hl : l.Nodup)
    (h : ∀ i ∈ l, a i = x) : l.length ≤ tally a x := by
  rw [tally_eq_card, ← List.toFinset_card_of_nodup hl]
  apply Finset.card_le_card
  intro i hi
  simp [h i (List.mem_toFinset.mp hi)]

theorem tally_le_length {a : ι → α} {x : α} {l : List ι} (h : ∀ i, a i = x → i ∈ l) :
    tally a x ≤ l.length := by
  rw [tally_eq_card]
  refine le_trans (Finset.card_le_card fun i hi => ?_) (List.toFinset_card_le l)
  simp only [Finset.mem_filter, Finset.mem_univ, true_and] at hi
  exact List.mem_toFinset.mpr (h i hi)

omit [DecidableEq ι] in
theorem tally_eq_zero {a : ι → α} {x : α} : tally a x = 0 ↔ ∀ i, a i ≠ x := by
  simp [tally]

omit [DecidableEq ι] in
theorem tally_eq_all {a : ι → α} {x : α} : tally a x = Fintype.card ι ↔ ∀ i, a i = x := by
  rw [tally_eq_card, Finset.card_eq_iff_eq_univ, Finset.filter_eq_self]
  simp

end Tally

/-- What all threads have of a value is what each of them has. -/
theorem count_map_snd [BEq α] [LawfulBEq α] (l : List (ι × α)) (x : α) :
    (l.map Prod.snd).count x = ∑ i, l.count (i, x) := by
  induction l with
  | nil => simp
  | cons p l ih =>
    simp only [List.map_cons, List.count_cons, ih, Finset.sum_add_distrib, beq_iff_eq]
    congr 1
    by_cases hp : p.2 = x
    · simp [← hp, Prod.ext_iff]
    · simp [hp, Prod.ext_iff]

end Effect
