import Mathlib.Data.List.Basic
import Mathlib.Data.List.Range

/-! Memory as a function from addresses, the list that a stretch of it holds, and writing one. -/
namespace Effect

variable {α : Type} {b b' : ℕ → α} {a n m : ℕ} {l : List α}

/-- What the `n` cells from `a` on hold. -/
def slice (b : ℕ → α) (a n : ℕ) : List α := (List.range n).map fun i => b (a + i)

/-- The cells from `a` on hold the list. -/
def overwrite (b : ℕ → α) (a : ℕ) (l : List α) : ℕ → α := fun i =>
  if a ≤ i then l[i - a]?.getD (b i) else b i

@[simp] theorem length_slice : (slice b a n).length = n := by simp [slice]

theorem getElem_slice {i : ℕ} (h : i < (slice b a n).length) : (slice b a n)[i] = b (a + i) := by
  simp [slice]

theorem slice_add (b : ℕ → α) (a n m : ℕ) :
    slice b a (n + m) = slice b a n ++ slice b (a + n) m := by
  unfold slice
  rw [List.range_add]
  simp [Nat.add_assoc, Function.comp_def]

theorem slice_succ (b : ℕ → α) (a n : ℕ) : slice b a (n + 1) = b a :: slice b (a + 1) n := by
  rw [Nat.add_comm n 1, slice_add]
  rfl

theorem slice_congr (h : ∀ i, a ≤ i → i < a + n → b' i = b i) : slice b' a n = slice b a n := by
  unfold slice
  apply List.map_congr_left
  intro i hi
  have hlt := List.mem_range.mp hi
  exact h _ (by omega) (by omega)

theorem overwrite_of_lt {i : ℕ} (h : i < a) : overwrite b a l i = b i := by
  unfold overwrite
  rw [if_neg (by omega)]

theorem overwrite_of_le {i : ℕ} (h : a + l.length ≤ i) : overwrite b a l i = b i := by
  unfold overwrite
  rw [List.getElem?_eq_none (by omega)]
  simp

theorem slice_overwrite (b : ℕ → α) (a : ℕ) (l : List α) :
    slice (overwrite b a l) a l.length = l := by
  apply List.ext_getElem
  · simp
  · intro i h₁ h₂
    rw [getElem_slice]
    simp [overwrite, h₂]

theorem slice_overwrite_end (b : ℕ → α) (n : ℕ) (l : List α) :
    slice (overwrite b n l) 0 (n + l.length) = slice b 0 n ++ l := by
  have hkept : slice (overwrite b n l) 0 n = slice b 0 n :=
    slice_congr fun i _ hi => overwrite_of_lt (by omega)
  rw [slice_add, hkept, Nat.zero_add, slice_overwrite]

end Effect
