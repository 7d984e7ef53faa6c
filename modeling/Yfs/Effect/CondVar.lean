import Mathlib.Data.Nat.Notation

/-! Condition variables: the threads that wait on one and have not been woken. -/
namespace Effect

abbrev CondVar (T : Type) : Type := List T

namespace CondVar

variable {T : Type} [DecidableEq T]

/-- The thread gives up the lock and waits. -/
def block (c : CondVar T) (t : T) : CondVar T := t :: c

/-- `pthread_cond_signal` wakes one thread if any waits: `w`, or else another one. -/
def signal (c : CondVar T) (w : T) : CondVar T := if w ∈ c then c.erase w else c.tail

/-- A thread wakes up without a signal. -/
def stir (c : CondVar T) (t : T) : CondVar T := c.erase t

variable {c : CondVar T} {t w : T}

theorem signal_sublist (c : CondVar T) (w : T) : List.Sublist (c.signal w) c := by
  unfold signal
  split
  · exact List.erase_sublist
  · exact List.tail_sublist c

theorem mem_of_mem_signal (h : t ∈ c.signal w) : t ∈ c := (signal_sublist c w).subset h

theorem length_signal (c : CondVar T) (w : T) : (c.signal w).length = c.length - 1 := by
  unfold signal
  split
  · next h => exact List.length_erase_of_mem h
  · exact List.length_tail

theorem stir_sublist (c : CondVar T) (t : T) : List.Sublist (c.stir t) c := List.erase_sublist

theorem mem_of_mem_stir (h : t ∈ c.stir w) : t ∈ c := (stir_sublist c w).subset h

theorem length_stir_le (c : CondVar T) (t : T) : (c.stir t).length ≤ c.length :=
  (stir_sublist c t).length_le

theorem ne_nil_of_signal (h : c.signal w ≠ []) : c ≠ [] := by
  intro hnil
  have hsub := signal_sublist c w
  rw [hnil] at hsub h
  exact h (List.sublist_nil.mp hsub)

theorem ne_nil_of_stir (h : c.stir t ≠ []) : c ≠ [] := by
  intro hnil
  have hsub := stir_sublist c t
  rw [hnil] at hsub h
  exact h (List.sublist_nil.mp hsub)

/-- Where at most one thread waits, a signal leaves none. -/
theorem signal_eq_nil (h : c.length ≤ 1) (w : T) : c.signal w = [] := by
  apply List.eq_nil_of_length_eq_zero
  rw [length_signal]
  omega

end CondVar

end Effect
