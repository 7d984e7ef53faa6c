import Mathlib.Order.Defs.LinearOrder
import Mathlib.Order.Basic
import Mathlib.Data.Prod.Lex
import Mathlib.Data.List.Lex

/-! Ordered maps, as the list of their entries with the keys going up. -/
namespace Effect

structure SortedMap (κ ν : Type) [LinearOrder κ] where
  entries : List (κ × ν)
  sorted : entries.Pairwise fun a b => a.1 < b.1

namespace SortedMap
variable {κ ν : Type} [LinearOrder κ] {k : κ} {v : ν} {l : List (κ × ν)}

@[ext] theorem ext {d d' : SortedMap κ ν} (h : d.entries = d'.entries) : d = d' := by
  cases d
  cases d'
  cases h
  rfl

def empty : SortedMap κ ν := ⟨[], List.Pairwise.nil⟩

/-- The entry of the key is put in where it belongs, or replaced. -/
def place (k : κ) (v : ν) : List (κ × ν) → List (κ × ν)
  | [] => [(k, v)]
  | e :: l => if k < e.1 then (k, v) :: e :: l else if k = e.1 then (k, v) :: l else e :: place k v l

theorem mem_place {e : κ × ν} (h : e ∈ place k v l) : e = (k, v) ∨ e ∈ l := by
  induction l with
  | nil => exact Or.inl (List.mem_singleton.mp h)
  | cons x l ih =>
    unfold place at h
    split_ifs at h with hlt heq
    · exact List.mem_cons.mp h
    · obtain h | h := List.mem_cons.mp h
      · exact Or.inl h
      · exact Or.inr (List.mem_cons_of_mem x h)
    · obtain h | h := List.mem_cons.mp h
      · exact Or.inr (h ▸ List.mem_cons_self)
      · exact (ih h).imp_right (List.mem_cons_of_mem x)

theorem sorted_place (h : l.Pairwise fun a b => a.1 < b.1) :
    (place k v l).Pairwise fun a b => a.1 < b.1 := by
  induction l with
  | nil => exact List.pairwise_singleton _ _
  | cons x l ih =>
    obtain ⟨hx, hl⟩ := List.pairwise_cons.mp h
    unfold place
    split_ifs with hlt heq
    · apply List.pairwise_cons.mpr
      constructor
      · intro e he
        obtain rfl | he := List.mem_cons.mp he
        · exact hlt
        · exact hlt.trans (hx e he)
      · exact h
    · exact List.pairwise_cons.mpr ⟨fun e he => heq ▸ hx e he, hl⟩
    · apply List.pairwise_cons.mpr
      constructor
      · intro e he
        obtain rfl | he := mem_place he
        · exact lt_of_le_of_ne (not_lt.mp hlt) (Ne.symm heq)
        · exact hx e he
      · exact ih hl

/-- `d[k] = v` -/
def assign (d : SortedMap κ ν) (k : κ) (v : ν) : SortedMap κ ν :=
  ⟨place k v d.entries, sorted_place d.sorted⟩

/-- A key above all others goes to the end. -/
theorem place_last (h : ∀ e ∈ l, e.1 < k) : place k v l = l ++ [(k, v)] := by
  induction l with
  | nil => rfl
  | cons x l ih =>
    have hx := h x List.mem_cons_self
    unfold place
    rw [if_neg hx.not_gt, if_neg hx.ne', ih fun e he => h e (List.mem_cons_of_mem x he)]
    rfl

theorem foldl_assign (d : SortedMap κ ν) (hd : (d.entries ++ l).Pairwise fun a b => a.1 < b.1) :
    (l.foldl (fun d e => d.assign e.1 e.2) d).entries = d.entries ++ l := by
  induction l generalizing d with
  | nil => simp
  | cons x l ih =>
    have hlast : (d.assign x.1 x.2).entries = d.entries ++ [x] :=
      place_last fun e he => (List.pairwise_append.mp hd).2.2 e he x List.mem_cons_self
    have hassoc : d.entries ++ x :: l = (d.assign x.1 x.2).entries ++ l := by simp [hlast]
    rw [List.foldl_cons, ih (d.assign x.1 x.2) (hassoc ▸ hd), ← hassoc]

/-- Putting in the entries of a map one after the other gives the map. -/
theorem foldl_entries (d : SortedMap κ ν) :
    d.entries.foldl (fun d e => d.assign e.1 e.2) empty = d := by
  apply ext
  rw [foldl_assign empty (by simpa [empty] using d.sorted)]
  rfl

/-- What the map has for a key. -/
def find (k : κ) (d : SortedMap κ ν) : Option ν :=
  (d.entries.find? fun e => e.1 = k).map Prod.snd

/-- How many keys have such a value. -/
def count (p : ν → Bool) (d : SortedMap κ ν) : ℕ := d.entries.countP fun e => p e.2

@[simp] theorem count_empty (p : ν → Bool) : (empty : SortedMap κ ν).count p = 0 := rfl

theorem find?_place (k' : κ) :
    (place k v l).find? (fun e => e.1 = k') =
      if k = k' then some (k, v) else l.find? fun e => e.1 = k' := by
  induction l with
  | nil => by_cases h : k = k' <;> simp [place, h]
  | cons x l ih =>
    unfold place
    by_cases hlt : k < x.1
    · rw [if_pos hlt]
      by_cases hk : k = k' <;> simp [hk]
    · rw [if_neg hlt]
      by_cases heq : k = x.1
      · rw [if_pos heq]
        by_cases hk : k = k' <;> simp [← heq, hk]
      · rw [if_neg heq, List.find?_cons, List.find?_cons, ih]
        by_cases hk : k = k'
        · have hx : x.1 ≠ k' := fun h => heq (hk.trans h.symm)
          simp [hx, hk]
        · simp [hk]

theorem find_assign (d : SortedMap κ ν) (k k' : κ) (v : ν) :
    (d.assign k v).find k' = if k = k' then some v else d.find k' := by
  unfold find assign
  dsimp only
  rw [find?_place]
  split_ifs
  · rfl
  · rfl

theorem find?_of_lt (h : ∀ e ∈ l, k < e.1) : l.find? (fun e => e.1 = k) = none := by
  apply List.find?_eq_none.mpr
  intro e he
  simpa using (h e he).ne'

theorem countP_place (p : ν → Bool) (h : l.Pairwise fun a b => a.1 < b.1) :
    (place k v l).countP (fun e => p e.2) +
        (((l.find? fun e => e.1 = k).map Prod.snd).elim 0 fun w => (p w).toNat) =
      l.countP (fun e => p e.2) + (p v).toNat := by
  have hcons : ∀ (e : κ × ν) (l : List (κ × ν)), (e :: l).countP (fun e => p e.2) =
      l.countP (fun e => p e.2) + (p e.2).toNat := by
    intro e l
    rw [List.countP_cons]
    cases p e.2 <;> rfl
  induction l with
  | nil =>
    unfold place
    rw [hcons]
    rfl
  | cons x l ih =>
    obtain ⟨hx, hl⟩ := List.pairwise_cons.mp h
    unfold place
    split_ifs with hlt heq
    · have hnone : (x :: l).find? (fun e => e.1 = k) = none := find?_of_lt fun e he => by
        obtain rfl | he := List.mem_cons.mp he
        · exact hlt
        · exact hlt.trans (hx e he)
      rw [hnone, hcons]
      rfl
    · rw [hcons, hcons, List.find?_cons_of_pos (by simpa using heq.symm)]
      exact Nat.add_right_comm _ _ _
    · have hi := ih hl
      rw [hcons, hcons, List.find?_cons_of_neg (by simpa using Ne.symm heq)]
      omega

/-- Assigning takes the old value out of the count and puts the new one in. -/
theorem count_assign (p : ν → Bool) (d : SortedMap κ ν) (k : κ) (v : ν) :
    (d.assign k v).count p + ((d.find k).elim 0 fun w => (p w).toNat) =
      d.count p + (p v).toNat :=
  countP_place p d.sorted

/-- Maps are compared entry by entry. -/
instance [LinearOrder ν] : LinearOrder (SortedMap κ ν) :=
  LinearOrder.lift' (fun d => d.entries.map fun e => toLex e) fun d d' h => by
    have hinj : Function.Injective fun e : κ × ν => toLex e := fun _ _ h => h
    exact ext (List.map_injective_iff.mpr hinj h)

end SortedMap

end Effect
