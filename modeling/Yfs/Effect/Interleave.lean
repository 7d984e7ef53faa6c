import Yfs.Effect.Resource
import Mathlib.Order.Basic

/-! Threads that share a state and take turns, one command at a time. -/
namespace Effect

variable {C S L ι α : Type} {R : C → Type} [DecidableEq ι]

section Run

variable (exec : (c : C) → S → R c × S)

/-- Thread `t` issues its next command; a finished thread does nothing. -/
def tick (t : ι) (x : (ι → Program C R α) × S) : (ι → Program C R α) × S :=
  match x.1 t with
  | .pure _ => x
  | .call c k => (Function.update x.1 t (k (exec c x.2).1), (exec c x.2).2)

theorem tick_pure {t : ι} {x : (ι → Program C R α) × S} {a : α} (h : x.1 t = .pure a) :
    tick exec t x = x := by
  rw [tick, h]

theorem tick_call {t : ι} {x : (ι → Program C R α) × S} {c : C} {k : R c → Program C R α}
    (h : x.1 t = .call c k) :
    tick exec t x = (Function.update x.1 t (k (exec c x.2).1), (exec c x.2).2) := by
  rw [tick, h]

/-- The threads and the state after the turns listed in a schedule. -/
def interleave (turns : List ι) (x : (ι → Program C R α) × S) : (ι → Program C R α) × S :=
  turns.foldl (fun x t => tick exec t x) x

/-- Every command issued under the schedule meets `Pre`, and is compatible with the
command each other unfinished thread is about to issue. -/
def Admits (Compat : C → C → Prop) (Pre : C → S → Prop) :
    List ι → (ι → Program C R α) × S → Prop
  | [], _ => True
  | t :: turns, x =>
    (∀ c, (x.1 t).pending = some c →
      Pre c x.2 ∧ ∀ u c', u ≠ t → (x.1 u).pending = some c' → Compat c c') ∧
    Admits Compat Pre turns (tick exec t x)

/-- Every thread has run to its end. -/
def Finished (ps : ι → Program C R α) : Prop := ∀ t, (ps t).pending = none

end Run

section Sound

variable {exec : (c : C) → S → R c × S} {rule : ι → L → (c : C) → (R c → L → Prop) → Prop}
  {Valid : (ι → L) → S → Prop} {Idle : L → Prop} {Compat : C → C → Prop}
  {Pre : C → S → Prop}

/-- What a thread owes the others at any moment, read off its own specification. -/
theorem idle_or_pending {rule : L → (c : C) → (R c → L → Prop) → Prop} {p : Program C R α}
    {Q : α → L → Prop} {l : L} (h : p.wp rule Q l) (hq : ∀ a l, Q a l → Idle l) :
    Idle l ∨ ∃ c post, p.pending = some c ∧ rule l c post := by
  cases p with
  | pure a => exact Or.inl (hq a l h)
  | call c k =>
    obtain ⟨post, hr, -⟩ := h
    exact Or.inr ⟨c, post, rfl, hr⟩

/-- One turn of one thread keeps every thread at its specification. -/
theorem Sound.after_tick (hs : Sound exec rule Valid Idle Compat Pre)
    {Q : ι → α → L → Prop} (hq : ∀ t a l, Q t a l → Idle l) {ls : ι → L} {t : ι}
    {x : (ι → Program C R α) × S} (hwp : ∀ t, (x.1 t).wp (rule t) (Q t) (ls t))
    (hv : Valid ls x.2)
    (hok : ∀ c, (x.1 t).pending = some c →
      Pre c x.2 ∧ ∀ u c', u ≠ t → (x.1 u).pending = some c' → Compat c c') :
    ∃ ls', (∀ u, ((tick exec t x).1 u).wp (rule u) (Q u) (ls' u)) ∧
      Valid ls' (tick exec t x).2 := by
  cases hp : x.1 t with
  | pure a => exact ⟨ls, by rw [tick_pure exec hp]; exact ⟨hwp, hv⟩⟩
  | call c k =>
    obtain ⟨hpre, hcompat⟩ := hok c (by rw [hp]; rfl)
    obtain ⟨post, hr, hk⟩ : (Program.call c k).wp (rule t) (Q t) (ls t) := hp ▸ hwp t
    have hothers : ∀ u, u ≠ t →
        Idle (ls u) ∨ ∃ c' post', rule u (ls u) c' post' ∧ Compat c c' := fun u hu => by
      rcases idle_or_pending (hwp u) (hq u) with hi | ⟨c', post', hc', hr'⟩
      · exact Or.inl hi
      · exact Or.inr ⟨c', post', hr', hcompat u c' hu hc'⟩
    obtain ⟨l', hpost, hv'⟩ := hs.step hv hr hothers hpre
    rw [tick_call exec hp]
    refine ⟨Function.update ls t l', fun u => ?_, hv'⟩
    change ((Function.update x.1 t (k (exec c x.2).1)) u).wp (rule u) (Q u) _
    obtain rfl | hu := eq_or_ne u t
    · rw [Function.update_self, Function.update_self]
      exact hk _ _ hpost
    · rw [Function.update_of_ne hu, Function.update_of_ne hu]
      exact hwp u

/-- Under an admitted schedule every thread stays at its specification, so that once
all have finished each has done what it was specified to do. -/
theorem Sound.after_turns (hs : Sound exec rule Valid Idle Compat Pre)
    {Q : ι → α → L → Prop} (hq : ∀ t a l, Q t a l → Idle l) {ls : ι → L}
    {turns : List ι} {x : (ι → Program C R α) × S}
    (hwp : ∀ t, (x.1 t).wp (rule t) (Q t) (ls t)) (hv : Valid ls x.2)
    (hok : Admits exec Compat Pre turns x) :
    ∃ ls', (∀ t, ((interleave exec turns x).1 t).wp (rule t) (Q t) (ls' t)) ∧
      Valid ls' (interleave exec turns x).2 := by
  induction turns generalizing x ls with
  | nil => exact ⟨ls, hwp, hv⟩
  | cons t turns ih =>
    obtain ⟨ls', hwp', hv'⟩ := hs.after_tick hq hwp hv hok.1
    exact ih hwp' hv' hok.2

end Sound

end Effect
