import Yfs.Effect.Program

/-! A program logic in which a thread sees only the resource it owns. `rule l c post`
lets the owner of `l` issue `c` and promises a reply `r` and a new resource `l'`
with `post r l'`. What other threads do between two commands never shows in a
proof; `Sound` is what the rules owe to the shared state for that to be right. -/
namespace Effect

variable {C S L ι α β σ : Type} {R : C → Type}

namespace Program

section Rules

variable (rule : L → (c : C) → (R c → L → Prop) → Prop)

/-- From the resource `l` the program only issues commands its rules allow, and ends
with a result and a resource that satisfy `Q`. -/
def wp : Program C R α → (α → L → Prop) → L → Prop
  | .pure a, Q, l => Q a l
  | .call c k, Q, l => ∃ post, rule l c post ∧ ∀ r l', post r l' → (k r).wp Q l'

@[simp] theorem wp_pure (a : α) (Q : α → L → Prop) (l : L) :
    (Program.pure a : Program C R α).wp rule Q l ↔ Q a l := Iff.rfl

theorem wp_mono {p : Program C R α} {Q Q' : α → L → Prop} {l : L} (h : p.wp rule Q l)
    (hq : ∀ a l, Q a l → Q' a l) : p.wp rule Q' l := by
  induction p generalizing l with
  | pure a => exact hq a l h
  | call c k ih =>
    obtain ⟨post, hr, hk⟩ := h
    exact ⟨post, hr, fun r l' hp => ih r (hk r l' hp)⟩

theorem wp_bind {p : Program C R α} {f : α → Program C R β} {Q : β → L → Prop} {l : L}
    (h : p.wp rule (fun a l' => (f a).wp rule Q l') l) :
    (p >>= f : Program C R β).wp rule Q l := by
  induction p generalizing l with
  | pure a => exact h
  | call c k ih =>
    obtain ⟨post, hr, hk⟩ := h
    exact ⟨post, hr, fun r l' hp => ih r (hk r l' hp)⟩

/-- Run `p` under a specification of its own, then continue from what that promises. -/
theorem wp_seq {p : Program C R α} {f : α → Program C R β} {P : α → L → Prop}
    {Q : β → L → Prop} {l : L} (hp : p.wp rule P l)
    (hf : ∀ a l', P a l' → (f a).wp rule Q l') : (p >>= f : Program C R β).wp rule Q l :=
  wp_bind rule (wp_mono rule hp hf)

/-- The invariant rule of `loop`. -/
theorem wp_loop {body : ℕ → σ → Program C R (ForInStep σ)} (I : ℕ → σ → L → Prop)
    {Q : σ → L → Prop} {rem i : ℕ} {x : σ} {l : L} (h0 : I i x l)
    (hstep : ∀ j x l, i ≤ j → j < i + rem → I j x l →
      (body j x).wp rule (Round (I (j + 1)) Q) l)
    (hend : ∀ x l, I (i + rem) x l → Q x l) : (loop body rem i x).wp rule Q l := by
  induction rem generalizing i x l with
  | zero => exact hend x l h0
  | succ rem ih =>
    refine wp_seq rule (hstep i x l (Nat.le_refl i) (by omega) h0) ?_
    rintro (y | y) l' hy
    · exact hy
    · refine ih hy (fun j x l hj hlt => hstep j x l (by omega) (by omega)) ?_
      rw [show i + 1 + rem = i + (rem + 1) by omega]
      exact hend

end Rules

end Program

variable [DecidableEq ι]

/-- The rules are right about the shared state: while every thread `u` owns `ls u`, a
command allowed to `t` does what its rule promises. Of the other threads it may be
assumed that each is idle or about to issue a command that `Compat` permits. -/
structure Sound (exec : (c : C) → S → R c × S)
    (rule : ι → L → (c : C) → (R c → L → Prop) → Prop) (Valid : (ι → L) → S → Prop)
    (Idle : L → Prop) (Compat : C → C → Prop) (Pre : C → S → Prop) : Prop where
  step : ∀ {ls : ι → L} {s : S} {t : ι} {c : C} {post : R c → L → Prop},
    Valid ls s → rule t (ls t) c post →
    (∀ u, u ≠ t → Idle (ls u) ∨ ∃ c' post', rule u (ls u) c' post' ∧ Compat c c') →
    Pre c s →
    ∃ l', post (exec c s).1 l' ∧ Valid (Function.update ls t l') (exec c s).2

section Alone

variable {exec : (c : C) → S → R c × S} {rule : ι → L → (c : C) → (R c → L → Prop) → Prop}
  {Valid : (ι → L) → S → Prop} {Idle : L → Prop} {Compat : C → C → Prop}
  {Pre : C → S → Prop}

/-- A program that runs alone does what its specification says, and the resources of
all others are as they were. -/
theorem Sound.run (hs : Sound exec rule Valid Idle Compat Pre) {p : Program C R α}
    {Q : α → L → Prop} {ls : ι → L} {s : S} {t : ι} (hwp : p.wp (rule t) Q (ls t))
    (hv : Valid ls s) (hidle : ∀ u, u ≠ t → Idle (ls u)) (hpre : p.Always exec Pre s) :
    ∃ l', Q (p.run exec s).1 l' ∧ Valid (Function.update ls t l') (p.run exec s).2 := by
  induction p generalizing ls s with
  | pure a => exact ⟨ls t, hwp, by rwa [Function.update_eq_self]⟩
  | call c k ih =>
    obtain ⟨post, hr, hk⟩ := hwp
    obtain ⟨l', hp, hv'⟩ := hs.step hv hr (fun u hu => Or.inl (hidle u hu)) hpre.1
    have hk' : (k (exec c s).1).wp (rule t) Q (Function.update ls t l' t) := by
      rw [Function.update_self]
      exact hk _ _ hp
    have hidle' : ∀ u, u ≠ t → Idle (Function.update ls t l' u) := fun u hu => by
      rw [Function.update_of_ne hu]
      exact hidle u hu
    obtain ⟨l'', hq, hv''⟩ := ih (exec c s).1 hk' hv' hidle' hpre.2
    exact ⟨l'', hq, by rwa [Function.update_idem] at hv''⟩

/-- Where the rules promise what a command needs, nothing has to be assumed of a run. -/
theorem Sound.always (hs : Sound exec rule Valid Idle Compat Pre)
    (hpre : ∀ {ls : ι → L} {s : S} {t : ι} {c : C} {post : R c → L → Prop},
      Valid ls s → rule t (ls t) c post → Pre c s)
    {p : Program C R α} {Q : α → L → Prop} {ls : ι → L} {s : S} {t : ι}
    (hwp : p.wp (rule t) Q (ls t)) (hv : Valid ls s) (hidle : ∀ u, u ≠ t → Idle (ls u)) :
    p.Always exec Pre s := by
  induction p generalizing ls s with
  | pure a => trivial
  | call c k ih =>
    obtain ⟨post, hr, hk⟩ := hwp
    have hc := hpre hv hr
    obtain ⟨l', hp, hv'⟩ := hs.step hv hr (fun u hu => Or.inl (hidle u hu)) hc
    have hk' : (k (exec c s).1).wp (rule t) Q (Function.update ls t l' t) := by
      rw [Function.update_self]
      exact hk _ _ hp
    refine ⟨hc, ih _ hk' hv' fun u hu => ?_⟩
    rw [Function.update_of_ne hu]
    exact hidle u hu

end Alone

end Effect
