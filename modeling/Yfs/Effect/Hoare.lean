import Yfs.Effect.Program

/-! Sequential reasoning: what a program that runs alone leaves behind, and what a row
of steps preserves. -/
namespace Effect

variable {C S α β σ ι : Type} {R : C → Type}

namespace Program

variable (exec : (c : C) → S → R c × S) {A : C → S → Prop}

/-- If every command of `p` meets the assumption `A`, then `p` run alone ends in `Q`. -/
def wlp (A : C → S → Prop) (p : Program C R α) (Q : α → S → Prop) (s : S) : Prop :=
  p.Always exec A s → Q (p.run exec s).1 (p.run exec s).2

theorem wlp_pure {a : α} {Q : α → S → Prop} {s : S} (h : Q a s) :
    (Program.pure a : Program C R α).wlp exec A Q s := fun _ => h

theorem wlp_mono {p : Program C R α} {Q Q' : α → S → Prop} {s : S} (h : p.wlp exec A Q s)
    (hq : ∀ a s', Q a s' → Q' a s') : p.wlp exec A Q' s := fun ha => hq _ _ (h ha)

theorem wlp_bind {p : Program C R α} {f : α → Program C R β} {Q : β → S → Prop} {s : S}
    (h : p.wlp exec A (fun a s' => (f a).wlp exec A Q s') s) :
    (p >>= f : Program C R β).wlp exec A Q s := by
  intro ha
  rw [always_bind] at ha
  rw [run_bind]
  exact h ha.1 ha.2

/-- Run `p` to what it is known to establish, then go on from there. -/
theorem wlp_seq {p : Program C R α} {f : α → Program C R β} {P : α → S → Prop}
    {Q : β → S → Prop} {s : S} (hp : p.wlp exec A P s)
    (hf : ∀ a s', P a s' → (f a).wlp exec A Q s') :
    (p >>= f : Program C R β).wlp exec A Q s :=
  wlp_bind exec (wlp_mono exec hp hf)

/-- The invariant rule of `loop`. -/
theorem wlp_loop {body : ℕ → σ → Program C R (ForInStep σ)} (I : ℕ → σ → S → Prop)
    {Q : σ → S → Prop} {rem i : ℕ} {x : σ} {s : S} (h0 : I i x s)
    (hstep : ∀ j x s, i ≤ j → j < i + rem → I j x s →
      (body j x).wlp exec A (Round (I (j + 1)) Q) s)
    (hend : ∀ x s, I (i + rem) x s → Q x s) : (loop body rem i x).wlp exec A Q s := by
  induction rem generalizing i x s with
  | zero => exact fun _ => hend x s h0
  | succ rem ih =>
    refine wlp_seq exec (hstep i x s (Nat.le_refl i) (by omega) h0) ?_
    intro r s' hr
    cases r with
    | done y => exact fun _ => hr
    | yield y =>
      refine ih hr ?_ ?_
      · exact fun j x s hj hlt => hstep j x s (by omega) (by omega)
      · rw [show i + 1 + rem = i + (rem + 1) by omega]
        exact hend

end Program

section Steps

variable (step : ι → S → S)

/-- `P` holds of every step of a row and the state in which it is made. -/
def EachStep (P : ι → S → Prop) : List ι → S → Prop
  | [], _ => True
  | x :: xs, s => P x s ∧ EachStep P xs (step x s)

theorem EachStep.append {P : ι → S → Prop} {xs ys : List ι} {s : S} :
    EachStep step P (xs ++ ys) s ↔
      EachStep step P xs s ∧ EachStep step P ys (xs.foldl (fun s x => step x s) s) := by
  induction xs generalizing s with
  | nil => exact (iff_of_eq (true_and _)).symm
  | cons x xs ih => exact (and_congr_right fun _ => ih).trans and_assoc.symm

/-- What every step keeps holds after a row of steps. -/
theorem EachStep.invariant {P : ι → S → Prop} {I : S → Prop}
    (hstep : ∀ x s, I s → P x s → I (step x s)) {xs : List ι} {s : S} (h0 : I s)
    (hp : EachStep step P xs s) : I (xs.foldl (fun s x => step x s) s) := by
  induction xs generalizing s with
  | nil => exact h0
  | cons x xs ih => exact ih (hstep x s h0 hp.1) hp.2

end Steps

end Effect
