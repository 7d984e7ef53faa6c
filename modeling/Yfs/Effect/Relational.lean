import Yfs.Effect.Hoare

/-! Two programs run side by side: when they issue commands that look alike, and what
then relates the states that they leave. -/
namespace Effect

variable {C S O α α' β β' σ σ' : Type} {R : C → Type}

namespace Program

/-- If every command of `p` meets the assumption `A`, then the commands of `p` and `p'`
look alike to `obs`, and the two programs end in `Q`. -/
def Lockstep (exec : (c : C) → S → R c × S) (A : C → S → Prop) (obs : C → O)
    (p : Program C R α) (p' : Program C R α') (Q : α → α' → S → S → Prop) (s s' : S) : Prop :=
  p.Always exec A s → (p.trace exec s).map obs = (p'.trace exec s').map obs ∧
    Q (p.run exec s).1 (p'.run exec s').1 (p.run exec s).2 (p'.run exec s').2

variable (exec : (c : C) → S → R c × S) {A : C → S → Prop} {obs : C → O}

theorem lockstep_pure {a : α} {a' : α'} {Q : α → α' → S → S → Prop} {s s' : S}
    (h : Q a a' s s') :
    (Program.pure a : Program C R α).Lockstep exec A obs (Program.pure a') Q s s' :=
  fun _ => ⟨rfl, h⟩

theorem lockstep_mono {p : Program C R α} {p' : Program C R α'}
    {Q Q' : α → α' → S → S → Prop} {s s' : S} (h : p.Lockstep exec A obs p' Q s s')
    (hq : ∀ a a' t t', Q a a' t t' → Q' a a' t t') : p.Lockstep exec A obs p' Q' s s' := by
  intro ha
  obtain ⟨ht, h⟩ := h ha
  exact ⟨ht, hq _ _ _ _ h⟩

theorem lockstep_bind {p : Program C R α} {p' : Program C R α'} {f : α → Program C R β}
    {f' : α' → Program C R β'} {Q : β → β' → S → S → Prop} {s s' : S}
    (h : p.Lockstep exec A obs p'
      (fun a a' t t' => (f a).Lockstep exec A obs (f' a') Q t t') s s') :
    (p >>= f : Program C R β).Lockstep exec A obs (p' >>= f') Q s s' := by
  intro ha
  rw [always_bind] at ha
  obtain ⟨ht, hf⟩ := h ha.1
  obtain ⟨ht', hq⟩ := hf ha.2
  rw [run_bind, run_bind, trace_bind, trace_bind, List.map_append, List.map_append, ht, ht']
  exact ⟨rfl, hq⟩

/-- Run both programs to what they are known to establish, then go on from there. -/
theorem lockstep_seq {p : Program C R α} {p' : Program C R α'} {f : α → Program C R β}
    {f' : α' → Program C R β'} {P : α → α' → S → S → Prop} {Q : β → β' → S → S → Prop}
    {s s' : S} (hp : p.Lockstep exec A obs p' P s s')
    (hf : ∀ a a' t t', P a a' t t' → (f a).Lockstep exec A obs (f' a') Q t t') :
    (p >>= f : Program C R β).Lockstep exec A obs (p' >>= f') Q s s' :=
  lockstep_bind exec (lockstep_mono exec hp hf)

/-- What one round of two loops promises: both go on with `I`, or both are left with `Q`. -/
def Rounds {L : Type} (I Q : σ → σ' → L → L → Prop) :
    ForInStep σ → ForInStep σ' → L → L → Prop
  | .yield x, .yield x' => I x x'
  | .done x, .done x' => Q x x'
  | _, _ => fun _ _ => False

/-- The invariant rule of two loops that go round together. -/
theorem lockstep_loop {body : ℕ → σ → Program C R (ForInStep σ)}
    {body' : ℕ → σ' → Program C R (ForInStep σ')} (I : ℕ → σ → σ' → S → S → Prop)
    {Q : σ → σ' → S → S → Prop} {rem i : ℕ} {x : σ} {x' : σ'} {s s' : S} (h0 : I i x x' s s')
    (hstep : ∀ j x x' s s', i ≤ j → j < i + rem → I j x x' s s' →
      (body j x).Lockstep exec A obs (body' j x') (Rounds (I (j + 1)) Q) s s')
    (hend : ∀ x x' s s', I (i + rem) x x' s s' → Q x x' s s') :
    (loop body rem i x).Lockstep exec A obs (loop body' rem i x') Q s s' := by
  induction rem generalizing i x x' s s' with
  | zero => exact fun _ => ⟨rfl, hend x x' s s' h0⟩
  | succ rem ih =>
    refine lockstep_seq exec (hstep i x x' s s' (Nat.le_refl i) (by omega) h0) ?_
    intro r r' t t' hr
    cases r with
    | done y =>
      cases r' with
      | done y' => exact fun _ => ⟨rfl, hr⟩
      | yield y' => exact hr.elim
    | yield y =>
      cases r' with
      | done y' => exact hr.elim
      | yield y' =>
        refine ih hr ?_ ?_
        · exact fun j x x' s s' hj hlt => hstep j x x' s s' (by omega) (by omega)
        · rw [show i + 1 + rem = i + (rem + 1) by omega]
          exact hend

end Program

end Effect
