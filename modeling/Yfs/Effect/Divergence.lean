import Yfs.Effect.Hoare

/-! Two programs that go the same way up to a command that an observer sees differ. -/
namespace Effect

variable {C S O α β β' σ : Type} {R : C → Type}

namespace Program

variable (exec : (c : C) → S → R c × S) (obs : C → Option O)

/-- What the observer sees of a program that runs alone. -/
def observed (p : Program C R α) (s : S) : List O := (p.trace exec s).filterMap obs

/-- The observations of two programs part at one command, before which they agree. -/
def Diverge (p : Program C R α) (p' : Program C R β) (s : S) : Prop :=
  ∃ pre x x' post post', p.observed exec obs s = pre ++ x :: post ∧
    p'.observed exec obs s = pre ++ x' :: post' ∧ x ≠ x'

theorem Diverge.observed_ne {p : Program C R α} {p' : Program C R β} {s : S}
    (h : Diverge exec obs p p' s) : p.observed exec obs s ≠ p'.observed exec obs s := by
  obtain ⟨pre, x, x', post, post', hp, hp', hne⟩ := h
  intro he
  rw [hp, hp'] at he
  simp only [List.append_cancel_left_eq, List.cons.injEq] at he
  exact hne he.1

theorem observed_bind (p : Program C R α) (f : α → Program C R β) (s : S) :
    (p >>= f : Program C R β).observed exec obs s =
      p.observed exec obs s ++
        (f (p.run exec s).1).observed exec obs (p.run exec s).2 := by
  simp only [observed, trace_bind, List.filterMap_append]

theorem observed_call {c : C} {k : R c → Program C R α} {x : O} {s : S} (h : obs c = some x) :
    (Program.call c k).observed exec obs s =
      x :: (k (exec c s).1).observed exec obs (exec c s).2 := by
  simp only [observed, trace, List.filterMap_cons, h]

theorem diverge_call {c c' : C} {k : R c → Program C R α} {k' : R c' → Program C R β}
    {x x' : O} {s : S} (hc : obs c = some x) (hc' : obs c' = some x') (hne : x ≠ x') :
    Diverge exec obs (.call c k) (.call c' k') s :=
  ⟨[], x, x', _, _, observed_call exec obs hc, observed_call exec obs hc', hne⟩

/-- Programs that have parted stay apart, whatever follows. -/
theorem Diverge.bind {p : Program C R α} {p' : Program C R β} {f : α → Program C R σ}
    {f' : β → Program C R β'} {s : S} (h : Diverge exec obs p p' s) :
    Diverge exec obs (p >>= f) (p' >>= f') s := by
  obtain ⟨pre, x, x', post, post', hp, hp', hne⟩ := h
  have hrest := observed_bind exec obs p f s
  have hrest' := observed_bind exec obs p' f' s
  rw [hp, List.append_assoc, List.cons_append] at hrest
  rw [hp', List.append_assoc, List.cons_append] at hrest'
  exact ⟨pre, x, x', _, _, hrest, hrest', hne⟩

/-- Run the common part to what it is known to establish; the rest parts. -/
theorem diverge_seq {p : Program C R α} {f : α → Program C R β} {f' : α → Program C R β'}
    {P : α → S → Prop} {s : S} (hp : p.wlp exec (fun _ _ => True) P s)
    (hf : ∀ a t, P a t → Diverge exec obs (f a) (f' a) t) :
    Diverge exec obs (p >>= f) (p >>= f') s := by
  obtain ⟨pre, x, x', post, post', h, h', hne⟩ := hf _ _ (hp (always_true exec p s))
  refine ⟨p.observed exec obs s ++ pre, x, x', post, post', ?_, ?_, hne⟩
  · rw [observed_bind, h, List.append_assoc]
  · rw [observed_bind, h', List.append_assoc]

theorem loop_congr {body body' : ℕ → σ → Program C R (ForInStep σ)} {rem i : ℕ} (x : σ)
    (h : ∀ j x, j < i + rem → body j x = body' j x) :
    loop body rem i x = loop body' rem i x := by
  induction rem generalizing i x with
  | zero => rfl
  | succ rem ih =>
    rw [loop, loop, h i x (by omega)]
    congr
    funext r
    cases r with
    | done y => rfl
    | yield y => exact ih y fun j x hj => h j x (by omega)

/-- Two loops that make the same rounds before round `k` and part in it. -/
theorem diverge_loop {body body' : ℕ → σ → Program C R (ForInStep σ)} (I : ℕ → σ → S → Prop)
    {k rem i : ℕ} {x : σ} {s : S} (h0 : I i x s) (hik : i ≤ k) (hk : k < i + rem)
    (hsame : ∀ j x, j < k → body j x = body' j x)
    (hstep : ∀ j x s, i ≤ j → j < k → I j x s →
      (body j x).wlp exec (fun _ _ => True) (Round (I (j + 1)) fun _ _ => False) s)
    (hpart : ∀ x s, I k x s → Diverge exec obs (body k x) (body' k x) s) :
    Diverge exec obs (loop body rem i x) (loop body' rem i x) s := by
  induction rem generalizing i x s with
  | zero => omega
  | succ rem ih =>
    obtain rfl | hlt := Nat.eq_or_lt_of_le hik
    · exact (hpart x s h0).bind
    · simp only [loop, ← hsame i x hlt]
      apply diverge_seq exec obs (hstep i x s (Nat.le_refl i) hlt h0)
      intro r t hr
      cases r with
      | done y => exact hr.elim
      | yield y =>
        apply ih hr hlt (by omega)
        exact fun j x s hj => hstep j x s (by omega)

end Program

end Effect
