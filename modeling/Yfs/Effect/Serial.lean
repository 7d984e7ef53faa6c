import Yfs.Effect.Program

/-! What is left of a program while others come between its commands, and rows of operations that
are done one after the other. -/
namespace Effect

variable {C α β : Type} {R : C → Type}

namespace Program

/-- Some replies to its first commands leave this of a program. -/
inductive Left (p : Program C R α) : Program C R α → Prop where
  | refl : Left p p
  | reply {c : C} {k : R c → Program C R α} (h : Left p (.call c k)) (r : R c) : Left p (k r)

/-- Some replies lead to this result. -/
def Ends (p : Program C R α) (a : α) : Prop := Left p (.pure a)

theorem Left.of_pure {a : α} {q : Program C R α} (h : Left (.pure a) q) : q = .pure a := by
  induction h with
  | refl => rfl
  | reply _ _ ih => cases ih

theorem Left.bind_pure {f : α → β} {p : Program C R α} {q : Program C R β}
    (h : Left (p >>= fun a => .pure (f a)) q) :
    ∃ p', Left p p' ∧ q = (p' >>= fun a => .pure (f a) : Program C R β) := by
  induction h with
  | refl => exact ⟨p, .refl, rfl⟩
  | @reply c k _ r ih =>
    obtain ⟨p', hp, hq⟩ := ih
    cases p' with
    | pure a => cases hq
    | call c' k' =>
      rw [call_bind] at hq
      cases hq
      exact ⟨k' r, hp.reply r, rfl⟩

/-- A result that is made of the result of a program. -/
theorem Ends.of_bind_pure {f : α → β} {p : Program C R α} {b : β}
    (h : Ends (p >>= fun a => .pure (f a)) b) : ∃ a, p.Ends a ∧ b = f a := by
  obtain ⟨p', hp, hq⟩ := Left.bind_pure h
  cases p' with
  | pure a =>
    cases hq
    exact ⟨a, hp, rfl⟩
  | call c k => cases hq

end Program

section Serial

variable {A O V : Type}

/-- The operations of a row with their results, each done where the one before has left off. -/
inductive Serial (spec : A → O → V → A → Prop) (a₀ : A) : List (O × V) → A → Prop where
  | nil : Serial spec a₀ [] a₀
  | snoc {log : List (O × V)} {a a' : A} {o : O} {v : V} (h : Serial spec a₀ log a)
    (hs : spec a o v a') : Serial spec a₀ (log ++ [(o, v)]) a'

end Serial

end Effect
