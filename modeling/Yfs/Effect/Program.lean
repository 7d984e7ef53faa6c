import Mathlib.Data.Nat.Notation
import Mathlib.Logic.Function.Basic

/-! Programs that issue commands one at a time, and their sequential meaning. A
command is the unit that another thread can come between; what it does to the
state is a parameter. -/
namespace Effect

/-- A program over the commands `C`; command `c` is answered by a value of `R c`. -/
inductive Program (C : Type) (R : C → Type) (α : Type) : Type where
  | pure (a : α)
  | call (c : C) (k : R c → Program C R α)

namespace Program

variable {C S α β σ : Type} {R : C → Type}

/-- Run the first program to its end, then the second one. -/
def bind : Program C R α → (α → Program C R β) → Program C R β
  | .pure a, f => f a
  | .call c k, f => .call c fun r => (k r).bind f

instance : Monad (Program C R) where
  pure := Program.pure
  bind := Program.bind

theorem bind_pure (p : Program C R α) : (p >>= Program.pure : Program C R α) = p := by
  induction p with
  | pure a => rfl
  | call c k ih => exact congrArg (Program.call c) (funext ih)

theorem bind_assoc (p : Program C R α) (f : α → Program C R β) (g : β → Program C R σ) :
    ((p >>= f) >>= g : Program C R σ) = p >>= fun a => f a >>= g := by
  induction p with
  | pure a => rfl
  | call c k ih => exact congrArg (Program.call c) (funext ih)

/-- The program that issues one command and returns its reply. -/
def request (c : C) : Program C R (R c) := .call c .pure

@[simp] theorem pure_def (a : α) : (Pure.pure a : Program C R α) = .pure a := rfl

@[simp] theorem pure_bind (a : α) (f : α → Program C R β) :
    (Program.pure a >>= f : Program C R β) = f a := rfl

@[simp] theorem call_bind (c : C) (k : R c → Program C R α) (f : α → Program C R β) :
    (Program.call c k >>= f : Program C R β) = .call c fun r => k r >>= f := rfl

@[simp] theorem request_bind (c : C) (f : R c → Program C R β) :
    (request c >>= f : Program C R β) = .call c f := rfl

/-- The command a program issues next; a finished program has none. -/
def pending : Program C R α → Option C
  | .pure _ => none
  | .call c _ => some c

/-- A counting loop of at most `rem` rounds starting with index `i`. The body says
whether to go on (`yield`) or to leave the loop (`done`). -/
def loop (body : ℕ → σ → Program C R (ForInStep σ)) : (rem i : ℕ) → σ → Program C R σ
  | 0, _, x => .pure x
  | rem + 1, i, x => body i x >>= fun
    | .yield y => loop body rem (i + 1) y
    | .done y => .pure y

/-- What one round of a loop promises: `I` if the loop goes on, `Q` if it is left. -/
def Round {L : Type} (I Q : σ → L → Prop) : ForInStep σ → L → Prop
  | .yield x => I x
  | .done x => Q x

/-- No command of the program is outside `P`, whatever the replies are. -/
def Only (P : C → Prop) : Program C R α → Prop
  | .pure _ => True
  | .call c k => P c ∧ ∀ r, (k r).Only P

theorem only_bind {P : C → Prop} {p : Program C R α} {f : α → Program C R β} (hp : p.Only P)
    (hf : ∀ a, (f a).Only P) : (p >>= f : Program C R β).Only P := by
  induction p with
  | pure a => exact hf a
  | call c k ih => exact ⟨hp.1, fun r => ih r (hp.2 r)⟩

theorem only_loop {P : C → Prop} {body : ℕ → σ → Program C R (ForInStep σ)}
    (h : ∀ i x, (body i x).Only P) (rem i : ℕ) (x : σ) : (loop body rem i x).Only P := by
  induction rem generalizing i x with
  | zero => trivial
  | succ rem ih =>
    refine only_bind (h i x) ?_
    rintro (y | y)
    · trivial
    · exact ih (i + 1) y

section Run

variable (exec : (c : C) → S → R c × S)

/-- The result and the last state of a program that runs alone. -/
def run : Program C R α → S → α × S
  | .pure a, s => (a, s)
  | .call c k, s => (k (exec c s).1).run (exec c s).2

/-- The commands issued by a program that runs alone, in order. -/
def trace : Program C R α → S → List C
  | .pure _, _ => []
  | .call c k, s => c :: (k (exec c s).1).trace (exec c s).2

/-- Every command issued by a program that runs alone meets `P` in the state in
which it is issued. -/
def Always (P : C → S → Prop) : Program C R α → S → Prop
  | .pure _, _ => True
  | .call c k, s => P c s ∧ (k (exec c s).1).Always P (exec c s).2

@[simp] theorem run_pure (a : α) (s : S) :
    (Program.pure a : Program C R α).run exec s = (a, s) := rfl

@[simp] theorem run_call (c : C) (k : R c → Program C R α) (s : S) :
    (Program.call c k).run exec s = (k (exec c s).1).run exec (exec c s).2 := rfl

@[simp] theorem run_request (c : C) (s : S) :
    (request c : Program C R (R c)).run exec s = exec c s := rfl

theorem run_bind (p : Program C R α) (f : α → Program C R β) (s : S) :
    (p >>= f : Program C R β).run exec s = (f (p.run exec s).1).run exec (p.run exec s).2 := by
  induction p generalizing s with
  | pure a => rfl
  | call c k ih => exact ih _ _

theorem trace_bind (p : Program C R α) (f : α → Program C R β) (s : S) :
    (p >>= f : Program C R β).trace exec s =
      p.trace exec s ++ (f (p.run exec s).1).trace exec (p.run exec s).2 := by
  induction p generalizing s with
  | pure a => rfl
  | call c k ih =>
    simp only [call_bind, trace, run_call, List.cons_append]
    rw [ih]

theorem always_bind (P : C → S → Prop) (p : Program C R α) (f : α → Program C R β) (s : S) :
    (p >>= f : Program C R β).Always exec P s ↔
      p.Always exec P s ∧ (f (p.run exec s).1).Always exec P (p.run exec s).2 := by
  induction p generalizing s with
  | pure a => exact ⟨fun h => ⟨trivial, h⟩, And.right⟩
  | call c k ih =>
    simp only [call_bind, Always, run_call]
    rw [ih, and_assoc]

theorem Only.always {P : C → Prop} {Q : C → S → Prop} (h : ∀ c s, P c → Q c s)
    {p : Program C R α} (hp : p.Only P) (s : S) : p.Always exec Q s := by
  induction p generalizing s with
  | pure a => trivial
  | call c k ih => exact ⟨h c s hp.1, ih _ (hp.2 _) _⟩

theorem always_true (p : Program C R α) (s : S) : p.Always exec (fun _ _ => True) s := by
  induction p generalizing s with
  | pure a => trivial
  | call c k ih => exact ⟨trivial, ih _ _⟩

/-- The invariant rule for a loop that runs alone: `I` holds before every round,
and each round either keeps it or leaves the loop with `Q`. -/
theorem run_loop (body : ℕ → σ → Program C R (ForInStep σ)) (I : ℕ → σ → S → Prop)
    (Q : σ → S → Prop) (rem i : ℕ) (x : σ) (s : S) (h0 : I i x s)
    (hstep : ∀ j x s, i ≤ j → j < i + rem → I j x s →
      Round (I (j + 1)) Q ((body j x).run exec s).1 ((body j x).run exec s).2)
    (hend : ∀ x s, I (i + rem) x s → Q x s) :
    Q ((loop body rem i x).run exec s).1 ((loop body rem i x).run exec s).2 := by
  induction rem generalizing i x s with
  | zero => exact hend x s h0
  | succ rem ih =>
    have hi := hstep i x s (Nat.le_refl i) (by omega) h0
    simp only [loop, run_bind]
    rcases hb : (body i x).run exec s with ⟨_ | y, s'⟩
    · rw [hb] at hi
      exact hi
    · rw [hb] at hi
      refine ih (i + 1) y s' hi ?_ ?_
      · exact fun j x s hj hlt => hstep j x s (by omega) (by omega)
      · rw [show i + 1 + rem = i + (rem + 1) by omega]
        exact hend

end Run

end Program

end Effect
