import Mathlib.Data.List.Basic

/-! Runs of a machine whose steps may be disabled. -/
namespace Effect

variable {S E : Type} (step : S → E → Option S)

/-- The state after a row of events; there is none when one of them is disabled. -/
def runs : List E → S → Option S
  | [], s => some s
  | e :: es, s => (step s e).bind (runs es)

theorem runs_cons (e : E) (es : List E) (s : S) :
    runs step (e :: es) s = (step s e).bind (runs step es) := rfl

theorem runs_append (es es' : List E) (s : S) :
    runs step (es ++ es') s = (runs step es s).bind (runs step es') := by
  induction es generalizing s with
  | nil => rfl
  | cons e es ih =>
    rw [List.cons_append, runs_cons, runs_cons, Option.bind_assoc]
    exact congrArg _ (funext ih)

theorem runs_append_eq_some {es es' : List E} {s s' : S} :
    runs step (es ++ es') s = some s' ↔
      ∃ m, runs step es s = some m ∧ runs step es' m = some s' := by
  rw [runs_append, Option.bind_eq_some_iff]

theorem runs_cons_eq_some {e : E} {es : List E} {s s' : S} :
    runs step (e :: es) s = some s' ↔ ∃ m, step s e = some m ∧ runs step es m = some s' := by
  rw [runs_cons, Option.bind_eq_some_iff]

theorem runs_singleton (e : E) (s : S) : runs step [e] s = step s e := by
  rw [runs_cons]
  cases step s e <;> rfl

/-- `P` holds of every event of a run and the state in which it happens. -/
def Meets (P : S → E → Prop) : List E → S → Prop
  | [], _ => True
  | e :: es, s => P s e ∧ ∀ s', step s e = some s' → Meets P es s'

instance Meets.decidable {P : S → E → Prop} [∀ s e, Decidable (P s e)] :
    ∀ es s, Decidable (Meets step P es s)
  | [], _ => isTrue trivial
  | e :: es, s =>
    match h : step s e with
    | none => decidable_of_iff (P s e)
        ⟨fun hp => ⟨hp, fun s' hs => by rw [h] at hs; cases hs⟩, fun hm => hm.1⟩
    | some m =>
      have : Decidable (Meets step P es m) := Meets.decidable es m
      decidable_of_iff (P s e ∧ Meets step P es m)
        ⟨fun hm => ⟨hm.1, fun s' hs => by rw [h] at hs; cases hs; exact hm.2⟩,
          fun hm => ⟨hm.1, hm.2 m h⟩⟩

theorem Meets.mono {P Q : S → E → Prop} (h : ∀ s e, P s e → Q s e) {es : List E} {s : S}
    (hm : Meets step P es s) : Meets step Q es s := by
  induction es generalizing s with
  | nil => trivial
  | cons e es ih => exact ⟨h s e hm.1, fun s' hs => ih (hm.2 s' hs)⟩

theorem Meets.snoc {P : S → E → Prop} {es : List E} {s m : S} {e : E} (hm : Meets step P es s)
    (hr : runs step es s = some m) (he : P m e) : Meets step P (es ++ [e]) s := by
  induction es generalizing s with
  | nil =>
    cases hr
    exact ⟨he, fun _ _ => trivial⟩
  | cons f es ih =>
    obtain ⟨n, hs, hr⟩ := (runs_cons_eq_some step).mp hr
    refine ⟨hm.1, fun s' hs' => ?_⟩
    obtain rfl := Option.some.inj (hs.symm.trans hs')
    exact ih (hm.2 n hs) hr

theorem Meets.of_append {P : S → E → Prop} {es es' : List E} {s m : S}
    (hm : Meets step P (es ++ es') s) (hr : runs step es s = some m) :
    Meets step P es s ∧ Meets step P es' m := by
  induction es generalizing s with
  | nil =>
    cases hr
    exact ⟨trivial, hm⟩
  | cons e es ih =>
    obtain ⟨n, hs, hr⟩ := (runs_cons_eq_some step).mp hr
    refine ⟨⟨hm.1, fun s' hs' => ?_⟩, (ih (hm.2 n hs) hr).2⟩
    obtain rfl := Option.some.inj (hs.symm.trans hs')
    exact (ih (hm.2 n hs) hr).1

/-- What every event that meets `P` keeps holds after a run of such events. -/
theorem Meets.invariant {P : S → E → Prop} {I : S → Prop}
    (hstep : ∀ s e s', I s → P s e → step s e = some s' → I s') {es : List E} {s s' : S}
    (hm : Meets step P es s) (h0 : I s) (hr : runs step es s = some s') : I s' := by
  induction es generalizing s with
  | nil =>
    cases hr
    exact h0
  | cons e es ih =>
    obtain ⟨m, hs, hr⟩ := (runs_cons_eq_some step).mp hr
    exact ih (hm.2 m hs) (hstep s e m h0 hm.1 hs) hr

/-- What every event with `P` keeps holds after a run of such events. -/
theorem runs_invariant_of {P : E → Prop} {I : S → Prop}
    (hstep : ∀ s e s', I s → P e → step s e = some s' → I s') {es : List E} {s s' : S}
    (hes : ∀ e ∈ es, P e) (h0 : I s) (hr : runs step es s = some s') : I s' := by
  induction es generalizing s with
  | nil =>
    cases hr
    exact h0
  | cons e es ih =>
    obtain ⟨m, hs, hr⟩ := (runs_cons_eq_some step).mp hr
    exact ih (fun e he => hes e (List.mem_cons_of_mem _ he))
      (hstep s e m h0 (hes e List.mem_cons_self) hs) hr

/-- What every event keeps holds after a run. -/
theorem runs_invariant {I : S → Prop} (hstep : ∀ s e s', I s → step s e = some s' → I s')
    {es : List E} {s s' : S} (h0 : I s) (hr : runs step es s = some s') : I s' :=
  runs_invariant_of (P := fun _ => True) step (fun s e s' h _ hs => hstep s e s' h hs)
    (fun _ _ => trivial) h0 hr

/-- The step, as long as `p` says yes to it. -/
def checked (p : S → E → Bool) (s : S) (e : E) : Option S := if p s e then step s e else none

/-- A run that asks `p` before every event meets it. -/
theorem meets_of_checked {p : S → E → Bool} {es : List E} {s s' : S}
    (hr : runs (checked step p) es s = some s') :
    Meets step (fun s e => p s e = true) es s ∧ runs step es s = some s' := by
  induction es generalizing s with
  | nil => exact ⟨trivial, hr⟩
  | cons e es ih =>
    obtain ⟨m, hs, hr⟩ := (runs_cons_eq_some _).mp hr
    unfold checked at hs
    split_ifs at hs with hp
    obtain ⟨hm, hr⟩ := ih hr
    refine ⟨⟨hp, fun s' hs' => ?_⟩, (runs_cons_eq_some step).mpr ⟨m, hs, hr⟩⟩
    obtain rfl := Option.some.inj (hs.symm.trans hs')
    exact hm

end Effect
