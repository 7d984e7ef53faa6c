import Yfs.Effect.Interleave
import Yfs.Effect.Serial
import Yfs.Effect.Transition

/-! Workers that do operations on one store at the same time, each one command at a time. An
operation is written down when its worker leaves. -/
namespace Effect

variable {C S O M V W : Type} {R : C → Type}

/-- An operation that a worker does: what is left of it, and whether it has issued a command. -/
structure Doing (O C : Type) (R : C → Type) (V : Type) where
  op : O
  left : Program C R V
  begun : Bool

structure Object (W O C : Type) (R : C → Type) (V S : Type) where
  doing : W → Option (Doing O C R V)
  store : S
  log : List (O × V)

inductive ObjectEvent (W O M : Type) where
  | enter (w : W) (o : O) (mem : M)
  | command (w : W)
  | leave (w : W)

namespace Object

def start (s : S) : Object W O C R V S := ⟨fun _ => none, s, []⟩

/-- Some worker other than `w` has issued a command for `e`. -/
def Others (x : Object W O C R V S) (w : W) (e : Doing O C R V) : Prop :=
  ∃ u, u ≠ w ∧ x.doing u = some e ∧ e.begun = true

variable [DecidableEq W]

def setDoing (x : Object W O C R V S) (w : W) (d : Option (Doing O C R V)) : Object W O C R V S :=
  { x with doing := Function.update x.doing w d }

section Steps

variable (prog : O → M → Program C R V) (exec : (c : C) → S → R c × S)

def step (x : Object W O C R V S) : ObjectEvent W O M → Option (Object W O C R V S)
  | .enter w o mem =>
    if (x.doing w).isNone then some (x.setDoing w (some ⟨o, prog o mem, false⟩)) else none
  | .command w => (x.doing w).bind fun d =>
    match d.left with
    | .pure _ => none
    | .call c k => some { x.setDoing w (some ⟨d.op, k (exec c x.store).1, true⟩) with
        store := (exec c x.store).2 }
  | .leave w => (x.doing w).bind fun d =>
    match d.left with
    | .pure v => some { x.setDoing w none with log := x.log ++ [(d.op, v)] }
    | .call .. => none

/-- What an event does. -/
inductive Moves (x : Object W O C R V S) : ObjectEvent W O M → Object W O C R V S → Prop where
  | enter {w : W} {o : O} {mem : M} (hw : x.doing w = none) :
    Moves x (.enter w o mem) (x.setDoing w (some ⟨o, prog o mem, false⟩))
  | command {w : W} {d : Doing O C R V} {c : C} {k : R c → Program C R V}
    (hw : x.doing w = some d) (hd : d.left = .call c k) :
    Moves x (.command w) { x.setDoing w (some ⟨d.op, k (exec c x.store).1, true⟩) with
      store := (exec c x.store).2 }
  | leave {w : W} {d : Doing O C R V} {v : V} (hw : x.doing w = some d) (hd : d.left = .pure v) :
    Moves x (.leave w) { x.setDoing w none with log := x.log ++ [(d.op, v)] }

variable {prog exec} {x x' : Object W O C R V S} {e : ObjectEvent W O M}

theorem moves_of_step (hs : step prog exec x e = some x') : Moves prog exec x e x' := by
  cases e with
  | enter w o mem =>
    unfold step at hs
    dsimp only at hs
    split_ifs at hs with hw
    obtain rfl := Option.some.inj hs
    exact .enter (Option.isNone_iff_eq_none.mp hw)
  | command w =>
    obtain ⟨d, hw, hs⟩ := Option.bind_eq_some_iff.mp hs
    cases hd : d.left with
    | pure v =>
      rw [hd] at hs
      cases hs
    | call c k =>
      rw [hd] at hs
      obtain rfl := Option.some.inj hs
      exact .command hw hd
  | leave w =>
    obtain ⟨d, hw, hs⟩ := Option.bind_eq_some_iff.mp hs
    cases hd : d.left with
    | pure v =>
      rw [hd] at hs
      obtain rfl := Option.some.inj hs
      exact .leave hw hd
    | call c k =>
      rw [hd] at hs
      cases hs

/-- What a worker does after an event of another, or of its own. -/
theorem doing_setDoing {w u : W} {d : Option (Doing O C R V)} {e : Doing O C R V}
    (h : (x.setDoing w d).doing u = some e) : u = w ∧ d = some e ∨ u ≠ w ∧ x.doing u = some e := by
  unfold setDoing at h
  dsimp only at h
  by_cases hu : u = w
  · rw [hu, Function.update_self] at h
    exact Or.inl ⟨hu, h⟩
  · rw [Function.update_of_ne hu] at h
    exact Or.inr ⟨hu, h⟩

end Steps

section Alone

variable (prog : O → M → Program C R V) (exec : (c : C) → S → R c × S)

/-- An operation that runs alone. -/
def Sequential (s : S) (o : O) (v : V) (s' : S) : Prop :=
  ∃ mem, (prog o mem).run exec s = (v, s')

/-- No worker issues a command between two commands of another. -/
def Alone (x : Object W O C R V S) : ObjectEvent W O M → Prop
  | .command w => ∀ e, ¬ x.Others w e
  | .enter .. | .leave _ => True

/-- The operations that are complete have been done one after the other, and at most one has come
between two of its commands. -/
structure Ordered (s₀ : S) (x : Object W O C R V S) (s : S) : Prop where
  serial : Serial (Sequential prog exec) s₀ x.log s
  fresh : ∀ w d, x.doing w = some d → d.begun = false → ∃ mem, d.left = prog d.op mem
  begun : ∀ w d, x.doing w = some d → d.begun = true → (∀ e, ¬ x.Others w e) ∧
    ∃ mem, d.left.run exec x.store = (prog d.op mem).run exec s
  quiet : (∀ w d, x.doing w = some d → d.begun = false) → x.store = s

variable {prog exec} {s₀ s : S} {x x' : Object W O C R V S} {e : ObjectEvent W O M}

omit [DecidableEq W] in
theorem Ordered.start : Ordered prog exec s₀ (Object.start s₀ : Object W O C R V S) s₀ where
  serial := .nil
  fresh w d hd := by cases hd
  begun w d hd := by cases hd
  quiet _ := rfl

theorem Ordered.enter (h : Ordered prog exec s₀ x s) {w : W} {o : O} {mem : M}
    (hw : x.doing w = none) :
    Ordered prog exec s₀ (x.setDoing w (some ⟨o, prog o mem, false⟩)) s where
  serial := h.serial
  fresh u d hu hd := by
    obtain ⟨-, heq⟩ | ⟨-, hu⟩ := doing_setDoing hu
    · obtain rfl := Option.some.inj heq
      exact ⟨mem, rfl⟩
    · exact h.fresh u d hu hd
  begun u d hu hd := by
    obtain ⟨-, heq⟩ | ⟨-, hu⟩ := doing_setDoing hu
    · obtain rfl := Option.some.inj heq
      cases hd
    · obtain ⟨halone, hrun⟩ := h.begun u d hu hd
      refine ⟨fun e he => ?_, hrun⟩
      obtain ⟨y, hy, he, hbegun⟩ := he
      obtain ⟨-, heq⟩ | ⟨-, he⟩ := doing_setDoing he
      · obtain rfl := Option.some.inj heq
        cases hbegun
      · exact halone e ⟨y, hy, he, hbegun⟩
  quiet hq := by
    refine h.quiet fun u d hu => hq u d ?_
    have hne : u ≠ w := by
      rintro rfl
      rw [hw] at hu
      cases hu
    unfold setDoing
    dsimp only
    rwa [Function.update_of_ne hne]

theorem Ordered.command (h : Ordered prog exec s₀ x s) {w : W} {d : Doing O C R V} {c : C}
    {k : R c → Program C R V} (hw : x.doing w = some d) (hd : d.left = .call c k)
    (halone : ∀ e, ¬ x.Others w e) :
    Ordered prog exec s₀ { x.setDoing w (some ⟨d.op, k (exec c x.store).1, true⟩) with
      store := (exec c x.store).2 } s := by
  have hrun : ∃ mem, d.left.run exec x.store = (prog d.op mem).run exec s := by
    cases hb : d.begun with
    | true => exact (h.begun w d hw hb).2
    | false =>
      obtain ⟨mem, hleft⟩ := h.fresh w d hw hb
      have hstore : x.store = s := by
        refine h.quiet fun u e hu => ?_
        by_cases hne : u = w
        · rw [hne, hw] at hu
          rw [← Option.some.inj hu]
          exact hb
        · rw [← Bool.not_eq_true]
          exact fun he => halone e ⟨u, hne, hu, he⟩
      exact ⟨mem, by rw [hleft, hstore]⟩
  refine ⟨h.serial, fun u e hu he => ?_, fun u e hu he => ?_, fun hq => ?_⟩
  · obtain ⟨-, heq⟩ | ⟨-, hu⟩ := doing_setDoing hu
    · obtain rfl := Option.some.inj heq
      cases he
    · exact h.fresh u e hu he
  · obtain ⟨rfl, heq⟩ | ⟨hne, hu⟩ := doing_setDoing hu
    · obtain rfl := Option.some.inj heq
      refine ⟨fun e he => ?_, ?_⟩
      · obtain ⟨y, hy, he, hbegun⟩ := he
        obtain ⟨hy', -⟩ | ⟨-, he⟩ := doing_setDoing he
        · exact hy hy'
        · exact halone e ⟨y, hy, he, hbegun⟩
      · rwa [hd, Program.run_call] at hrun
    · exact absurd ⟨u, hne, hu, he⟩ (halone e)
  · have hself := hq w ⟨d.op, k (exec c x.store).1, true⟩ (by
      unfold setDoing
      exact Function.update_self _ _ _)
    cases hself

theorem Ordered.leave (h : Ordered prog exec s₀ x s) {w : W} {d : Doing O C R V} {v : V}
    (hw : x.doing w = some d) (hd : d.left = .pure v) :
    ∃ s', Ordered prog exec s₀ { x.setDoing w none with log := x.log ++ [(d.op, v)] } s' := by
  -- the other workers go on as before
  have hold : ∀ {u e}, (x.setDoing w none).doing u = some e → u ≠ w ∧ x.doing u = some e := by
    intro u e hu
    obtain ⟨-, heq⟩ | hu := doing_setDoing hu
    · cases heq
    · exact hu
  have hothers : ∀ {u e}, (x.setDoing w none).Others u e → x.Others u e := by
    intro u e he
    obtain ⟨y, hy, he, hbegun⟩ := he
    exact ⟨y, hy, (hold he).2, hbegun⟩
  cases hb : d.begun with
  | true =>
    obtain ⟨halone, mem, hrun⟩ := h.begun w d hw hb
    rw [hd, Program.run_pure] at hrun
    refine ⟨x.store, h.serial.snoc ⟨mem, hrun.symm⟩, fun u e hu he => h.fresh u e (hold hu).2 he,
      fun u e hu he => ?_, fun _ => rfl⟩
    exact absurd ⟨u, (hold hu).1, (hold hu).2, he⟩ (halone e)
  | false =>
    obtain ⟨mem, hleft⟩ := h.fresh w d hw hb
    have hrun : (prog d.op mem).run exec s = (v, s) := by
      rw [← hleft, hd, Program.run_pure]
    refine ⟨s, h.serial.snoc ⟨mem, hrun⟩, fun u e hu he => h.fresh u e (hold hu).2 he,
      fun u e hu he => ?_, fun hq => ?_⟩
    · obtain ⟨halone, hrun⟩ := h.begun u e (hold hu).2 he
      exact ⟨fun e' he' => halone e' (hothers he'), hrun⟩
    · refine h.quiet fun u e hu => ?_
      by_cases hne : u = w
      · rw [hne, hw] at hu
        rw [← Option.some.inj hu]
        exact hb
      · refine hq u e ?_
        unfold setDoing
        dsimp only
        rwa [Function.update_of_ne hne]

theorem Ordered.step (h : Ordered prog exec s₀ x s) (ha : x.Alone e)
    (hs : step prog exec x e = some x') : ∃ s', Ordered prog exec s₀ x' s' := by
  cases moves_of_step hs with
  | enter hw => exact ⟨s, h.enter hw⟩
  | command hw hd => exact ⟨s, h.command hw hd ha⟩
  | leave hw hd => exact h.leave hw hd

end Alone

section Owned

variable {κ F L : Type} [DecidableEq κ] (prog : O → M → Program C R V)
  (exec : (c : C) → S → R c × S) (key : O → κ) (Ok : O → Prop) (spec : O → F → V → F → Prop)
  (rule : κ → L → (c : C) → (R c → L → Prop) → Prop) (Valid : (κ → L) → S → Prop)
  (Holds : κ → L → F → Prop) (Compat : C → C → Prop) (Pre : C → S → Prop)

/-- An operation reads and writes what is at its key only. -/
def Local (m : κ → F) (o : O) (v : V) (m' : κ → F) : Prop :=
  ∃ f, spec o (m (key o)) v f ∧ m' = Function.update m (key o) f

/-- No two operations on one key overlap, and every command comes beside commands that are
compatible with it. -/
def Apart (x : Object W O C R V S) : ObjectEvent W O M → Prop
  | .enter _ o _ => Ok o
  | .command w => ∀ d, x.doing w = some d → ∀ c, d.left.pending = some c → Pre c x.store ∧
      ∀ e, x.Others w e → key e.op ≠ key d.op ∧ ∀ c', e.left.pending = some c' → Compat c c'
  | .leave w => ∀ d, x.doing w = some d → ∀ e, x.Others w e → key e.op ≠ key d.op

/-- An operation whose key nobody uses can get what it needs to do as `spec` says. -/
structure Serves (Idle : L → Prop) : Prop where
  sound : Sound exec rule Valid Idle Compat Pre
  idle : ∀ {k : κ} {l : L} {f : F}, Holds k l f → Idle l
  ready : ∀ {ls : κ → L} {s : S} {o : O} (mem : M) {f : F}, Valid ls s →
    Holds (key o) (ls (key o)) f → Ok o → ∃ l, Valid (Function.update ls (key o) l) s ∧
      (prog o mem).wp (rule (key o)) (fun v l' => ∃ f', spec o f v f' ∧ Holds (key o) l' f') l

/-- The operations that are complete have been done one after the other, and each that has begun is
at its specification. -/
structure Owned (m₀ : κ → F) (x : Object W O C R V S) (m : κ → F) (ls : κ → L) : Prop where
  serial : Serial (Local key spec) m₀ x.log m
  valid : Valid ls x.store
  fresh : ∀ w d, x.doing w = some d → d.begun = false →
    Ok d.op ∧ ∃ mem, d.left = prog d.op mem
  begun : ∀ w d, x.doing w = some d → d.begun = true →
    (∀ e, x.Others w e → key e.op ≠ key d.op) ∧
      d.left.wp (rule (key d.op))
        (fun v l => ∃ f, spec d.op (m (key d.op)) v f ∧ Holds (key d.op) l f) (ls (key d.op))
  quiet : ∀ k, (∀ w d, x.doing w = some d → d.begun = true → key d.op ≠ k) → Holds k (ls k) (m k)

variable {prog exec key Ok spec rule Valid Holds Compat Pre} {Idle : L → Prop} {m₀ m : κ → F}
  {ls : κ → L} {s₀ : S} {x x' : Object W O C R V S} {e : ObjectEvent W O M}

omit [DecidableEq W] in
theorem Owned.start (hv : Valid ls s₀) (hh : ∀ k, Holds k (ls k) (m₀ k)) :
    Owned prog key Ok spec rule Valid Holds m₀ (Object.start s₀ : Object W O C R V S) m₀ ls where
  serial := .nil
  valid := hv
  fresh w d hd := by cases hd
  begun w d hd := by cases hd
  quiet k _ := hh k

theorem Owned.enter (h : Owned prog key Ok spec rule Valid Holds m₀ x m ls) {w : W} {o : O} {mem : M}
    (hw : x.doing w = none) (ho : Ok o) :
    Owned prog key Ok spec rule Valid Holds m₀ (x.setDoing w (some ⟨o, prog o mem, false⟩)) m ls where
  serial := h.serial
  valid := h.valid
  fresh u d hu hd := by
    obtain ⟨-, heq⟩ | ⟨-, hu⟩ := doing_setDoing hu
    · obtain rfl := Option.some.inj heq
      exact ⟨ho, mem, rfl⟩
    · exact h.fresh u d hu hd
  begun u d hu hd := by
    obtain ⟨-, heq⟩ | ⟨-, hu⟩ := doing_setDoing hu
    · obtain rfl := Option.some.inj heq
      cases hd
    · obtain ⟨hothers, hwp⟩ := h.begun u d hu hd
      refine ⟨fun e he => hothers e ?_, hwp⟩
      obtain ⟨y, hy, he, hbegun⟩ := he
      obtain ⟨-, heq⟩ | ⟨-, he⟩ := doing_setDoing he
      · obtain rfl := Option.some.inj heq
        cases hbegun
      · exact ⟨y, hy, he, hbegun⟩
  quiet k hk := by
    refine h.quiet k fun u d hu hd => hk u d ?_ hd
    have hne : u ≠ w := by
      rintro rfl
      rw [hw] at hu
      cases hu
    unfold setDoing
    dsimp only
    rwa [Function.update_of_ne hne]

/-- What a worker needs for its next step: it begins with what is at its key. -/
theorem Owned.begin (hs : Serves prog exec key Ok spec rule Valid Holds Compat Pre Idle)
    (h : Owned prog key Ok spec rule Valid Holds m₀ x m ls) {w : W} {d : Doing O C R V}
    (hw : x.doing w = some d) (hothers : ∀ e, x.Others w e → key e.op ≠ key d.op) :
    ∃ l, Valid (Function.update ls (key d.op) l) x.store ∧
      d.left.wp (rule (key d.op))
        (fun v l' => ∃ f, spec d.op (m (key d.op)) v f ∧ Holds (key d.op) l' f) l := by
  cases hb : d.begun with
  | true => exact ⟨ls (key d.op), by rw [Function.update_eq_self]; exact h.valid, (h.begun w d hw hb).2⟩
  | false =>
    obtain ⟨hok, mem, hleft⟩ := h.fresh w d hw hb
    have hholds : Holds (key d.op) (ls (key d.op)) (m (key d.op)) := by
      refine h.quiet _ fun u e hu he => ?_
      by_cases hne : u = w
      · rw [hne, hw] at hu
        rw [← Option.some.inj hu, hb] at he
        cases he
      · exact hothers e ⟨u, hne, hu, he⟩
    rw [hleft]
    exact hs.ready mem h.valid hholds hok

theorem Owned.command (hs : Serves prog exec key Ok spec rule Valid Holds Compat Pre Idle)
    (h : Owned prog key Ok spec rule Valid Holds m₀ x m ls) {w : W} {d : Doing O C R V} {c : C}
    {k : R c → Program C R V} (hw : x.doing w = some d) (hd : d.left = .call c k)
    (hpre : Pre c x.store) (hapart : ∀ e, x.Others w e → key e.op ≠ key d.op ∧
      ∀ c', e.left.pending = some c' → Compat c c') :
    ∃ ls', Owned prog key Ok spec rule Valid Holds m₀
      { x.setDoing w (some ⟨d.op, k (exec c x.store).1, true⟩) with store := (exec c x.store).2 }
      m ls' := by
  have hothers : ∀ e, x.Others w e → key e.op ≠ key d.op := fun e he => (hapart e he).1
  obtain ⟨l, hv, hwp⟩ := h.begin hs hw hothers
  rw [hd] at hwp
  obtain ⟨post, hr, hk⟩ := hwp
  have hself : rule (key d.op) (Function.update ls (key d.op) l (key d.op)) c post := by
    rwa [Function.update_self]
  -- every other key is unused, or its worker is about to do what is compatible
  have hcompat : ∀ u, u ≠ key d.op → Idle (Function.update ls (key d.op) l u) ∨
      ∃ c' post', rule u (Function.update ls (key d.op) l u) c' post' ∧ Compat c c' := by
    intro u hu
    rw [Function.update_of_ne hu]
    by_cases hbusy : ∃ y e, x.doing y = some e ∧ e.begun = true ∧ key e.op = u
    · obtain ⟨y, e, hy, he, rfl⟩ := hbusy
      have hyw : y ≠ w := by
        rintro rfl
        rw [hw] at hy
        rw [Option.some.inj hy] at hu
        exact hu rfl
      obtain hidle | ⟨c', post', hc', hr'⟩ := idle_or_pending (h.begun y e hy he).2
        (fun v l' hl => hl.elim fun f hf => hs.idle hf.2)
      · exact Or.inl hidle
      · exact Or.inr ⟨c', post', hr', (hapart e ⟨y, hyw, hy, he⟩).2 c' hc'⟩
    · exact Or.inl (hs.idle (h.quiet u fun y e hy he heq => hbusy ⟨y, e, hy, he, heq⟩))
  obtain ⟨l', hpost, hv'⟩ := hs.sound.step hv hself hcompat hpre
  rw [Function.update_idem] at hv'
  refine ⟨Function.update ls (key d.op) l', h.serial, hv', fun u e hu he => ?_,
    fun u e hu he => ?_, fun y hy => ?_⟩
  · obtain ⟨-, heq⟩ | ⟨-, hu⟩ := doing_setDoing hu
    · obtain rfl := Option.some.inj heq
      cases he
    · exact h.fresh u e hu he
  · obtain ⟨rfl, heq⟩ | ⟨hne, hu⟩ := doing_setDoing hu
    · obtain rfl := Option.some.inj heq
      refine ⟨fun e he => ?_, ?_⟩
      · obtain ⟨y, hy, he, hbegun⟩ := he
        obtain ⟨hy', -⟩ | ⟨-, he⟩ := doing_setDoing he
        · exact absurd hy' hy
        · exact hothers e ⟨y, hy, he, hbegun⟩
      · rw [Function.update_self]
        exact hk _ _ hpost
    · have hkey : key e.op ≠ key d.op := hothers e ⟨u, hne, hu, he⟩
      refine ⟨fun e' he' => ?_, ?_⟩
      · obtain ⟨y, hy, he', hbegun⟩ := he'
        obtain ⟨-, heq⟩ | ⟨-, he'⟩ := doing_setDoing he'
        · obtain rfl := Option.some.inj heq
          exact hkey.symm
        · exact (h.begun u e hu he).1 e' ⟨y, hy, he', hbegun⟩
      · rw [Function.update_of_ne hkey]
        exact (h.begun u e hu he).2
  · have hne : key d.op ≠ y := hy w ⟨d.op, k (exec c x.store).1, true⟩ (by
      unfold setDoing
      exact Function.update_self _ _ _) rfl
    rw [Function.update_of_ne hne.symm]
    refine h.quiet y fun u e hu he heq => ?_
    by_cases huw : u = w
    · rw [huw, hw] at hu
      rw [← Option.some.inj hu] at heq
      exact hne heq
    · refine hy u e ?_ he heq
      unfold setDoing
      dsimp only
      rwa [Function.update_of_ne huw]

theorem Owned.leave (hs : Serves prog exec key Ok spec rule Valid Holds Compat Pre Idle)
    (h : Owned prog key Ok spec rule Valid Holds m₀ x m ls) {w : W} {d : Doing O C R V} {v : V}
    (hw : x.doing w = some d) (hd : d.left = .pure v)
    (hothers : ∀ e, x.Others w e → key e.op ≠ key d.op) :
    ∃ m' ls', Owned prog key Ok spec rule Valid Holds m₀
      { x.setDoing w none with log := x.log ++ [(d.op, v)] } m' ls' := by
  obtain ⟨l, hv, hwp⟩ := h.begin hs hw hothers
  rw [hd] at hwp
  obtain ⟨f, hf, hholds⟩ := hwp
  -- the other workers go on as before
  have hold : ∀ {u e}, (x.setDoing w none).doing u = some e → u ≠ w ∧ x.doing u = some e := by
    intro u e hu
    obtain ⟨-, heq⟩ | hu := doing_setDoing hu
    · cases heq
    · exact hu
  refine ⟨Function.update m (key d.op) f, Function.update ls (key d.op) l,
    h.serial.snoc ⟨f, hf, rfl⟩, hv, fun u e hu he => h.fresh u e (hold hu).2 he,
    fun u e hu he => ?_, fun y hy => ?_⟩
  · obtain ⟨hne, hu⟩ := hold hu
    have hkey : key e.op ≠ key d.op := hothers e ⟨u, hne, hu, he⟩
    rw [Function.update_of_ne hkey, Function.update_of_ne hkey]
    refine ⟨fun e' he' => ?_, (h.begun u e hu he).2⟩
    obtain ⟨y, hy, he', hbegun⟩ := he'
    exact (h.begun u e hu he).1 e' ⟨y, hy, (hold he').2, hbegun⟩
  · by_cases hkey : y = key d.op
    · rw [hkey, Function.update_self, Function.update_self]
      exact hholds
    · rw [Function.update_of_ne hkey, Function.update_of_ne hkey]
      refine h.quiet y fun u e hu he heq => ?_
      by_cases huw : u = w
      · rw [huw, hw] at hu
        rw [← Option.some.inj hu] at heq
        exact hkey heq.symm
      · refine hy u e ?_ he heq
        unfold setDoing
        dsimp only
        rwa [Function.update_of_ne huw]

theorem Owned.step (hs : Serves prog exec key Ok spec rule Valid Holds Compat Pre Idle)
    (h : Owned prog key Ok spec rule Valid Holds m₀ x m ls) (ha : x.Apart key Ok Compat Pre e)
    (hstep : step prog exec x e = some x') :
    ∃ m' ls', Owned prog key Ok spec rule Valid Holds m₀ x' m' ls' := by
  cases moves_of_step hstep with
  | enter hw => exact ⟨m, ls, h.enter hw ha⟩
  | @command w d c k hw hd =>
    obtain ⟨hpre, hapart⟩ := ha d hw c (by rw [hd]; rfl)
    obtain ⟨ls', h'⟩ := h.command hs hw hd hpre hapart
    exact ⟨m, ls', h'⟩
  | @leave w d v hw hd => exact h.leave hs hw hd (ha d hw)

end Owned

end Object

end Effect
