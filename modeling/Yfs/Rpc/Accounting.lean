import Yfs.Rpc.References

/-! `refno_` is the number of holders in every run without a request for an old server. -/
namespace Yfs.Rpc

open Effect

/-- `refno_` counts the holders, so that the test in `process_accept` finds what nobody uses. -/
structure Rpcs.Accounted (s : Rpcs) : Prop where
  exact : ∀ x, (s.conn x).refno = s.holders x
  found : ∀ n x, s.listener n = some x → (s.conn x).dead = true → s.jobs x = 0 →
    s.recorded x = 0 → (s.conn x).refno = 1

/-- No request is dispatched that is for an old instance of the server. -/
def Rpcs.current (s : Rpcs) : RpcsEvent → Bool
  | .go i _ _ =>
    match s.active i with
    | some d => !(d.stage = .header && d.ok && s.isOldServer d.header)
    | none => true
  | _ => true

/-- No dispatch is at the exit that keeps its reference. -/
def Rpcs.NoneOld (s : Rpcs) : Prop := ∀ i d, s.active i = some d → d.stage ≠ .oldServer

section Run

variable {s s' : Rpcs} {e : RpcsEvent}

theorem Rpcs.NoneOld.step (hn : s.NoneOld) (hc : s.current e = true)
    (hs : s.step e = some s') : s'.NoneOld := by
  intro i d' hd'
  obtain hd | ⟨rfl, j, -, rfl⟩ | ⟨ret, body, d, rfl, hd, hgoes⟩ := step_active hs hd'
  · exact hn i d' hd
  · intro hst
    cases hst
  · intro hst
    have hheader : d.stage = .header := by
      have hnext := hgoes.stage
      rw [hst] at hnext
      cases hstage : d.stage <;> rw [hstage] at hnext <;> simp [Stage.next] at hnext ⊢
    obtain ⟨hok, hold⟩ := hgoes.old hheader
    unfold Rpcs.current at hc
    dsimp only at hc
    rw [hd] at hc
    simp [hheader, hok, hold.mp hst] at hc

theorem leaks_eq_zero (hn : s.NoneOld) (x : ℕ) : e.leaks s x = 0 := by
  cases e with
  | go i ret body =>
    unfold RpcsEvent.leaks
    dsimp only
    cases hd : s.active i with
    | none => rfl
    | some d => exact if_neg (hn i d hd)
  | _ => rfl

/-- What holds of the references between two events of a run without leaks. -/
structure Rpcs.Balanced (s : Rpcs) : Prop where
  sound : s.Sound
  noneOld : s.NoneOld
  even : ∀ x, s.excess x = 0

theorem balanced_init (sum : Bool) (nonce : UInt32) (procs : List Int32) :
    (Rpcs.init sum nonce procs).Balanced := by
  refine ⟨sound_init sum nonce procs, ?_, excess_init sum nonce procs⟩
  intro i d hd
  cases hd

theorem Rpcs.Balanced.step (h : s.Balanced) (hk : s.keeps e = true ∧ s.current e = true)
    (hs : s.step e = some s') : s'.Balanced := by
  obtain ⟨-, hexcess⟩ := step_turns h.sound hk.1 hs
  refine ⟨step_sound h.sound hk.1 hs, h.noneOld.step hk.2 hs, fun x => ?_⟩
  rw [hexcess, h.even, leaks_eq_zero h.noneOld]
  rfl

theorem Rpcs.Balanced.counts (h : s.Balanced) : s.Accounted := by
  have hexact : ∀ x, (s.conn x).refno = s.holders x := by
    intro x
    exact sub_eq_zero.mp (h.even x)
  refine ⟨hexact, fun n x hx _ hjobs hrecorded => ?_⟩
  have hlisted : s.listed x = 1 := by
    unfold Rpcs.listed
    rw [(h.sound.shape.listed n x hx).1, if_pos (Or.inl hx)]
  rw [hexact]
  unfold Rpcs.holders
  rw [hlisted, hjobs, hrecorded]
  rfl

/-- When no request for an old server is dispatched and no job is taken back that was handed over,
the references are those that are held. -/
theorem refno_accounted (sum : Bool) (nonce : UInt32) (procs : List Int32) {es : List RpcsEvent}
    (hm : Meets Rpcs.step (fun s e => s.keeps e = true ∧ s.current e = true) es
      (Rpcs.init sum nonce procs))
    (hr : runs Rpcs.step es (Rpcs.init sum nonce procs) = some s) : s.Accounted := by
  have h : s.Balanced := hm.invariant Rpcs.step (fun s e s' h hk hs => h.step hk hs)
    (balanced_init sum nonce procs) hr
  exact h.counts

theorem refno_accounted_example :
    ∃ s, runs Rpcs.step (oneRequest 0 5 ++ .replicate 5 (.go 0 0 [])) (Rpcs.init false 5 [0]) =
      some s ∧ s.Accounted := by
  have hr : (runs Rpcs.step (oneRequest 0 5 ++ .replicate 5 (.go 0 0 []))
      (Rpcs.init false 5 [0])).isSome = true := by decide
  obtain ⟨s, hs⟩ := Option.isSome_iff_exists.mp hr
  have hm : Meets Rpcs.step (fun s e => s.keeps e = true ∧ s.current e = true)
      (oneRequest 0 5 ++ .replicate 5 (.go 0 0 [])) (Rpcs.init false 5 [0]) := by decide
  exact ⟨s, hs, refno_accounted false 5 [0] hm hs⟩

/-- A request for an old server leaves its connection with a reference that nobody has. -/
theorem old_server_leaks :
    ∃ es s, runs Rpcs.step es (Rpcs.init false 5 [0]) = some s ∧ ¬ s.Accounted := by
  have hr : (runs Rpcs.step (oneRequest 0 7 ++ .replicate 2 (.go 0 0 []))
      (Rpcs.init false 5 [0])).map (fun s => decide ((s.conn 0).refno = s.holders 0)) =
        some false := by decide
  obtain ⟨s, hs, hne⟩ := Option.map_eq_some_iff.mp hr
  exact ⟨_, s, hs, fun h => of_decide_eq_false hne (h.exact 0)⟩

end Run

end Yfs.Rpc
