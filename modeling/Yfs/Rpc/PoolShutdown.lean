import Yfs.Rpc.PoolRuns

/-! The destructor of the thread pool comes to its end, and what it then leaves. -/
namespace Yfs.Rpc

open Effect
open scoped BigOperators

/-- A wake-up without a signal. -/
def PoolEvent.Spurious {n : ℕ} : PoolEvent n → Prop
  | .stirAdd _ | .stirTake _ => True
  | _ => False

/-- The joins that a destructor has before it. -/
def PoolStage.joins (n : ℕ) : PoolStage → ℕ
  | .joining k => n - k
  | .returned => 0
  | _ => n

/-- Does the worker have a job? -/
def PoolWorker.load : PoolWorker → ℕ
  | .running _ => 1
  | _ => 0

theorem load_taking : PoolWorker.taking.load = 0 := rfl

theorem load_running (j : ℕ) : (PoolWorker.running j).load = 1 := rfl

namespace ThrPool

variable {n : ℕ} {s s' : ThrPool n} {e : PoolEvent n}

theorem Books.exits_eq (h : s.Books) :
    (s.taken.map Prod.snd).count none = tally s.workers .exited := by
  rw [count_map_snd, tally]
  exact Finset.sum_congr rfl fun i _ => h.exits i

/-- The pills that have been taken and those in the queue. -/
theorem Books.pills_eq (h : s.Books) :
    tally s.workers .exited + s.jobq.q.count none = s.stage.count n := by
  have hcount := congrArg (List.count none) h.order
  have hmap : (s.accepted.map some).count (none : Option ℕ) = 0 :=
    List.count_eq_zero.mpr (by simp)
  rw [List.count_append, List.count_append, h.exits_eq, hmap] at hcount
  simpa using hcount

theorem Books.jobs_eq (h : s.Books) (j : ℕ) :
    s.finished.count j + tally s.workers (.running j) + s.jobq.q.count (some j) =
      s.accepted.count j := by
  have hcount := congrArg (List.count (some j)) h.order
  rw [List.count_append, List.count_append, h.jobs] at hcount
  have hmap : (s.accepted.map some).count (some j) = s.accepted.count j :=
    List.count_map_of_injective _ _ (Option.some_injective ℕ) _
  have hnone : (List.replicate (s.stage.count n) (none : Option ℕ)).count (some j) = 0 :=
    List.count_eq_zero.mpr (by simp)
  omega

/-- Behind the last pill there is nothing. -/
theorem Books.queue_nil (h : s.Books) (hn : 0 < s.stage.count n)
    (hnone : s.jobq.q.count none = 0) : s.jobq.q = [] := by
  by_contra hne
  have hlast := congrArg List.getLast? h.order
  rw [List.getLast?_append_of_ne_nil _ hne, List.getLast?_append_of_ne_nil _ (by simp; omega),
    List.getLast?_replicate, if_neg (by omega)] at hlast
  have hmem := List.mem_of_getLast? hlast
  exact List.count_eq_zero.mp hnone hmem

theorem Books.taken_prefix (h : s.Books) : s.taken.filterMap Prod.snd <+: s.accepted := by
  have hpre : s.taken.map Prod.snd <+:
      s.accepted.map some ++ List.replicate (s.stage.count n) none := ⟨_, h.order⟩
  have hmap := hpre.filterMap id
  rw [List.filterMap_append, List.filterMap_map, List.filterMap_map] at hmap
  simpa using hmap

/-- While the destructor is on its way, some thread can go on. -/
theorem Sound.not_stuck (h : s.Sound) (hn : 0 < n) (huse : s.stage ≠ .inUse)
    (hret : s.stage ≠ .returned) : ∃ e s', ¬ e.Spurious ∧ s.step e = some s' := by
  by_contra hstuck
  have hnone : ∀ e : PoolEvent n, ¬ e.Spurious → s.step e = none := by
    intro e he
    cases hs : s.step e with
    | none => rfl
    | some s' => exact absurd ⟨e, s', he, hs⟩ hstuck
  obtain ⟨hb, ha⟩ := h
  have hrun : ∀ i j, s.workers i ≠ .running j := by
    intro i j hi
    have hs := hnone (.finish i) id
    simp [ThrPool.step, hi] at hs
  have htake : ∀ i, s.workers i = .taking → i ∈ s.jobq.nonEmpty := by
    intro i hi
    have hs := hnone (.takeJob i none) id
    simpa [ThrPool.step, hi] using hs
  have hle := tally_le_length htake
  have hqueue : s.jobq.nonEmpty ≠ [] → s.jobq.q = [] := by
    intro hne
    have hentries := ha.entries hne
    apply List.eq_nil_of_length_eq_zero
    omega
  have hpills := hb.pills_eq
  have hjoined := hb.joined
  cases hstage : s.stage with
  | inUse => exact huse hstage
  | returned => exact hret hstage
  | pills k =>
    rw [hstage] at hpills hjoined
    have hk : k < n := hjoined
    have hmem : none ∈ s.jobq.hasSpace := by
      have hs := hnone (.pill ⟨0, hn⟩) id
      simpa [ThrPool.step, hstage] using hs
    -- the queue is full, so all workers have exited, but not all pills are in
    have hplaces := ha.places (List.ne_nil_of_mem hmem)
    have hmax := hb.max_eq
    have hadders : s.adders.length = 1 := by
      simp [adders, hstage, hb.closed huse]
    have hpos := List.length_pos_of_mem hmem
    have hfull : s.jobq.q ≠ [] := by
      intro hnil
      rw [hnil, List.length_nil] at hplaces
      omega
    have hidle : s.jobq.nonEmpty = [] := by
      by_contra hne
      exact hfull (hqueue hne)
    have hall : ∀ i, s.workers i = .exited := by
      intro i
      cases hi : s.workers i with
      | taking =>
        have hi' := htake i hi
        rw [hidle] at hi'
        cases hi'
      | running j => exact absurd hi (hrun i j)
      | exited => rfl
    rw [tally_eq_all.mpr hall, Fintype.card_fin] at hpills
    change n + _ = k at hpills
    omega
  | joining k =>
    rw [hstage] at hpills hjoined
    have hs := hnone .join id
    simp only [ThrPool.step, hstage, ite_eq_right_iff, reduceCtorEq, imp_false, not_forall] at hs
    obtain ⟨i, -, hi⟩ := hs
    have hmem : i ∈ s.jobq.nonEmpty := by
      cases hw : s.workers i with
      | taking => exact htake i hw
      | running j => exact absurd hw (hrun i j)
      | exited => exact absurd hw hi
    rw [hqueue (List.ne_nil_of_mem hmem)] at hpills
    have hall : tally s.workers .exited = Fintype.card (Fin n) := by
      rw [Fintype.card_fin]
      exact hpills
    exact hi (tally_eq_all.mp hall i)

/-- A bound on the steps that are left. A pill to come counts for its way through the queue, an
entry for the work of the worker that takes it. -/
def work (s : ThrPool n) : ℕ :=
  5 * (n - s.stage.count n) + 3 * s.jobq.q.length + 2 * ∑ i, (s.workers i).load +
    (tally s.workers .taking - s.jobq.nonEmpty.length) +
    (s.adders.length - s.jobq.hasSpace.length) + s.stage.joins n

theorem Sound.work_takeRound (h : s.Sound) {i : Fin n} (hi : s.workers i = .taking)
    (hwait : i ∉ s.jobq.nonEmpty) (p : Option ℕ) : (s.takeRound i p).work < s.work := by
  obtain ⟨hb, ha⟩ := h
  have hlt := length_le_tally (List.nodup_cons.mpr ⟨hwait, ha.nodupIdle⟩) (by
    simp only [List.mem_cons, forall_eq_or_imp]
    exact ⟨hi, ha.idle⟩)
  rw [List.length_cons] at hlt
  unfold ThrPool.takeRound Fifo.deq
  split
  · next f hf =>
    split at hf
    · cases hf
      simp only [work, CondVar.block, List.length_cons, adders]
      omega
    · cases hf
  · next x f hf =>
    split at hf
    · cases hf
    · next x' rest hq =>
      cases hf
      have htally := tally_update s.workers i (afterTake x) .taking
      rw [if_pos hi, if_neg (afterTake_ne_taking x)] at htally
      have hload := sum_update PoolWorker.load s.workers i (afterTake x)
      have hone : (afterTake x).load ≤ 1 := by
        cases x <;> simp [afterTake, PoolWorker.load]
      have hspace : s.jobq.hasSpace.length ≤ (if s.jobq.max ≠ 0 ∧ rest.length < s.jobq.max then
          s.jobq.hasSpace.signal p else s.jobq.hasSpace).length + 1 := by
        split_ifs
        · rw [CondVar.length_signal]
          omega
        · omega
      rw [hi, load_taking] at hload
      simp only [work, hq, List.length_cons, adders]
      omega

theorem work_finish {i : Fin n} {j : ℕ} (hi : s.workers i = .running j) :
    ({ s with
      workers := Function.update s.workers i .taking
      finished := j :: s.finished } : ThrPool n).work < s.work := by
  have htally := tally_update s.workers i .taking .taking
  have hload := sum_update PoolWorker.load s.workers i .taking
  simp only [hi, reduceCtorEq, if_false, if_true] at htally
  rw [hi, load_running, load_taking] at hload
  simp only [work, adders]
  omega

theorem joins_pillsFrom {k : ℕ} : (pillsFrom n k).joins n = n := by
  unfold pillsFrom joinFrom
  split_ifs with h1 h2
  · rfl
  · exact Nat.sub_zero n
  · change 0 = n
    omega

theorem Sound.work_pillRound (h : s.Sound) {k : ℕ} (hstage : s.stage = .pills k)
    (hnone : none ∉ s.jobq.hasSpace) (w : Fin n) : (s.pillRound k w).work < s.work := by
  obtain ⟨hb, ha⟩ := h
  have hadding : s.adding = [] := hb.closed (by simp [hstage])
  have hnil := hasSpace_nil ha hadding hnone
  have hjoined := hb.joined
  rw [hstage] at hjoined
  have hk : k < n := hjoined
  unfold ThrPool.pillRound
  obtain ⟨-, heq⟩ | ⟨-, -, heq⟩ | ⟨hf, heq⟩ := enq_cases s.jobq none none true w
  · rw [heq]
    have hlen := CondVar.length_signal s.jobq.nonEmpty w
    have hadders : ({ s with stage := pillsFrom n (k + 1) } : ThrPool n).adders.length ≤ 1 := by
      simp only [adders, hadding, List.map_nil, List.nil_append]
      split <;> simp
    have hcount : (PoolStage.pills k).count n = k := rfl
    have hjoins : (PoolStage.pills k).joins n = n := rfl
    simp only [adders] at hadders
    simp only [work, hnil, hstage, adders, hadding, count_pillsFrom hk, joins_pillsFrom, hcount,
      hjoins, hlen, List.length_append, List.length_singleton, List.length_nil, List.map_nil]
      at hadders ⊢
    omega
  · rw [heq]
    simp only [work, hnil, hstage, adders, hadding, CondVar.block, List.map_nil, List.nil_append,
      List.length_singleton, List.length_nil]
    omega
  · cases hf

/-- The destructor does not end early: once it has been called, every step but a spurious wake-up
brings it nearer to its end. -/
theorem Sound.work_step (h : s.Sound) (huse : s.stage ≠ .inUse) (he : ¬ e.Spurious)
    (hs : s.step e = some s') : s'.work < s.work ∧ s'.stage ≠ .inUse := by
  have hadding := h.books.closed huse
  cases e with
  | addJob w => simp [ThrPool.step, huse] at hs
  | retry j w => simp [ThrPool.step, hadding] at hs
  | takeJob i p =>
    simp only [ThrPool.step, Option.ite_none_right_eq_some, Option.some.injEq] at hs
    obtain ⟨⟨hi, hwait⟩, rfl⟩ := hs
    refine ⟨h.work_takeRound hi hwait p, ?_⟩
    have hsame : (s.takeRound i p).stage = s.stage := by
      unfold ThrPool.takeRound
      split
      · rfl
      · rfl
    rwa [hsame]
  | finish i =>
    simp only [ThrPool.step] at hs
    split at hs
    · next j hi =>
      obtain rfl := Option.some.inj hs
      exact ⟨work_finish hi, huse⟩
    · cases hs
  | destroy => simp [ThrPool.step, huse] at hs
  | pill w =>
    simp only [ThrPool.step] at hs
    split at hs
    · next k hk =>
      simp only [Option.ite_none_right_eq_some, Option.some.injEq] at hs
      obtain ⟨hnone, rfl⟩ := hs
      refine ⟨h.work_pillRound hk hnone w, ?_⟩
      unfold ThrPool.pillRound
      split
      · unfold pillsFrom joinFrom
        dsimp only
        split_ifs <;> simp
      · exact huse
    · cases hs
  | join =>
    simp only [ThrPool.step] at hs
    split at hs
    · next k hk =>
      simp only [Option.ite_none_right_eq_some, Option.some.injEq] at hs
      obtain ⟨-, rfl⟩ := hs
      have hjoined := h.books.joined
      rw [hk] at hjoined
      have hlt : k < n := hjoined.1
      unfold joinFrom
      split_ifs with hk1
      · refine ⟨?_, by simp⟩
        simp only [work, hk, adders, PoolStage.count, PoolStage.joins]
        omega
      · refine ⟨?_, by simp⟩
        simp only [work, hk, adders, PoolStage.count, PoolStage.joins]
        omega
    · cases hs
  | stirAdd p => exact absurd trivial he
  | stirTake i => exact absurd trivial he

theorem Sound.work_run (h : s.Sound) (huse : s.stage ≠ .inUse) {more : List (PoolEvent n)}
    (hmore : ∀ e ∈ more, ¬ e.Spurious) (hs : runs ThrPool.step more s = some s') :
    s'.Sound ∧ s'.stage ≠ .inUse ∧ more.length + s'.work ≤ s.work := by
  induction more generalizing s with
  | nil =>
    cases hs
    exact ⟨h, huse, by simp⟩
  | cons e more ih =>
    obtain ⟨m, hm, hs⟩ := (runs_cons_eq_some ThrPool.step).mp hs
    obtain ⟨hlt, hmuse⟩ := h.work_step huse (hmore e List.mem_cons_self) hm
    obtain ⟨hsound, huse', hle⟩ :=
      ih (h.step hm) hmuse (fun e he => hmore e (List.mem_cons_of_mem _ he)) hs
    refine ⟨hsound, huse', ?_⟩
    rw [List.length_cons]
    omega

/-- What the destructor leaves when it returns. -/
theorem Books.returned (h : s.Books) (hn : 0 < n) (hret : s.stage = .returned) :
    s.jobq.q = [] ∧ (∀ i, s.workers i = .exited ∧ s.taken.count (i, none) = 1) ∧
      ∀ j, s.finished.count j = s.accepted.count j := by
  have hall := h.joined
  rw [hret] at hall
  have hpills := h.pills_eq
  rw [hret, tally_eq_all.mpr hall, Fintype.card_fin] at hpills
  have hnone : s.jobq.q.count none = 0 := by
    change n + _ = n at hpills
    omega
  have hcount : 0 < s.stage.count n := by
    rw [hret]
    exact hn
  have hqueue := h.queue_nil hcount hnone
  refine ⟨hqueue, fun i => ⟨hall i, ?_⟩, fun j => ?_⟩
  · rw [h.exits, if_pos (hall i)]
  · have hjobs := h.jobs_eq j
    have hrun : tally s.workers (.running j) = 0 := by
      rw [tally_eq_zero]
      intro i
      simp [hall i]
    rw [hqueue, List.count_nil] at hjobs
    omega

end ThrPool

/-- Jobs are taken in the order in which they were accepted, the queue is bounded, and a refused
job is not run. When the destructor returns, every accepted job has been run once, every worker has
exited after one pill, and the queue is empty; and it returns, however the threads take turns. -/
theorem pool_runs_jobs_once (n : ℕ) (hn : 1 ≤ n) (blocking : Bool) {events : List (PoolEvent n)}
    {s : ThrPool n} (hrun : runs ThrPool.step events (.start n blocking) = some s) :
    (s.taken.filterMap Prod.snd <+: s.accepted ∧ s.accepted.Nodup ∧
      s.jobq.q.length ≤ 100 * n ∧
      ∀ j ∈ s.refused, j ∉ s.taken.filterMap Prod.snd ∧ j ∉ s.finished) ∧
    (s.stage = .returned → (∀ j ∈ s.accepted, s.finished.count j = 1) ∧
      (∀ i, s.workers i = .exited ∧ s.taken.count (i, none) = 1) ∧ s.jobq.q = []) ∧
    (s.stage ≠ .inUse → ∀ more s', (∀ e ∈ more, ¬ e.Spurious) →
      runs ThrPool.step more s = some s' → more.length ≤ s.work ∧
        (s'.stage = .returned ∨ ∃ e s'', ¬ e.Spurious ∧ s'.step e = some s'')) := by
  have hsound := runs_invariant ThrPool.step (fun _ _ _ h hs => ThrPool.Sound.step h hs)
    (ThrPool.Sound.start n blocking) hrun
  have hb := hsound.books
  have hids := List.nodup_append.mp (List.nodup_append.mp hb.ids).1
  refine ⟨⟨hb.taken_prefix, hids.1, hb.room hn, fun j hj => ?_⟩, fun hret => ?_,
    fun huse more s' hmore hs => ?_⟩
  · have hnot : j ∉ s.accepted := fun hacc => hids.2.2 j hacc j hj rfl
    refine ⟨fun htaken => hnot (hb.taken_prefix.subset htaken), fun hfin => hnot ?_⟩
    have hjobs := hb.jobs_eq j
    have hpos := List.count_pos_iff.mpr hfin
    exact List.count_pos_iff.mp (by omega)
  · obtain ⟨hqueue, hexit, hcount⟩ := hb.returned hn hret
    refine ⟨fun j hj => ?_, hexit, hqueue⟩
    rw [hcount]
    exact List.count_eq_one_of_mem hids.1 hj
  · obtain ⟨hsound', huse', hle⟩ := hsound.work_run huse hmore hs
    refine ⟨by omega, ?_⟩
    by_cases hret : s'.stage = .returned
    · exact Or.inl hret
    · exact Or.inr (hsound'.not_stuck hn huse' hret)

/-- One worker, one job, and the end of the pool. -/
def onePool : List (PoolEvent 1) :=
  [.takeJob 0 none, .addJob 0, .takeJob 0 none, .destroy, .pill 0, .finish 0, .takeJob 0 none,
    .join]

theorem pool_runs_jobs_once_example :
    ∃ s, runs ThrPool.step onePool (.start 1 true) = some s ∧ s.accepted = [0] ∧
      s.stage = .returned ∧ (∀ j ∈ s.accepted, s.finished.count j = 1) ∧
      (∀ i, s.workers i = .exited ∧ s.taken.count (i, none) = 1) ∧ s.jobq.q = [] := by
  have hrun : ∃ s, runs ThrPool.step onePool (.start 1 true) = some s ∧ s.accepted = [0] ∧
      s.stage = .returned := ⟨_, rfl, rfl, rfl⟩
  obtain ⟨s, hs, hacc, hret⟩ := hrun
  exact ⟨s, hs, hacc, hret, (pool_runs_jobs_once 1 le_rfl true hs).2.1 hret⟩

end Yfs.Rpc
