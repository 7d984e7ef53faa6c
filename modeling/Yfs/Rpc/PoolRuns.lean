import Yfs.Rpc.ThrPool

/-! What holds in every run of the thread pool: the jobs are taken in order and run once each, and
no thread waits for something that is there. -/
namespace Yfs.Rpc

open Effect

/-- The pills that the destructor of a pool of `n` workers has put into the queue. -/
def PoolStage.count (n : ℕ) : PoolStage → ℕ
  | .inUse => 0
  | .pills k => k
  | _ => n

namespace ThrPool

variable {n : ℕ} {s s' : ThrPool n} {e : PoolEvent n}

/-- The threads that are in `enq`. -/
def adders (s : ThrPool n) : List (Option ℕ) :=
  s.adding.map some ++
    match s.stage with
    | .pills _ => [none]
    | _ => []

/-- The destructor never goes past a worker that has not exited. -/
def Joined (n : ℕ) (workers : Fin n → PoolWorker) : PoolStage → Prop
  | .inUse => True
  | .pills k => k < n
  | .joining k => k < n ∧ ∀ i : Fin n, i.val < k → workers i = .exited
  | .returned => ∀ i, workers i = .exited

/-- What has been accepted is what has been taken and what is in the queue, in this order. -/
structure Books (s : ThrPool n) : Prop where
  max_eq : s.jobq.max = 100 * n
  room : 0 < n → s.jobq.q.length ≤ 100 * n
  order : s.taken.map Prod.snd ++ s.jobq.q =
    s.accepted.map some ++ List.replicate (s.stage.count n) none
  ids : (s.accepted ++ s.refused ++ s.adding).Nodup
  fresh : ∀ j ∈ s.accepted ++ s.refused ++ s.adding, j < s.calls
  jobs : ∀ j, (s.taken.map Prod.snd).count (some j) =
    s.finished.count j + tally s.workers (.running j)
  exits : ∀ i, s.taken.count (i, none) = if s.workers i = .exited then 1 else 0
  closed : s.stage ≠ .inUse → s.adding = []
  nonblocking : s.blockadd = false → s.adding = []
  joined : Joined n s.workers s.stage

/-- Who waits has a reason to: for every entry of the queue there is a worker that is not waiting,
and for every free place a thread that adds and is not waiting, but for `k` threads that have been
left out. -/
structure Awake (s : ThrPool n) (k : ℕ) : Prop where
  idle : ∀ i ∈ s.jobq.nonEmpty, s.workers i = .taking
  nodupIdle : s.jobq.nonEmpty.Nodup
  entries : s.jobq.nonEmpty ≠ [] →
    s.jobq.q.length + s.jobq.nonEmpty.length ≤ tally s.workers .taking
  adders : ∀ p ∈ s.jobq.hasSpace, p ∈ s.adders
  nodupAdders : s.jobq.hasSpace.Nodup
  places : s.jobq.hasSpace ≠ [] →
    s.jobq.max + s.jobq.hasSpace.length ≤ s.jobq.q.length + s.adders.length + k

theorem Awake.length_le {k : ℕ} (h : s.Awake k) : s.jobq.hasSpace.length ≤ s.adders.length :=
  h.nodupAdders.length_le_of_subset h.adders

/-- How a round of `enq` ends. -/
theorem enq_cases {T P W : Type} [DecidableEq P] [DecidableEq W] (f : Fifo T P W) (p : P) (e : T)
    (b : Bool) (w : W) :
    ((f.max = 0 ∨ f.q.length < f.max) ∧ f.enq p e b w =
        (.added, { f with q := f.q ++ [e], nonEmpty := f.nonEmpty.signal w })) ∨
      (b = true ∧ f.max ≤ f.q.length ∧
        f.enq p e b w = (.waits, { f with hasSpace := f.hasSpace.block p })) ∨
      b = false ∧ f.enq p e b w = (.full, f) := by
  unfold Fifo.enq
  by_cases hroom : f.max = 0 ∨ f.q.length < f.max
  · exact Or.inl ⟨hroom, if_pos hroom⟩
  · rw [if_neg hroom]
    rw [not_or, Nat.not_lt] at hroom
    cases b with
    | true => exact Or.inr (Or.inl ⟨rfl, hroom.2, rfl⟩)
    | false => exact Or.inr (Or.inr ⟨rfl, rfl⟩)

/-- The queue after an addition. The woken worker may take the new entry. -/
theorem Awake.added {k : ℕ} (h : s.Awake k) {e : Option ℕ} (w : Fin n)
    {f : Fifo (Option ℕ) (Option ℕ) (Fin n)} (hf : f =
      { s.jobq with q := s.jobq.q ++ [e], nonEmpty := s.jobq.nonEmpty.signal w }) :
    (∀ i ∈ f.nonEmpty, s.workers i = .taking) ∧ f.nonEmpty.Nodup ∧
      (f.nonEmpty ≠ [] → f.q.length + f.nonEmpty.length ≤ tally s.workers .taking) := by
  subst hf
  refine ⟨fun i hi => h.idle i (CondVar.mem_of_mem_signal hi),
    h.nodupIdle.sublist (CondVar.signal_sublist _ w), fun hne => ?_⟩
  have hlen := CondVar.length_signal s.jobq.nonEmpty w
  have hpos := CondVar.ne_nil_of_signal hne
  have hle := h.entries hpos
  have h1 := List.length_pos_iff.mpr hpos
  simp only [List.length_append, List.length_singleton, hlen]
  omega

/-- One more job is on the books. -/
theorem Books.extend (h : s.Books) {j : ℕ} {l : List ℕ} (hlt : j < s.calls)
    (hj : j ∉ s.accepted ++ s.refused ++ s.adding)
    (hl : List.Perm l (j :: (s.accepted ++ s.refused ++ s.adding))) :
    l.Nodup ∧ ∀ x ∈ l, x < s.calls := by
  refine ⟨hl.nodup_iff.mpr (List.nodup_cons.mpr ⟨hj, h.ids⟩), fun x hx => ?_⟩
  obtain rfl | hx := List.mem_cons.mp (hl.mem_iff.mp hx)
  · exact hlt
  · exact h.fresh x hx

theorem length_le_of_room (h : s.Books) (hroom : s.jobq.max = 0 ∨ s.jobq.q.length < s.jobq.max)
    (hn : 0 < n) (e : Option ℕ) : (s.jobq.q ++ [e]).length ≤ 100 * n := by
  have hmax := h.max_eq
  simp only [List.length_append, List.length_singleton]
  omega

theorem Books.addRound (h : s.Books) (hstage : s.stage = .inUse) {j : ℕ} (hlt : j < s.calls)
    (hj : j ∉ s.accepted ++ s.refused ++ s.adding) (w : Fin n) : (s.addRound j w).Books := by
  have hpills : s.stage.count n = 0 := by
    rw [hstage]
    rfl
  unfold ThrPool.addRound
  obtain ⟨hroom, heq⟩ | ⟨hb, -, heq⟩ | ⟨hb, heq⟩ :=
    enq_cases s.jobq (some j) (some j) s.blockadd w
  · rw [heq]
    have hids := h.extend (l := s.accepted ++ [j] ++ s.refused ++ s.adding) hlt hj (by
      simp only [List.append_assoc, List.singleton_append]
      exact List.perm_middle)
    refine ⟨h.max_eq, fun hn => length_le_of_room h hroom hn _, ?_, hids.1, hids.2, h.jobs,
      h.exits, h.closed, h.nonblocking, h.joined⟩
    have horder := h.order
    rw [hpills, List.replicate_zero, List.append_nil] at horder
    change s.taken.map Prod.snd ++ (s.jobq.q ++ [some j]) =
      (s.accepted ++ [j]).map some ++ List.replicate (s.stage.count n) none
    rw [hpills, ← List.append_assoc, horder]
    simp
  · rw [heq]
    have hids := h.extend (l := s.accepted ++ s.refused ++ j :: s.adding) hlt hj
      List.perm_middle
    exact ⟨h.max_eq, h.room, h.order, hids.1, hids.2, h.jobs, h.exits,
      fun hne => absurd hstage hne, fun hf => absurd (hb.symm.trans hf) (by decide), h.joined⟩
  · rw [heq]
    have hids := h.extend (l := s.accepted ++ j :: s.refused ++ s.adding) hlt hj (by
      simp only [List.append_assoc, List.cons_append]
      exact List.perm_middle)
    exact ⟨h.max_eq, h.room, h.order, hids.1, hids.2, h.jobs, h.exits, h.closed, h.nonblocking,
      h.joined⟩

theorem mem_adders_some {j : ℕ} : some j ∈ s.adders ↔ j ∈ s.adding := by
  unfold adders
  cases s.stage <;> simp

theorem Awake.addRound {k : ℕ} (h : s.Awake k) (hk : k ≤ 1) (hfull : s.blockadd = false → k = 0)
    {j : ℕ} (hj : j ∉ s.adding) (w : Fin n) : (s.addRound j w).Awake 0 := by
  have hwait : some j ∉ s.jobq.hasSpace := fun hmem => hj (mem_adders_some.mp (h.adders _ hmem))
  unfold ThrPool.addRound
  obtain ⟨hroom, heq⟩ | ⟨hb, hfull, heq⟩ | ⟨hb, heq⟩ :=
    enq_cases s.jobq (some j) (some j) s.blockadd w
  · rw [heq]
    obtain ⟨hidle, hnodup, hentries⟩ := h.added (e := some j) w rfl
    refine ⟨hidle, hnodup, hentries, h.adders, h.nodupAdders, fun hne => ?_⟩
    have hle := h.places hne
    change s.jobq.max + s.jobq.hasSpace.length ≤
      (s.jobq.q ++ [some j]).length + s.adders.length + 0
    simp only [List.length_append, List.length_singleton]
    omega
  · rw [heq]
    have hlen := h.length_le
    refine ⟨h.idle, h.nodupIdle, h.entries, fun p hp => ?_, List.nodup_cons.mpr
      ⟨hwait, h.nodupAdders⟩, fun _ => ?_⟩
    · obtain rfl | hp := List.mem_cons.mp hp
      · exact mem_adders_some.mpr List.mem_cons_self
      · exact List.mem_cons_of_mem _ (h.adders p hp)
    · change s.jobq.max + (some j :: s.jobq.hasSpace).length ≤
        s.jobq.q.length + (some j :: s.adders).length + 0
      simp only [List.length_cons]
      omega
  · rw [heq]
    rw [hfull hb] at h
    exact ⟨h.idle, h.nodupIdle, h.entries, h.adders, h.nodupAdders, h.places⟩

theorem Joined.mono {w w' : Fin n → PoolWorker} (h : ∀ i, w i = .exited → w' i = .exited)
    {stage : PoolStage} (hj : Joined n w stage) : Joined n w' stage := by
  cases stage with
  | inUse => trivial
  | pills k => exact hj
  | joining k => exact ⟨hj.1, fun i hi => h i (hj.2 i hi)⟩
  | returned => exact fun i => h i (hj i)

theorem exited_update {w : Fin n → PoolWorker} {i : Fin n} (hi : w i ≠ .exited) (c : PoolWorker) :
    ∀ i', w i' = .exited → Function.update w i c i' = .exited := by
  intro i' h
  rw [Function.update_of_ne, h]
  rintro rfl
  exact hi h

theorem afterTake_eq_running {x : Option ℕ} {j : ℕ} : afterTake x = .running j ↔ x = some j := by
  cases x <;> simp [afterTake]

theorem afterTake_eq_exited {x : Option ℕ} : afterTake x = .exited ↔ x = none := by
  cases x <;> simp [afterTake]

theorem afterTake_ne_taking (x : Option ℕ) : afterTake x ≠ .taking := by
  cases x <;> simp [afterTake]

theorem Books.takeRound (h : s.Books) {i : Fin n} (hi : s.workers i = .taking) (p : Option ℕ) :
    (s.takeRound i p).Books := by
  unfold ThrPool.takeRound Fifo.deq
  split
  · next f hf =>
    split at hf
    · cases hf
      exact ⟨h.max_eq, h.room, h.order, h.ids, h.fresh, h.jobs, h.exits, h.closed,
        h.nonblocking, h.joined⟩
    · cases hf
  · next x f hf =>
    split at hf
    · cases hf
    · next x' rest hq =>
      cases hf
      have hroom := h.room
      have horder := h.order
      rw [hq] at hroom horder
      refine ⟨h.max_eq, fun hn => (Nat.le_succ _).trans (hroom hn), ?_, h.ids, h.fresh,
        fun j => ?_, fun i' => ?_, h.closed, h.nonblocking,
        h.joined.mono (exited_update (by simp [hi]) _)⟩
      · simpa using horder
      · have hjobs := h.jobs j
        have htally := tally_update s.workers i (afterTake x) (.running j)
        simp only [hi, afterTake_eq_running] at htally
        simp only [List.map_append, List.map_cons, List.map_nil, List.count_append,
          List.count_singleton, beq_iff_eq, hjobs]
        simp at htally
        omega
      · have hexits := h.exits i'
        simp only [List.count_append, List.count_singleton, hexits, beq_iff_eq, Prod.mk.injEq]
        by_cases hii : i' = i
        · subst hii
          simp [hi, afterTake_eq_exited]
        · simp [hii, Ne.symm hii]

theorem Awake.takeRound (h : s.Awake 0) (hb : s.Books) {i : Fin n} (hi : s.workers i = .taking)
    (hwait : i ∉ s.jobq.nonEmpty) (p : Option ℕ) : (s.takeRound i p).Awake 0 := by
  unfold ThrPool.takeRound Fifo.deq
  split
  · next f hf =>
    split at hf
    · next hq =>
      cases hf
      have hidle : ∀ i' ∈ i :: s.jobq.nonEmpty, s.workers i' = .taking := by
        simp only [List.mem_cons, forall_eq_or_imp]
        exact ⟨hi, h.idle⟩
      have hnodup := List.nodup_cons.mpr ⟨hwait, h.nodupIdle⟩
      refine ⟨hidle, hnodup, fun _ => ?_, h.adders, h.nodupAdders, h.places⟩
      have hle := length_le_tally hnodup hidle
      simpa [hq, CondVar.block] using hle
    · cases hf
  · next x f hf =>
    split at hf
    · cases hf
    · next x' rest hq =>
      cases hf
      have htally := tally_update s.workers i (afterTake x) .taking
      rw [if_pos hi, if_neg (afterTake_ne_taking x)] at htally
      refine ⟨fun i' hi' => ?_, h.nodupIdle, fun hne => ?_, fun p' hp' => ?_, ?_, fun hne => ?_⟩
      · have hne : i' ≠ i := by
          rintro rfl
          exact hwait hi'
        exact (Function.update_of_ne hne _ _).trans (h.idle i' hi')
      · have hle := h.entries hne
        rw [hq] at hle
        simp only [List.length_cons] at hle
        change rest.length + s.jobq.nonEmpty.length ≤
          tally (Function.update s.workers i (afterTake x)) .taking
        omega
      · dsimp only at hp'
        split_ifs at hp'
        · exact h.adders p' (CondVar.mem_of_mem_signal hp')
        · exact h.adders p' hp'
      · dsimp only
        split_ifs
        · exact h.nodupAdders.sublist (CondVar.signal_sublist _ p)
        · exact h.nodupAdders
      · have hroom := hb.room (Fin.pos i)
        have hmax := hb.max_eq
        have hpos := Fin.pos i
        rw [hq, List.length_cons] at hroom
        have hspace : s.jobq.max ≠ 0 ∧ rest.length < s.jobq.max := by omega
        dsimp only at hne ⊢
        rw [if_pos hspace] at hne ⊢
        have hlen := CondVar.length_signal s.jobq.hasSpace p
        have hne' := CondVar.ne_nil_of_signal hne
        have hle := h.places hne'
        have h1 := List.length_pos_iff.mpr hne'
        rw [hq, List.length_cons] at hle
        rw [hlen]
        change s.jobq.max + (s.jobq.hasSpace.length - 1) ≤ rest.length + s.adders.length + 0
        omega

theorem Books.finish (h : s.Books) {i : Fin n} {j : ℕ} (hi : s.workers i = .running j) :
    ({ s with
      workers := Function.update s.workers i .taking
      finished := j :: s.finished } : ThrPool n).Books := by
  have hne : s.workers i ≠ .exited := by simp [hi]
  refine ⟨h.max_eq, h.room, h.order, h.ids, h.fresh, fun j' => ?_, fun i' => ?_, h.closed,
    h.nonblocking, h.joined.mono (exited_update hne _)⟩
  · have hjobs := h.jobs j'
    have htally := tally_update s.workers i .taking (.running j')
    simp only [hi, PoolWorker.running.injEq, reduceCtorEq, if_false] at htally
    simp only [hjobs, List.count_cons, beq_iff_eq]
    omega
  · by_cases hii : i' = i
    · subst hii
      simp [h.exits i', hi]
    · simp [h.exits i', hii]

theorem Awake.finish (h : s.Awake 0) {i : Fin n} {j : ℕ} (hi : s.workers i = .running j) :
    ({ s with
      workers := Function.update s.workers i .taking
      finished := j :: s.finished } : ThrPool n).Awake 0 := by
  have htally := tally_update s.workers i .taking .taking
  simp only [hi, reduceCtorEq, if_false, if_true] at htally
  refine ⟨fun i' hi' => ?_, h.nodupIdle, fun hne => ?_, h.adders, h.nodupAdders, h.places⟩
  · dsimp only
    rw [Function.update_apply]
    split_ifs
    · rfl
    · exact h.idle i' hi'
  · have hle := h.entries hne
    dsimp only
    omega

theorem count_pillsFrom {k : ℕ} (hk : k ≤ n) : (pillsFrom n k).count n = k := by
  unfold pillsFrom joinFrom
  split_ifs with h1 h2
  · rfl
  · change n = k
    omega
  · change n = k
    omega

theorem joined_joinFrom {w : Fin n → PoolWorker} {k : ℕ}
    (h : ∀ i : Fin n, i.val < k → w i = .exited) : Joined n w (joinFrom n k) := by
  unfold joinFrom
  split_ifs with hk
  · exact ⟨hk, h⟩
  · exact fun i => h i (by omega)

theorem joined_pillsFrom (w : Fin n → PoolWorker) (k : ℕ) : Joined n w (pillsFrom n k) := by
  unfold pillsFrom
  split_ifs with hk
  · exact hk
  · exact joined_joinFrom fun i hi => absurd hi (Nat.not_lt_zero _)

/-- Once the destructor has been called, it is the only one that can wait to add. -/
theorem hasSpace_nil {k : ℕ} (h : s.Awake k) (hadding : s.adding = [])
    (hnone : none ∉ s.jobq.hasSpace) : s.jobq.hasSpace = [] := by
  rw [List.eq_nil_iff_forall_not_mem]
  intro p hp
  cases p with
  | none => exact hnone hp
  | some j =>
    have hj := mem_adders_some.mp (h.adders _ hp)
    rw [hadding] at hj
    cases hj

theorem Books.pillRound (h : s.Books) {k : ℕ} (hstage : s.stage = .pills k) (w : Fin n) :
    (s.pillRound k w).Books := by
  have hjoined := h.joined
  rw [hstage] at hjoined
  have hk : k < n := hjoined
  have hnil : s.adding = [] := h.closed (by simp [hstage])
  unfold ThrPool.pillRound
  obtain ⟨hroom, heq⟩ | ⟨-, -, heq⟩ | ⟨hb, heq⟩ := enq_cases s.jobq none none true w
  · rw [heq]
    refine ⟨h.max_eq, fun hn => length_le_of_room h hroom hn _, ?_, h.ids, h.fresh, h.jobs,
      h.exits, fun _ => hnil, h.nonblocking, joined_pillsFrom _ _⟩
    have horder := h.order
    rw [hstage] at horder
    change s.taken.map Prod.snd ++ (s.jobq.q ++ [none]) =
      s.accepted.map some ++ List.replicate ((pillsFrom n (k + 1)).count n) none
    rw [count_pillsFrom hk, ← List.append_assoc, horder, List.append_assoc]
    exact congrArg _ List.replicate_succ'.symm
  · rw [heq]
    exact ⟨h.max_eq, h.room, h.order, h.ids, h.fresh, h.jobs, h.exits, h.closed, h.nonblocking,
      h.joined⟩
  · cases hb

theorem Awake.pillRound (h : s.Awake 0) {k : ℕ} (hstage : s.stage = .pills k)
    (hadding : s.adding = []) (hnone : none ∉ s.jobq.hasSpace) (w : Fin n) :
    (s.pillRound k w).Awake 0 := by
  have hnil := hasSpace_nil h hadding hnone
  unfold ThrPool.pillRound
  obtain ⟨-, heq⟩ | ⟨-, hfull, heq⟩ | ⟨hb, heq⟩ := enq_cases s.jobq none none true w
  · rw [heq]
    obtain ⟨hidle, hnodup, hentries⟩ := h.added (e := none) w rfl
    exact ⟨hidle, hnodup, hentries, by simp [hnil], by simp [hnil], by simp [hnil]⟩
  · rw [heq]
    refine ⟨h.idle, h.nodupIdle, h.entries, ?_, ?_, fun _ => ?_⟩
    · simp [hnil, CondVar.block, ThrPool.adders, hstage]
    · simp [hnil, CondVar.block]
    · simp only [hnil, CondVar.block, ThrPool.adders, hstage, hadding, List.map_nil,
        List.nil_append, List.length_singleton]
      omega
  · cases hb

theorem adders_of_stage {stage : PoolStage} (hadding : s.adding = [])
    (hstage : ∀ k, s.stage ≠ .pills k) (h : s.Awake 0) :
    ({ s with stage := stage } : ThrPool n).Awake 0 := by
  have hnil : s.jobq.hasSpace = [] := by
    apply hasSpace_nil h hadding
    intro hmem
    have hmem' := h.adders _ hmem
    unfold adders at hmem'
    rw [hadding] at hmem'
    revert hmem'
    cases hs : s.stage with
    | pills k => exact absurd hs (hstage k)
    | inUse => simp
    | joining k => simp
    | returned => simp
  exact ⟨h.idle, h.nodupIdle, h.entries, by simp [hnil], by simp [hnil], by simp [hnil]⟩

/-- A thread that waits to add may be left out: only jobs that block wait, and only while the pool
is in use. -/
theorem Books.unwait (h : s.Books) {j : ℕ} (hj : j ∈ s.adding) :
    s.stage = .inUse ∧ s.blockadd = true ∧ j < s.calls ∧
      j ∉ s.accepted ++ s.refused ++ s.adding.erase j ∧
      ({ s with adding := s.adding.erase j } : ThrPool n).Books := by
  have hne : s.adding ≠ [] := List.ne_nil_of_mem hj
  have hstage : s.stage = .inUse := by
    by_contra hout
    exact hne (h.closed hout)
  have hperm : List.Perm (s.accepted ++ s.refused ++ s.adding)
      (j :: (s.accepted ++ s.refused ++ s.adding.erase j)) :=
    (List.Perm.append_left _ (List.perm_cons_erase hj)).trans List.perm_middle
  have hnodup := List.nodup_cons.mp (hperm.nodup_iff.mp h.ids)
  have hfresh : ∀ x ∈ j :: (s.accepted ++ s.refused ++ s.adding.erase j), x < s.calls :=
    fun x hx => h.fresh x (hperm.mem_iff.mpr hx)
  refine ⟨hstage, ?_, hfresh j List.mem_cons_self, hnodup.1, { h with
    ids := hnodup.2
    fresh := fun x hx => hfresh x (List.mem_cons_of_mem _ hx)
    closed := fun hout => absurd hstage hout
    nonblocking := fun hf => absurd (h.nonblocking hf) hne }⟩
  cases hblock : s.blockadd with
  | true => rfl
  | false => exact absurd (h.nonblocking hblock) hne

theorem Awake.unwait (h : s.Awake 0) (hstage : s.stage = .inUse) {j : ℕ} (hj : j ∈ s.adding)
    (hwait : some j ∉ s.jobq.hasSpace) :
    ({ s with adding := s.adding.erase j } : ThrPool n).Awake 1 := by
  refine ⟨h.idle, h.nodupIdle, h.entries, fun p hp => ?_, h.nodupAdders, fun hne => ?_⟩
  · have hp' := h.adders p hp
    simp only [ThrPool.adders, hstage, List.append_nil, List.mem_map] at hp' ⊢
    obtain ⟨x, hx, rfl⟩ := hp'
    have hxj : x ≠ j := by
      rintro rfl
      exact hwait hp
    exact ⟨x, (List.mem_erase_of_ne hxj).mpr hx, rfl⟩
  · have hle := h.places hne
    have hlen := List.length_erase_of_mem hj
    have hpos := List.length_pos_of_mem hj
    simp only [ThrPool.adders, hstage, List.append_nil, List.length_map] at hle ⊢
    omega

theorem Books.destroy (h : s.Books) (hstage : s.stage = .inUse) (hadding : s.adding = []) :
    ({ s with stage := pillsFrom n 0 } : ThrPool n).Books := by
  refine { h with
    order := ?_
    closed := fun _ => hadding
    joined := joined_pillsFrom _ _ }
  have horder := h.order
  rw [hstage] at horder
  rw [count_pillsFrom (Nat.zero_le n)]
  exact horder

theorem count_joinFrom (k : ℕ) : (joinFrom n k).count n = n := by
  unfold joinFrom
  split_ifs
  · rfl
  · rfl

theorem Books.join (h : s.Books) {k : ℕ} (hk : s.stage = .joining k)
    (hexit : ∀ i : Fin n, i.val = k → s.workers i = .exited) :
    ({ s with stage := joinFrom n (k + 1) } : ThrPool n).Books := by
  have hjoined := h.joined
  have horder := h.order
  rw [hk] at hjoined horder
  refine { h with
    order := ?_
    closed := fun _ => h.closed (by simp [hk])
    joined := joined_joinFrom fun i hi => ?_ }
  · rw [count_joinFrom]
    exact horder
  · obtain hlt | heq := Nat.lt_succ_iff_lt_or_eq.mp hi
    · exact hjoined.2 i hlt
    · exact hexit i heq

/-- A thread that wakes without a signal looks again. -/
theorem Awake.stirAdd (h : s.Awake 0) (p : Option ℕ) :
    ({ s with jobq := { s.jobq with hasSpace := s.jobq.hasSpace.stir p } } :
      ThrPool n).Awake 0 := by
  refine ⟨h.idle, h.nodupIdle, h.entries, fun p' hp' => ?_, ?_, fun hne => ?_⟩
  · exact h.adders p' (CondVar.mem_of_mem_stir hp')
  · exact h.nodupAdders.sublist (CondVar.stir_sublist _ p)
  · have hle := h.places (CondVar.ne_nil_of_stir hne)
    have hlen := CondVar.length_stir_le s.jobq.hasSpace p
    change s.jobq.max + (s.jobq.hasSpace.stir p).length ≤
      s.jobq.q.length + s.adders.length + 0
    omega

theorem Awake.stirTake (h : s.Awake 0) (i : Fin n) :
    ({ s with jobq := { s.jobq with nonEmpty := s.jobq.nonEmpty.stir i } } :
      ThrPool n).Awake 0 := by
  refine ⟨fun i' hi' => h.idle i' (CondVar.mem_of_mem_stir hi'),
    h.nodupIdle.sublist (CondVar.stir_sublist _ i), fun hne => ?_, h.adders, h.nodupAdders,
    h.places⟩
  have hle := h.entries (CondVar.ne_nil_of_stir hne)
  have hlen := CondVar.length_stir_le s.jobq.nonEmpty i
  dsimp only
  omega

/-- What holds at any time. -/
structure Sound (s : ThrPool n) : Prop where
  books : s.Books
  awake : s.Awake 0

theorem Sound.step (h : s.Sound) (hs : s.step e = some s') : s'.Sound := by
  obtain ⟨hb, ha⟩ := h
  cases e with
  | addJob w =>
    simp only [ThrPool.step, Option.ite_none_right_eq_some, Option.some.injEq] at hs
    obtain ⟨hstage, rfl⟩ := hs
    have hfresh : s.calls ∉ s.accepted ++ s.refused ++ s.adding :=
      fun hmem => absurd (hb.fresh _ hmem) (Nat.lt_irrefl _)
    have hnew : ({ s with calls := s.calls + 1 } : ThrPool n).Books :=
      { hb with fresh := fun j hj => Nat.lt_succ_of_lt (hb.fresh j hj) }
    have hnewAwake : ({ s with calls := s.calls + 1 } : ThrPool n).Awake 0 := { ha with }
    exact ⟨hnew.addRound hstage (Nat.lt_succ_self _) hfresh w,
      hnewAwake.addRound (Nat.zero_le _) (fun _ => rfl)
        (fun hmem => hfresh (List.mem_append_right _ hmem)) w⟩
  | retry j w =>
    simp only [ThrPool.step, Option.ite_none_right_eq_some, Option.some.injEq] at hs
    obtain ⟨⟨hj, hwait⟩, rfl⟩ := hs
    obtain ⟨hstage, hblock, hlt, hfresh, hold⟩ := hb.unwait hj
    refine ⟨hold.addRound hstage hlt hfresh w,
      (ha.unwait hstage hj hwait).addRound le_rfl (fun hf => ?_) (fun hmem => ?_) w⟩
    · exact absurd (hblock.symm.trans hf) (by decide)
    · exact hfresh (List.mem_append_right _ hmem)
  | takeJob i p =>
    simp only [ThrPool.step, Option.ite_none_right_eq_some, Option.some.injEq] at hs
    obtain ⟨⟨hi, hwait⟩, rfl⟩ := hs
    exact ⟨hb.takeRound hi p, ha.takeRound hb hi hwait p⟩
  | finish i =>
    simp only [ThrPool.step] at hs
    split at hs
    · next j hi =>
      obtain rfl := Option.some.inj hs
      exact ⟨hb.finish hi, ha.finish hi⟩
    · cases hs
  | destroy =>
    simp only [ThrPool.step, Option.ite_none_right_eq_some, Option.some.injEq] at hs
    obtain ⟨⟨hstage, hadding⟩, rfl⟩ := hs
    exact ⟨hb.destroy hstage hadding, adders_of_stage hadding (by simp [hstage]) ha⟩
  | pill w =>
    simp only [ThrPool.step] at hs
    split at hs
    · next k hk =>
      simp only [Option.ite_none_right_eq_some, Option.some.injEq] at hs
      obtain ⟨hnone, rfl⟩ := hs
      exact ⟨hb.pillRound hk w, ha.pillRound hk (hb.closed (by simp [hk])) hnone w⟩
    · cases hs
  | join =>
    simp only [ThrPool.step] at hs
    split at hs
    · next k hk =>
      simp only [Option.ite_none_right_eq_some, Option.some.injEq] at hs
      obtain ⟨hexit, rfl⟩ := hs
      exact ⟨hb.join hk hexit, adders_of_stage (hb.closed (by simp [hk])) (by simp [hk]) ha⟩
    · cases hs
  | stirAdd p =>
    obtain rfl := Option.some.inj hs
    exact ⟨{ hb with }, ha.stirAdd p⟩
  | stirTake i =>
    obtain rfl := Option.some.inj hs
    exact ⟨{ hb with }, ha.stirTake i⟩

theorem Sound.start (n : ℕ) (blocking : Bool) : (start n blocking).Sound where
  books :=
    { max_eq := rfl
      room := fun _ => Nat.zero_le _
      order := rfl
      ids := List.nodup_nil
      fresh := by simp [ThrPool.start]
      jobs := fun j => by simp [ThrPool.start, tally]
      exits := fun i => by simp [ThrPool.start]
      closed := fun _ => rfl
      nonblocking := fun _ => rfl
      joined := trivial }
  awake :=
    { idle := by simp [ThrPool.start, Fifo.new]
      nodupIdle := List.nodup_nil
      entries := fun hne => absurd rfl hne
      adders := by simp [ThrPool.start, Fifo.new]
      nodupAdders := List.nodup_nil
      places := fun hne => absurd rfl hne }

end ThrPool

end Yfs.Rpc
