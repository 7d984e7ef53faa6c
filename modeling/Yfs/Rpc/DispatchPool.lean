import Yfs.Rpc.PoolRuns
import Yfs.Rpc.Progress

/-! `rpcs` with the thread pool that serves its jobs. -/
namespace Yfs.Rpc
open Effect

/-- A server and its `dispatchpool_`; `job` are the contents of the jobs, which the pool numbers. -/
structure Pooled where
  rpcs : Rpcs
  pool : ThrPool 6
  job : ℕ → Job

/-- `gotPdu` and `take` are the two ends of the queue, with the threads that their signals wake. -/
inductive PooledEvent where
  | gotPdu (c : ℕ) (buf : ℕ → UInt8) (sz : ℕ) (w : Worker)
  | take (i : Worker) (p : Option ℕ)
  | go (i : Worker) (ret : Int32) (body : List UInt8)
  | stir (i : Worker)
  | other (e : RpcsEvent)

/-- The events of a server that do not concern its pool. -/
def RpcsEvent.aside : RpcsEvent → Bool
  | .gotPdu .. => false
  | .take _ => false
  | .go .. => false
  | _ => true

namespace Pooled

def init (sum : Bool) (nonce : UInt32) (procs : List Int32) : Pooled where
  rpcs := .init sum nonce procs
  pool := .start 6 false
  job _ := ⟨0, fun _ => 0, 0⟩

/-- A job is given to the pool, and `addObjJob` tells whether it has room. -/
def arrive (s : Pooled) (c : ℕ) (buf : ℕ → UInt8) (sz : ℕ) (w : Worker) : Option Pooled :=
  (s.pool.step (.addJob w)).bind fun p =>
    (s.rpcs.step (.gotPdu c buf sz (p.refused = s.pool.refused))).map fun r =>
      ⟨r, p, Function.update s.job s.pool.calls ⟨c, buf, sz⟩⟩

/-- A worker that has got a job begins its dispatch. -/
def begin (s : Pooled) (i : Worker) (p : Option ℕ) : Option Pooled :=
  (s.pool.step (.takeJob i p)).bind fun q =>
    match q.workers i with
    | .running _ => (s.rpcs.step (.take i)).map fun r => { s with rpcs := r, pool := q }
    | _ => some { s with pool := q }

/-- A worker whose dispatch returns is through with its job. -/
def dispatch (s : Pooled) (i : Worker) (ret : Int32) (body : List UInt8) : Option Pooled :=
  (s.rpcs.step (.go i ret body)).bind fun r =>
    if (r.active i).isSome then some { s with rpcs := r }
    else (s.pool.step (.finish i)).map fun q => { s with rpcs := r, pool := q }

def step (s : Pooled) : PooledEvent → Option Pooled
  | .gotPdu c buf sz w =>
    if s.rpcs.reachable then s.arrive c buf sz w
    else (s.rpcs.step (.gotPdu c buf sz false)).map fun r => { s with rpcs := r }
  | .take i p => s.begin i p
  | .go i ret body => s.dispatch i ret body
  | .stir i => (s.pool.step (.stirTake i)).map fun q => { s with pool := q }
  | .other e => if e.aside then (s.rpcs.step e).map fun r => { s with rpcs := r } else none

/-- The two keep the same books: the jobs of the queue, and the workers that have one. -/
structure Coupled (s : Pooled) : Prop where
  sound : s.pool.Sound
  inUse : s.pool.stage = .inUse
  nonblocking : s.pool.blockadd = false
  known : ∀ x ∈ s.pool.jobq.q, ∃ j < s.pool.calls, x = some j
  queue : s.rpcs.queue = s.pool.jobq.q.filterMap (Option.map s.job)
  idle : ∀ i, s.rpcs.active i = none ↔ s.pool.workers i = .taking
  alive : ∀ i, s.pool.workers i ≠ .exited

variable {s s' : Pooled} {i : Worker} {p : Option ℕ}

theorem Coupled.init (sum : Bool) (nonce : UInt32) (procs : List Int32) :
    (Pooled.init sum nonce procs).Coupled where
  sound := .start 6 false
  inUse := rfl
  nonblocking := rfl
  known x hx := by cases hx
  queue := rfl
  idle _ := iff_of_true rfl rfl
  alive _ hi := by cases hi

/-- The server goes on, and its queue and its workers stay. -/
theorem Coupled.aside (h : s.Coupled) {r : Rpcs} (hq : r.queue = s.rpcs.queue)
    (ha : r.active = s.rpcs.active) : ({ s with rpcs := r } : Pooled).Coupled :=
  { h with
    queue := hq.trans h.queue
    idle := fun i => (iff_of_eq (congrArg (· = none) (congrFun ha i))).trans (h.idle i) }

/-- A job is accepted while the queue has room, and is refused else. -/
theorem addJob_cases (h : s.Coupled) (w : Worker) :
    ∃ q, s.pool.step (.addJob w) = some q ∧ q.calls = s.pool.calls + 1 ∧ q.stage = .inUse ∧
      q.blockadd = false ∧ q.workers = s.pool.workers ∧
      (q.refused = s.pool.refused ∧ q.jobq.q = s.pool.jobq.q ++ [some s.pool.calls] ∨
        q.refused = s.pool.calls :: s.pool.refused ∧ q.jobq.q = s.pool.jobq.q) := by
  refine ⟨_, if_pos h.inUse, ?_⟩
  unfold ThrPool.addRound
  obtain ⟨-, heq⟩ | ⟨hb, -⟩ | ⟨-, heq⟩ := ThrPool.enq_cases s.pool.jobq (some s.pool.calls)
    (some s.pool.calls) s.pool.blockadd w
  · dsimp only
    rw [heq]
    exact ⟨rfl, h.inUse, h.nonblocking, rfl, Or.inl ⟨rfl, rfl⟩⟩
  · exact absurd (h.nonblocking.symm.trans hb) (by decide)
  · dsimp only
    rw [heq]
    exact ⟨rfl, h.inUse, h.nonblocking, rfl, Or.inr ⟨rfl, rfl⟩⟩

/-- A worker finds the queue empty, or takes its first job. -/
theorem takeJob_cases (h : s.Coupled) {q : ThrPool 6}
    (hq : s.pool.step (.takeJob i p) = some q) :
    s.pool.workers i = .taking ∧ q.calls = s.pool.calls ∧ q.stage = .inUse ∧ q.blockadd = false ∧
      (q.workers = s.pool.workers ∧ q.jobq.q = s.pool.jobq.q ∨
        ∃ j rest, s.pool.jobq.q = some j :: rest ∧ q.jobq.q = rest ∧
          q.workers = Function.update s.pool.workers i (.running j)) := by
  simp only [ThrPool.step, Option.ite_none_right_eq_some, Option.some.injEq] at hq
  obtain ⟨⟨hi, -⟩, rfl⟩ := hq
  refine ⟨hi, ?_⟩
  unfold ThrPool.takeRound Fifo.deq
  cases hjobs : s.pool.jobq.q with
  | nil => exact ⟨rfl, h.inUse, h.nonblocking, Or.inl ⟨rfl, rfl⟩⟩
  | cons x rest =>
    obtain ⟨j, -, rfl⟩ := h.known x (hjobs ▸ List.mem_cons_self)
    exact ⟨rfl, h.inUse, h.nonblocking, Or.inr ⟨j, rest, rfl, rfl, rfl⟩⟩

/-- The jobs of the queue are older than one that is about to be numbered. -/
theorem Coupled.filterMap_update (h : s.Coupled) (job : Job) :
    s.pool.jobq.q.filterMap (Option.map (Function.update s.job s.pool.calls job)) =
      s.rpcs.queue := by
  rw [h.queue]
  refine List.filterMap_congr fun x hx => ?_
  obtain ⟨j, hj, rfl⟩ := h.known x hx
  exact congrArg some (Function.update_of_ne hj.ne _ _)

/-- A worker gets a dispatch and a job, or loses both. -/
theorem idle_update (h : ∀ k, s.rpcs.active k = none ↔ s.pool.workers k = .taking)
    {d : Option Dispatch} {w : PoolWorker} (hd : d = none ↔ w = .taking) (k : Worker) :
    Function.update s.rpcs.active i d k = none ↔
      Function.update s.pool.workers i w k = .taking := by
  by_cases hk : k = i
  · subst hk
    rwa [Function.update_self, Function.update_self]
  · rw [Function.update_of_ne hk, Function.update_of_ne hk]
    exact h k

theorem alive_update (h : ∀ k, s.pool.workers k ≠ .exited) {w : PoolWorker} (hw : w ≠ .exited)
    (k : Worker) : Function.update s.pool.workers i w k ≠ .exited := by
  by_cases hk : k = i
  · subst hk
    rwa [Function.update_self]
  · rw [Function.update_of_ne hk]
    exact h k

theorem gotPdu_queue {r : Rpcs} {c : ℕ} {buf : ℕ → UInt8} {sz : ℕ} {succ : Bool}
    (hreach : s.rpcs.reachable = true) (hr : s.rpcs.step (.gotPdu c buf sz succ) = some r) :
    r.queue = (if succ then s.rpcs.queue ++ [⟨c, buf, sz⟩] else s.rpcs.queue) ∧
      r.active = s.rpcs.active := by
  simp only [Rpcs.step, if_pos hreach, Option.ite_none_right_eq_some, Option.some.injEq] at hr
  obtain ⟨-, rfl⟩ := hr
  exact ⟨rfl, rfl⟩

theorem take_queue {j : Job} {rest : List Job} (hi : s.rpcs.active i = none)
    (hq : s.rpcs.queue = j :: rest) :
    ∃ r, s.rpcs.step (.take i) = some r ∧ r.queue = rest ∧
      r.active = Function.update s.rpcs.active i (some (.start s.rpcs.sum j)) := by
  refine ⟨({ s.rpcs with queue := rest } : Rpcs).setActive i (some (.start s.rpcs.sum j)), ?_, rfl,
    rfl⟩
  simp only [Rpcs.step, hi, hq]

theorem Coupled.arrive (h : s.Coupled) {c : ℕ} {buf : ℕ → UInt8} {sz : ℕ} {w : Worker}
    (hs : s.arrive c buf sz w = some s') (hreach : s.rpcs.reachable = true) : s'.Coupled := by
  obtain ⟨q, hq, hs⟩ := Option.bind_eq_some_iff.mp hs
  obtain ⟨r, hr, rfl⟩ := Option.map_eq_some_iff.mp hs
  obtain ⟨q', hq', hcalls, huse, hblock, hworkers, hjobs⟩ := addJob_cases h w
  obtain rfl : q' = q := Option.some.inj (hq'.symm.trans hq)
  have hlt : ∀ x ∈ s.pool.jobq.q, ∃ j < q'.calls, x = some j := fun x hx => by
    obtain ⟨j, hj, rfl⟩ := h.known x hx
    exact ⟨j, by omega, rfl⟩
  have hkeep := h.filterMap_update ⟨c, buf, sz⟩
  obtain ⟨hqueue, hactive⟩ := gotPdu_queue hreach hr
  refine ⟨h.sound.step hq, huse, hblock, ?_, ?_, fun i => ?_, fun i => ?_⟩
  · obtain ⟨-, hadd⟩ | ⟨-, hsame⟩ := hjobs
    · intro x hx
      obtain hx | hx := List.mem_append.mp (hadd ▸ hx)
      · exact hlt x hx
      · exact ⟨s.pool.calls, hcalls.symm ▸ Nat.lt_succ_self _, List.mem_singleton.mp hx⟩
    · exact fun x hx => hlt x (hsame ▸ hx)
  · obtain ⟨href, hadd⟩ | ⟨href, hsame⟩ := hjobs
    · rw [hqueue, if_pos (decide_eq_true href), hadd, List.filterMap_append, hkeep]
      simp
    · rw [hqueue, if_neg, hsame, hkeep]
      rw [decide_eq_true_eq, href]
      exact List.cons_ne_self _ _
  · rw [hactive, hworkers]
    exact h.idle i
  · rw [hworkers]
    exact h.alive i

/-- A worker that gets a job from the pool finds it at the head of the server's queue. -/
theorem Coupled.begin (h : s.Coupled) {q : ThrPool 6}
    (hq : s.pool.step (.takeJob i p) = some q) :
    ∃ s', s.begin i p = some s' ∧ s'.pool = q ∧ s'.Coupled ∧
      ∀ j, q.workers i = .running j → s'.rpcs.active i = some (.start s.rpcs.sum (s.job j)) := by
  obtain ⟨hi, hcalls, huse, hblock, ⟨hworkers, hjobs⟩ | ⟨j, rest, hjobs, hrest, hworkers⟩⟩ :=
    takeJob_cases h hq
  · have hqi : q.workers i = .taking := by rw [hworkers, hi]
    refine ⟨{ s with pool := q }, ?_, rfl, ⟨h.sound.step hq, huse, hblock, ?_, ?_, ?_, ?_⟩, ?_⟩
    · unfold Pooled.begin
      rw [hq, Option.bind_some, hqi]
    · rw [hjobs, hcalls]
      exact h.known
    · rw [hjobs]
      exact h.queue
    · rw [hworkers]
      exact h.idle
    · rw [hworkers]
      exact h.alive
    · intro j hj
      rw [hqi] at hj
      cases hj
  · have hqi : q.workers i = .running j := by rw [hworkers, Function.update_self]
    have hqueue : s.rpcs.queue = s.job j :: rest.filterMap (Option.map s.job) := by
      rw [h.queue, hjobs]
      rfl
    obtain ⟨r, htake, hqueue', hactive⟩ := take_queue ((h.idle i).mpr hi) hqueue
    refine ⟨⟨r, q, s.job⟩, ?_, rfl, ⟨h.sound.step hq, huse, hblock, fun x hx => ?_, ?_,
      fun k => ?_, fun k => ?_⟩, fun j' hj' => ?_⟩
    · unfold Pooled.begin
      rw [hq, Option.bind_some, hqi]
      dsimp only
      rw [htake, Option.map_some]
    · obtain ⟨j', hj', rfl⟩ := h.known x (hjobs ▸ List.mem_cons_of_mem _ (hrest ▸ hx))
      exact ⟨j', hcalls.symm ▸ hj', rfl⟩
    · exact hqueue'.trans (congrArg _ hrest.symm)
    · rw [hactive, hworkers]
      exact idle_update h.idle (by simp) k
    · rw [hworkers]
      exact alive_update h.alive (by simp) k
    · obtain rfl := PoolWorker.running.inj (hqi.symm.trans hj')
      rw [hactive, Function.update_self]

/-- A worker in a dispatch has a job of the pool. -/
theorem Coupled.busy (h : s.Coupled) {d : Dispatch} (hd : s.rpcs.active i = some d) :
    ∃ j, s.pool.workers i = .running j := by
  cases hw : s.pool.workers i with
  | taking =>
    rw [(h.idle i).mpr hw] at hd
    cases hd
  | running j => exact ⟨j, rfl⟩
  | exited => exact absurd hw (h.alive i)

/-- A worker whose dispatch has returned can finish its job. -/
theorem Coupled.dispatch (h : s.Coupled) {ret : Int32} {body : List UInt8} {r : Rpcs}
    (hr : s.rpcs.step (.go i ret body) = some r) :
    ∃ s', s.dispatch i ret body = some s' ∧ s'.rpcs = r ∧ s'.Coupled := by
  obtain ⟨d, hd, hgo⟩ := Option.bind_eq_some_iff.mp hr
  obtain ⟨d', ho⟩ := dispatch_outcome hgo
  have hqueue := ho.queue
  have hactive := ho.active
  obtain ⟨j, hj⟩ := h.busy hd
  cases d' with
  | some d' =>
    refine ⟨{ s with rpcs := r }, ?_, rfl,
      { h with queue := hqueue.trans h.queue, idle := fun k => ?_ }⟩
    · unfold Pooled.dispatch
      rw [hr, Option.bind_some, hactive, Function.update_self]
      rfl
    · have hidle := idle_update (i := i) (d := some d') (w := s.pool.workers i) h.idle
        (by simp [hj]) k
      rwa [Function.update_eq_self, ← hactive] at hidle
  | none =>
    have hfin : s.pool.step (.finish i) = some { s.pool with
        workers := Function.update s.pool.workers i .taking
        finished := j :: s.pool.finished } := by
      simp only [ThrPool.step, hj]
    refine ⟨⟨r, _, s.job⟩, ?_, rfl, ⟨h.sound.step hfin, h.inUse, h.nonblocking, h.known,
      hqueue.trans h.queue, fun k => ?_, fun k => ?_⟩⟩
    · unfold Pooled.dispatch
      rw [hr, Option.bind_some, hactive, Function.update_self, hfin]
      rfl
    · dsimp only
      rw [hactive]
      exact idle_update h.idle (iff_of_true rfl rfl) k
    · exact alive_update h.alive (by simp) k

theorem Coupled.step {e : PooledEvent} (h : s.Coupled) (hs : s.step e = some s') :
    s'.Coupled := by
  cases e with
  | gotPdu c buf sz w =>
    unfold Pooled.step at hs
    dsimp only at hs
    split_ifs at hs with hreach
    · exact h.arrive hs hreach
    · obtain ⟨r, hr, rfl⟩ := Option.map_eq_some_iff.mp hs
      simp only [Rpcs.step, if_neg hreach, Option.ite_none_right_eq_some, Option.some.injEq] at hr
      obtain ⟨-, rfl⟩ := hr
      exact h
  | take i p =>
    obtain ⟨q, hq, -⟩ := Option.bind_eq_some_iff.mp hs
    obtain ⟨s₁, hs₁, -, h₁, -⟩ := h.begin hq
    obtain rfl := Option.some.inj (hs₁.symm.trans hs)
    exact h₁
  | go i ret body =>
    obtain ⟨r, hr, -⟩ := Option.bind_eq_some_iff.mp hs
    obtain ⟨s₁, hs₁, -, h₁⟩ := h.dispatch hr
    obtain rfl := Option.some.inj (hs₁.symm.trans hs)
    exact h₁
  | stir i =>
    obtain rfl := Option.some.inj hs
    exact { h with sound := h.sound.step (e := .stirTake i) rfl }
  | other e =>
    simp only [Pooled.step, Option.ite_none_right_eq_some] at hs
    obtain ⟨haside, hs⟩ := hs
    obtain ⟨r, hr, rfl⟩ := Option.map_eq_some_iff.mp hs
    have he : ∀ i ret body, e ≠ .go i ret body := by
      rintro i ret body rfl
      cases haside
    obtain ⟨hqueue, hactive⟩ | ⟨c, buf, sz, rfl, -⟩ | ⟨i, j, q, rfl, -⟩ :=
      (step_outside he hr).queue
    · exact h.aside hqueue hactive
    · cases haside
    · cases haside

/-- A queue with a job has a worker for it, or one that runs another. -/
theorem Coupled.served (h : s.Coupled) (hqueue : s.rpcs.queue ≠ []) :
    (∃ i, s.rpcs.active i ≠ none) ∨
      ∃ i p s', s.step (.take i p) = some s' ∧ s'.rpcs.active i ≠ none := by
  by_cases hbusy : ∃ i, s.rpcs.active i ≠ none
  · exact Or.inl hbusy
  right
  push Not at hbusy
  have hidle : ∀ i, s.pool.workers i = .taking := fun i => (h.idle i).mp (hbusy i)
  obtain ⟨x, rest, hjobs⟩ := List.exists_cons_of_ne_nil (l := s.pool.jobq.q) fun hnil =>
    hqueue (by rw [h.queue, hnil]; rfl)
  obtain ⟨j, -, rfl⟩ := h.known x (hjobs ▸ List.mem_cons_self)
  -- a worker that no signal is owed to
  obtain ⟨i, hi⟩ : ∃ i, i ∉ s.pool.jobq.nonEmpty := by
    by_contra hall
    push Not at hall
    have hne : s.pool.jobq.nonEmpty ≠ [] := List.ne_nil_of_mem (hall 0)
    have hentries := h.sound.awake.entries hne
    have htally := tally_le_length (a := s.pool.workers) (x := .taking) fun i _ => hall i
    rw [hjobs, List.length_cons] at hentries
    omega
  have htake : s.pool.step (.takeJob i none) = some (s.pool.takeRound i none) :=
    if_pos ⟨hidle i, hi⟩
  obtain ⟨-, -, -, -, ⟨-, hsame⟩ | ⟨j', rest', -, -, hworkers⟩⟩ := takeJob_cases h htake
  · unfold ThrPool.takeRound Fifo.deq at hsame
    rw [hjobs] at hsame
    exact absurd hsame.symm (List.cons_ne_self _ _)
  · obtain ⟨s', hs', -, -, hd⟩ := h.begin htake
    refine ⟨i, none, s', hs', ?_⟩
    rw [hd j' (by rw [hworkers, Function.update_self])]
    exact Option.some_ne_none _

end Pooled

/-- The pool and the server agree in every run. The jobs are dispatched in the order in which they
were accepted; a worker that takes a job begins the dispatch of that job, one whose dispatch returns
is through with it, and a job of the queue never waits while every worker is idle. -/
theorem pool_serves_jobs (sum : Bool) (nonce : UInt32) (procs : List Int32)
    {events : List PooledEvent} {s : Pooled}
    (hrun : runs Pooled.step events (.init sum nonce procs) = some s) :
    ((s.pool.taken.filterMap fun t => t.2.map s.job) ++ s.rpcs.queue = s.pool.accepted.map s.job ∧
      s.pool.accepted.Nodup ∧ s.rpcs.queue.length ≤ 600) ∧
    (∀ i p q, s.pool.step (.takeJob i p) = some q → ∃ s', s.step (.take i p) = some s' ∧
      s'.pool = q ∧
      ∀ j, q.workers i = .running j → s'.rpcs.active i = some (.start s.rpcs.sum (s.job j))) ∧
    (∀ i ret body r, s.rpcs.step (.go i ret body) = some r →
      ∃ s', s.step (.go i ret body) = some s' ∧ s'.rpcs = r) ∧
    (s.rpcs.queue ≠ [] → (∃ i, s.rpcs.active i ≠ none) ∨
      ∃ i p s', s.step (.take i p) = some s' ∧ s'.rpcs.active i ≠ none) := by
  have h := runs_invariant Pooled.step (fun _ _ _ h hs => h.step hs)
    (Pooled.Coupled.init sum nonce procs) hrun
  have hb := h.sound.books
  refine ⟨⟨?_, (List.nodup_append.mp (List.nodup_append.mp hb.ids).1).1, ?_⟩,
    fun i p q hq => ?_, fun i ret body r hr => ?_, h.served⟩
  · have horder := congrArg (List.filterMap (Option.map s.job)) hb.order
    rw [h.inUse] at horder
    simpa [h.queue, PoolStage.count, List.filterMap_map, Function.comp_def] using horder
  · calc s.rpcs.queue.length
        ≤ s.pool.jobq.q.length := h.queue ▸ List.length_filterMap_le _ _
      _ ≤ 600 := hb.room (by decide)
  · obtain ⟨s', hs', hpool, -, hd⟩ := h.begin hq
    exact ⟨s', hs', hpool, hd⟩
  · obtain ⟨s', hs', hr', -⟩ := h.dispatch hr
    exact ⟨s', hs', hr'⟩

/-- A request on its way to a worker that waits for it. -/
def onePooled : List PooledEvent :=
  [.take 0 none, .other (.accept 3 0), .other .insert, .gotPdu 0 (requestBytes 0 0) 24 0,
    .other .returned, .take 0 none]

theorem pool_serves_jobs_example :
    ∃ s, runs Pooled.step onePooled (.init true 0 [1]) = some s ∧ s.pool.taken = [(0, some 0)] ∧
      s.rpcs.active 0 ≠ none ∧
      (s.pool.taken.filterMap fun t => t.2.map s.job) ++ s.rpcs.queue =
        s.pool.accepted.map s.job := by
  have hrun : ∃ s, runs Pooled.step onePooled (.init true 0 [1]) = some s ∧
      s.pool.taken = [(0, some 0)] ∧ s.rpcs.active 0 ≠ none :=
    ⟨_, rfl, rfl, Option.some_ne_none _⟩
  obtain ⟨s, hs, htaken, hactive⟩ := hrun
  exact ⟨s, hs, htaken, hactive, (pool_serves_jobs true 0 [1] hs).1.1⟩

end Yfs.Rpc
