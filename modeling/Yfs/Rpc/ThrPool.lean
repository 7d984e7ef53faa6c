import Yfs.Effect.Tally
import Yfs.Effect.Transition
import Yfs.Rpc.Fifo

/-! The thread pool: its queue of jobs, its workers, and its destructor. -/
namespace Yfs.Rpc

open Effect

/-- Where a thread is in `do_worker`. A job is named by a number. -/
inductive PoolWorker where
  | taking
  | running (j : ℕ)
  | exited
deriving DecidableEq

/-- Where the destructor is: not called yet, before pill `k`, before the join of worker `k`, or
through. -/
inductive PoolStage where
  | inUse
  | pills (k : ℕ)
  | joining (k : ℕ)
  | returned
deriving DecidableEq

/-- A pool of `n` workers. A pill in the queue is `none`, and so is the destructor among the
threads that add. The jobs are numbered as `addJob` is called for them; `adding` are those whose
call has not returned. Behind them, what has happened so far: the jobs for which `addJob` returned
true and those for which it returned false, who took what, and the jobs that have been run. -/
structure ThrPool (n : ℕ) where
  blockadd : Bool
  jobq : Fifo (Option ℕ) (Option ℕ) (Fin n)
  workers : Fin n → PoolWorker
  stage : PoolStage
  calls : ℕ
  adding : List ℕ
  accepted : List ℕ
  refused : List ℕ
  taken : List (Fin n × Option ℕ)
  finished : List ℕ

/-- The sections under the lock, each with the thread that its signal wakes, the end of a job, the
start of the destructor and its joins, and wake-ups without a signal. -/
inductive PoolEvent (n : ℕ) where
  | addJob (w : Fin n)
  | retry (j : ℕ) (w : Fin n)
  | takeJob (i : Fin n) (p : Option ℕ)
  | finish (i : Fin n)
  | destroy
  | pill (w : Fin n)
  | join
  | stirAdd (p : Option ℕ)
  | stirTake (i : Fin n)

namespace ThrPool

variable {n : ℕ}

def start (n : ℕ) (blocking : Bool) : ThrPool n where
  blockadd := blocking
  jobq := .new (100 * n)
  workers _ := .taking
  stage := .inUse
  calls := 0
  adding := []
  accepted := []
  refused := []
  taken := []
  finished := []

/-- A round of `addJob` for job `j`. -/
def addRound (s : ThrPool n) (j : ℕ) (w : Fin n) : ThrPool n :=
  match s.jobq.enq (some j) (some j) s.blockadd w with
  | (.added, f) => { s with jobq := f, accepted := s.accepted ++ [j] }
  | (.waits, f) => { s with jobq := f, adding := j :: s.adding }
  | (.full, f) => { s with jobq := f, refused := j :: s.refused }

/-- A worker exits when it has taken a pill. -/
def afterTake : Option ℕ → PoolWorker
  | some j => .running j
  | none => .exited

def takeRound (s : ThrPool n) (i : Fin n) (p : Option ℕ) : ThrPool n :=
  match s.jobq.deq i p with
  | (none, f) => { s with jobq := f }
  | (some e, f) => { s with
      jobq := f
      workers := Function.update s.workers i (afterTake e)
      taken := s.taken ++ [(i, e)] }

/-- The loop over the joins, from worker `k` on. -/
def joinFrom (n k : ℕ) : PoolStage := if k < n then .joining k else .returned

/-- The loop over the pills, from pill `k` on. -/
def pillsFrom (n k : ℕ) : PoolStage := if k < n then .pills k else joinFrom n 0

def pillRound (s : ThrPool n) (k : ℕ) (w : Fin n) : ThrPool n :=
  match s.jobq.enq none none true w with
  | (.added, f) => { s with jobq := f, stage := pillsFrom n (k + 1) }
  | (_, f) => { s with jobq := f }

/-- The destructor is called only when no other thread is in the pool or will ever be. -/
def step (s : ThrPool n) : PoolEvent n → Option (ThrPool n)
  | .addJob w =>
    if s.stage = .inUse then some ({ s with calls := s.calls + 1 }.addRound s.calls w) else none
  | .retry j w =>
    if j ∈ s.adding ∧ some j ∉ s.jobq.hasSpace then
      some ({ s with adding := s.adding.erase j }.addRound j w)
    else none
  | .takeJob i p =>
    if s.workers i = .taking ∧ i ∉ s.jobq.nonEmpty then some (s.takeRound i p) else none
  | .finish i =>
    match s.workers i with
    | .running j => some { s with
        workers := Function.update s.workers i .taking
        finished := j :: s.finished }
    | _ => none
  | .destroy =>
    if s.stage = .inUse ∧ s.adding = [] then some { s with stage := pillsFrom n 0 } else none
  | .pill w =>
    match s.stage with
    | .pills k => if none ∉ s.jobq.hasSpace then some (s.pillRound k w) else none
    | _ => none
  | .join =>
    match s.stage with
    | .joining k =>
      if ∀ i : Fin n, i.val = k → s.workers i = .exited then
        some { s with stage := joinFrom n (k + 1) }
      else none
    | _ => none
  | .stirAdd p =>
    some { s with jobq := { s.jobq with hasSpace := s.jobq.hasSpace.stir p } }
  | .stirTake i =>
    some { s with jobq := { s.jobq with nonEmpty := s.jobq.nonEmpty.stir i } }

end ThrPool

end Yfs.Rpc
