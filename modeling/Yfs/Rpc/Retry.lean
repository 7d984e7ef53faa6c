import Mathlib.Data.Nat.Log
import Mathlib.Algebra.Order.Ring.Int

/-! The retry loop of `rpcc::call1` when no reply arrives. -/
namespace Yfs.Rpc

/-- `struct timespec`; the seconds are not bounded. -/
structure Timespec where
  tvSec : ℤ
  tvNsec : ℤ
deriving DecidableEq

namespace Timespec

def Valid (t : Timespec) : Prop := 0 ≤ t.tvNsec ∧ t.tvNsec < 1000000000

instance (t : Timespec) : Decidable t.Valid := inferInstanceAs (Decidable (_ ∧ _))

/-- Nanoseconds, also of a timespec that is not valid. -/
def ns (t : Timespec) : ℤ := t.tvSec * 1000000000 + t.tvNsec

/-- `while (tv_nsec > 1000000000)` -/
def carry (t : Timespec) : Timespec :=
  if t.tvNsec > 1000000000 then carry ⟨t.tvSec + 1, t.tvNsec - 1000000000⟩ else t
termination_by t.tvNsec.toNat
decreasing_by omega

end Timespec

/-- There is no result when the VERIFY fails. -/
def addTimespec (a : Timespec) (b : Int32) : Option Timespec :=
  if a.tvNsec + b.toInt.tmod 1000 * 1000000 ≥ 0 then
    some (Timespec.carry ⟨a.tvSec + b.toInt.tdiv 1000, a.tvNsec + b.toInt.tmod 1000 * 1000000⟩)
  else none

def cmpTimespec (a b : Timespec) : ℤ :=
  if a.tvSec > b.tvSec then 1
  else if a.tvSec < b.tvSec then -1
  else if a.tvNsec > b.tvNsec then 1
  else if a.tvNsec < b.tvNsec then -1
  else 0

/-- What `pthread_cond_timedwait` returns: 0, ETIMEDOUT, EINVAL. -/
inductive WaitResult where
  | woken
  | timedOut
  | invalid
deriving DecidableEq

/-- What the loop reads from the clock after a number of returns of the wait, and what the
next wait returns when it is given a deadline. -/
structure Env where
  clock : ℕ → Timespec
  wait : Timespec → ℕ → WaitResult

/-- The inner loop: waits until ETIMEDOUT. -/
def waitTimeout (e : Env) (deadline : Timespec) : ℕ → ℕ → Option ℕ
  | 0, _ => none
  | fuel + 1, n =>
    if e.wait deadline n = .timedOut then some (n + 1) else waitTimeout e deadline fuel (n + 1)

/-- One round: the time it starts from, its interval, the deadline it computes and the one it
waits for. -/
structure Round where
  now : Timespec
  interval : Int32
  nextdeadline : Timespec
  deadline : Timespec

structure Loop where
  finaldeadline : Timespec
  currTo : Int32
  waits : ℕ
  rounds : List Round

inductive Ending where
  | timeoutFailure (rounds : List Round)
  | aborted

/-- The outer loop. Sending takes part only through the time that passes. -/
def retry (e : Env) : ℕ → Loop → Option Ending
  | 0, _ => none
  | fuel + 1, l =>
    if l.finaldeadline.tvSec = 0 then some (.timeoutFailure l.rounds)
    else
      match addTimespec (e.clock l.waits) l.currTo with
      | none => some .aborted
      | some next =>
        let past := cmpTimespec next l.finaldeadline > 0
        let deadline := if past then l.finaldeadline else next
        match waitTimeout e deadline fuel l.waits with
        | none => none
        | some n => retry e fuel
          { finaldeadline := if past then { l.finaldeadline with tvSec := 0 } else l.finaldeadline
            currTo := l.currTo <<< 1
            waits := n
            rounds := l.rounds ++ [⟨e.clock l.waits, l.currTo, next, deadline⟩] }

def toMin : Int32 := 1000

/-- A call that gets no reply, with its final deadline. -/
def call1 (e : Env) (start : Timespec) (timeout : Int32) (fuel : ℕ) : Option (Timespec × Ending) :=
  match addTimespec start timeout with
  | none => some (start, .aborted)
  | some final => (retry e fuel ⟨final, toMin, 0, []⟩).map fun r => (final, r)

/-- The clock does not go back, a wait with a valid deadline ends by ETIMEDOUT at last and not
before the deadline, and one with another deadline fails. -/
structure Posix (e : Env) (start : Timespec) : Prop where
  valid : ∀ n, (e.clock n).Valid
  start_le : start.ns ≤ (e.clock 0).ns
  mono : ∀ n, (e.clock n).ns ≤ (e.clock (n + 1)).ns
  invalid : ∀ d n, ¬ d.Valid → e.wait d n = .invalid
  not_early : ∀ d n, e.wait d n = .timedOut → d.ns ≤ (e.clock (n + 1)).ns
  ends : ∀ d n, d.Valid → ∃ m ≥ n, e.wait d m = .timedOut

/-- A round computes the exact sum of its time and its interval, and waits no longer than
until `limit`. -/
structure Round.Timely (r : Round) (limit : ℤ) : Prop where
  valid : r.nextdeadline.Valid
  exact : r.nextdeadline.ns = r.now.ns + r.interval.toInt * 1000000
  deadline_valid : r.deadline.Valid
  bounded : r.deadline.ns ≤ limit

/-- How many rounds may reach their own deadline before the final one. -/
def roundBound (timeout : Int32) : ℕ := Nat.log 2 (timeout.toInt.toNat / 1000 + 1)

/-- The deadlines of a call that started at `start`. -/
structure Timely (start : Timespec) (timeout : Int32) (final : Timespec) (rounds : List Round) :
    Prop where
  final_valid : final.Valid
  final_exact : final.ns = start.ns + timeout.toInt * 1000000
  rounds_timely : ∀ r ∈ rounds, r.Timely (start.ns + timeout.toInt * 1000000)
  few : rounds.length ≤ roundBound timeout + 1

section Arithmetic

variable {a t next final : Timespec} {b : Int32}

theorem cmpTimespec_pos (hn : next.Valid) (hf : final.Valid) :
    cmpTimespec next final > 0 ↔ final.ns < next.ns := by
  obtain ⟨hn0, hn1⟩ := hn
  obtain ⟨hf0, hf1⟩ := hf
  unfold cmpTimespec Timespec.ns
  split_ifs <;> omega

/-- The interval of a round. -/
def interval : ℕ → Int32
  | 0 => toMin
  | k + 1 => interval k <<< 1

end Arithmetic

section Fuel

variable {e : Env} {d : Timespec} {fuel more n m : ℕ}

theorem waitTimeout_mono (h : waitTimeout e d fuel n = some m) (hle : fuel ≤ more) :
    waitTimeout e d more n = some m := by
  induction fuel generalizing n more with
  | zero => cases h
  | succ fuel ih =>
    obtain ⟨more, rfl⟩ := Nat.exists_eq_add_of_le' (Nat.le_of_add_left_le hle)
    unfold waitTimeout at h ⊢
    split_ifs at h ⊢ with ht
    · exact h
    · exact ih h (Nat.le_of_succ_le_succ hle)

/-- A wait for a valid deadline ends, and not before it. -/
theorem waitTimeout_ends {start : Timespec} (hp : Posix e start) (hd : d.Valid) (n : ℕ) :
    ∃ fuel m, waitTimeout e d fuel n = some m ∧ d.ns ≤ (e.clock m).ns := by
  obtain ⟨m, hm, ht⟩ := hp.ends d n hd
  obtain ⟨j, rfl⟩ := Nat.exists_eq_add_of_le hm
  clear hm
  induction j generalizing n with
  | zero =>
    refine ⟨1, n + 1, ?_, hp.not_early d n ht⟩
    exact if_pos ht
  | succ j ih =>
    by_cases hn : e.wait d n = .timedOut
    · refine ⟨1, n + 1, ?_, hp.not_early d n hn⟩
      rw [waitTimeout, if_pos hn]
    · have ht' : e.wait d (n + 1 + j) = .timedOut := by
        rw [Nat.add_right_comm, Nat.add_assoc]
        exact ht
      obtain ⟨fuel, m, hw, hle⟩ := ih (n + 1) ht'
      refine ⟨fuel + 1, m, ?_, hle⟩
      rw [waitTimeout, if_neg hn, hw]

end Fuel

section Main

variable {e : Env} {start final : Timespec} {timeout : Int32}

/-- After `k` rounds that all reached their own deadline. -/
structure Waited (e : Env) (start final : Timespec) (timeout : Int32) (k : ℕ) (l : Loop) : Prop where
  finaldeadline : l.finaldeadline = final
  currTo : l.currTo = interval k
  elapsed : start.ns + 1000 * (2 ^ k - 1) * 1000000 ≤ (e.clock l.waits).ns
  length : l.rounds.length = k
  small : 2 ^ k ≤ timeout.toInt.toNat / 1000 + 1
  timely : ∀ r ∈ l.rounds, r.Timely (start.ns + timeout.toInt * 1000000)

theorem le_roundBound {k : ℕ} (hk : 2 ^ k ≤ timeout.toInt.toNat / 1000 + 1) : k ≤ roundBound timeout :=
  Nat.le_log_of_pow_le (by decide) hk

section Round

variable {k : ℕ} {l : Loop} {next : Timespec} (hl : Waited e start final timeout k l)

include hl

/-- The round whose deadline would be past the final one is the last. -/
theorem Waited.last (hp : Posix e start) (hf : final.Valid)
    (hfinal : final.ns = start.ns + timeout.toInt * 1000000) (hz : final.tvSec ≠ 0)
    (hadd : addTimespec (e.clock l.waits) l.currTo = some next) (hv : next.Valid)
    (hns : next.ns = (e.clock l.waits).ns + l.currTo.toInt * 1000000)
    (hpast : final.ns < next.ns) :
    ∃ fuel rounds, retry e fuel l = some (.timeoutFailure rounds) ∧
      (∀ r ∈ rounds, r.Timely (start.ns + timeout.toInt * 1000000)) ∧
      rounds.length ≤ roundBound timeout + 1 := by
  obtain ⟨fuel, m, hw, -⟩ := waitTimeout_ends hp hf l.waits
  have hcmp := (cmpTimespec_pos hv hf).mpr hpast
  refine ⟨fuel + 1 + 1, l.rounds ++ [⟨e.clock l.waits, l.currTo, next, final⟩], ?_, ?_, ?_⟩
  · rw [retry, hl.finaldeadline, if_neg hz, hadd]
    dsimp only
    rw [if_pos hcmp, if_pos hcmp, waitTimeout_mono hw (Nat.le_succ fuel)]
    exact if_pos rfl
  · intro r hr
    obtain hr | hr := List.mem_append.mp hr
    · exact hl.timely r hr
    · rw [List.mem_singleton.mp hr]
      exact ⟨hv, hns, hf, le_of_eq hfinal⟩
  · rw [List.length_append, hl.length]
    exact Nat.succ_le_succ (le_roundBound hl.small)

/-- A round that reaches its own deadline. -/
theorem Waited.round (hp : Posix e start) (hf : final.Valid)
    (hfinal : final.ns = start.ns + timeout.toInt * 1000000) (hz : final.tvSec ≠ 0) (hto : 0 ≤ timeout.toInt)
    (hadd : addTimespec (e.clock l.waits) l.currTo = some next) (hv : next.Valid)
    (hns : next.ns = (e.clock l.waits).ns + l.currTo.toInt * 1000000)
    (helapsed : start.ns + 1000 * (2 ^ (k + 1) - 1) * 1000000 ≤ next.ns)
    (hpast : next.ns ≤ final.ns) :
    ∃ fuel l', Waited e start final timeout (k + 1) l' ∧
      ∀ more ≥ fuel, retry e (more + 1) l = retry e more l' := by
  obtain ⟨fuel, m, hw, hm⟩ := waitTimeout_ends hp hv l.waits
  have hcmp : ¬ cmpTimespec next final > 0 := fun h =>
    absurd ((cmpTimespec_pos hv hf).mp h) (not_lt.mpr hpast)
  refine ⟨fuel, ⟨final, l.currTo <<< 1, m,
    l.rounds ++ [⟨e.clock l.waits, l.currTo, next, next⟩]⟩, ⟨rfl, ?_, ?_, ?_, ?_, ?_⟩, ?_⟩
  · rw [interval, hl.currTo]
  · exact le_trans helapsed hm
  · rw [List.length_append, hl.length, List.length_singleton]
  · have hcast : ((2 ^ (k + 1) : ℕ) : ℤ) = 2 ^ (k + 1) := by push_cast; rfl
    omega
  · intro r hr
    obtain hr | hr := List.mem_append.mp hr
    · exact hl.timely r hr
    · rw [List.mem_singleton.mp hr]
      exact ⟨hv, hns, hv, le_trans hpast (le_of_eq hfinal)⟩
  · intro more hle
    rw [retry, hl.finaldeadline, if_neg hz, hadd]
    dsimp only
    rw [if_neg hcmp, if_neg hcmp, waitTimeout_mono hw hle]

end Round

end Main

end Yfs.Rpc
