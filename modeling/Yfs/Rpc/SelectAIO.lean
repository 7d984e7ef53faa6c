import Mathlib.Logic.Function.Basic
import Mathlib.Data.List.Basic

/-! The descriptors that SelectAIO watches. -/
namespace Yfs.Rpc

/-- `poll_flag` -/
inductive PollFlag where
  | rdonly
  | wronly
  | rdwr
deriving DecidableEq

/-- An `fd_set`. -/
abbrev FdSet := ℕ → Bool

def FdSet.set (s : FdSet) (fd : ℕ) : FdSet := Function.update s fd true

def FdSet.clr (s : FdSet) (fd : ℕ) : FdSet := Function.update s fd false

/-- `pipe` stands for `pipefd_[0]`. -/
structure SelectAIO where
  pipe : ℕ
  rfds : FdSet
  wfds : FdSet
  highfds : ℕ

namespace SelectAIO

def init (pipe : ℕ) : SelectAIO := ⟨pipe, FdSet.set (fun _ => false) pipe, fun _ => false, pipe⟩

def watchFd (a : SelectAIO) (fd : ℕ) (flag : PollFlag) : SelectAIO :=
  { a with
    highfds := if a.highfds ≤ fd then fd else a.highfds
    rfds := if flag = .wronly then a.rfds else a.rfds.set fd
    wfds := if flag = .rdonly then a.wfds else a.wfds.set fd }

/-- The last descriptor up to `high` that is in one of the sets. -/
def lastSet (a : SelectAIO) (high : ℕ) : ℕ :=
  (List.range (high + 1)).foldl (fun newh i => if a.rfds i || a.wfds i then i else newh) a.pipe

/-- The sets once the descriptor is taken out. -/
def clear (a : SelectAIO) (fd : ℕ) (flag : PollFlag) : SelectAIO :=
  { a with
    rfds := if flag = .wronly then a.rfds else a.rfds.clr fd
    wfds := if flag = .rdonly then a.wfds else a.wfds.clr fd }

/-- Whether the descriptor is in neither set. -/
def unset (a : SelectAIO) (fd : ℕ) : Bool := !a.rfds fd && !a.wfds fd

def unwatchFd (a : SelectAIO) (fd : ℕ) (flag : PollFlag) : Bool × SelectAIO :=
  ((a.clear fd flag).unset fd,
    if (a.clear fd flag).unset fd && fd = a.highfds then
      { a.clear fd flag with highfds := (a.clear fd flag).lastSet a.highfds }
    else a.clear fd flag)

/-- What `wait_ready` copies under the lock. -/
structure Snapshot where
  rfds : FdSet
  wfds : FdSet
  high : ℕ

def snapshot (a : SelectAIO) : Snapshot := ⟨a.rfds, a.wfds, a.highfds⟩

/-- The readable and the writable descriptors, when select keeps those of `ready`. -/
def waitReady (pipe : ℕ) (c : Snapshot) (ready : FdSet × FdSet) : List ℕ × List ℕ :=
  ((List.range (c.high + 1)).filter fun fd => fd ≠ pipe && c.rfds fd && ready.1 fd,
    (List.range (c.high + 1)).filter fun fd =>
      !(fd = pipe && c.rfds fd && ready.1 fd) && c.wfds fd && ready.2 fd)

variable {a : SelectAIO} {fd g : ℕ} {flag : PollFlag}

theorem unset_iff : a.unset fd = true ↔ a.rfds fd = false ∧ a.wfds fd = false := by
  simp [unset]

theorem unset_watchFd (hne : g ≠ fd) (h : a.unset g) : (a.watchFd fd flag).unset g := by
  obtain ⟨hr, hw⟩ := unset_iff.mp h
  apply unset_iff.mpr
  simp only [watchFd, FdSet.set]
  constructor
  · split_ifs
    · exact hr
    · rw [Function.update_of_ne hne, hr]
  · split_ifs
    · exact hw
    · rw [Function.update_of_ne hne, hw]

theorem clr_eq_false {s : FdSet} (h : s g = false) : s.clr fd g = false := by
  rw [FdSet.clr, Function.update_apply]
  split_ifs
  · rfl
  · exact h

theorem unset_clear (h : a.unset g) : (a.clear fd flag).unset g := by
  obtain ⟨hr, hw⟩ := unset_iff.mp h
  apply unset_iff.mpr
  simp only [clear]
  constructor
  · split_ifs
    · exact hr
    · exact clr_eq_false hr
  · split_ifs
    · exact hw
    · exact clr_eq_false hw

theorem unset_unwatchFd : (a.unwatchFd fd flag).2.unset g = (a.clear fd flag).unset g := by
  unfold unwatchFd
  dsimp only
  split_ifs <;> rfl

theorem unset_unwatchFd_self : (a.unwatchFd fd .rdwr).2.unset fd := by
  rw [unset_unwatchFd]
  apply unset_iff.mpr
  simp [clear, FdSet.clr]

theorem not_mem_waitReady {pipe : ℕ} {c : Snapshot} {ready : FdSet × FdSet}
    (hr : c.rfds fd = false) (hw : c.wfds fd = false) :
    fd ∉ (waitReady pipe c ready).1 ∧ fd ∉ (waitReady pipe c ready).2 := by
  simp [waitReady, hr, hw]

end SelectAIO

end Yfs.Rpc
