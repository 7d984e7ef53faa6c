import Yfs.Rpc.SelectAIO
import Yfs.Effect.Transition

/-! The poll manager: its loop, and the threads that add and remove callbacks. -/
namespace Yfs.Rpc

open Effect

def maxPollFds : ℕ := 128

/-- Where the poll thread is in `wait_loop`. -/
inductive Poll where
  | top
  | entering
  | selecting (c : SelectAIO.Snapshot)
  | calling (readable writable : List ℕ)
  | running (fd : ℕ) (flag : PollFlag) (readable writable : List ℕ)

/-- A thread that waits in `block_remove_fd`, and whether it has been woken. -/
structure Remover where
  fd : ℕ
  woken : Bool
deriving DecidableEq

/-- A callback object is named by a number. -/
structure PollMgr where
  aio : SelectAIO
  callbacks : ℕ → Option ℕ
  pendingChange : Bool
  poll : Poll
  removers : ℕ → Option Remover

/-- Each event is one section under the lock, one call of select, or the start or the end of a
callback. A remover is named by its thread. -/
inductive PollEvent where
  | addCallback (fd : ℕ) (flag : PollFlag) (ch : ℕ)
  | delCallback (fd : ℕ) (flag : PollFlag)
  | removeBegin (thread fd : ℕ)
  | removeEnd (thread : ℕ)
  | loopTop
  | copySets
  | selected (ready : FdSet × FdSet)
  | interrupted
  | invoke
  | return

namespace PollMgr

def init (pipe : ℕ) : PollMgr := ⟨.init pipe, fun _ => none, false, .top, fun _ => none⟩

/-- There is no result when a VERIFY fails. -/
def addCallback (p : PollMgr) (fd : ℕ) (flag : PollFlag) (ch : ℕ) : Option PollMgr :=
  if fd < maxPollFds && (p.callbacks fd = none || p.callbacks fd = some ch) then
    some { p with
      aio := p.aio.watchFd fd flag
      callbacks := Function.update p.callbacks fd (some ch) }
  else none

def delCallback (p : PollMgr) (fd : ℕ) (flag : PollFlag) : PollMgr :=
  { p with
    aio := (p.aio.unwatchFd fd flag).2
    callbacks := if (p.aio.unwatchFd fd flag).1 then Function.update p.callbacks fd none
      else p.callbacks }

/-- `block_remove_fd` up to its wait. -/
def removeBegin (p : PollMgr) (thread fd : ℕ) : Option PollMgr :=
  match p.removers thread with
  | some _ => none
  | none => some { p with
      aio := (p.aio.unwatchFd fd .rdwr).2
      pendingChange := true
      removers := Function.update p.removers thread (some ⟨fd, false⟩) }

/-- `block_remove_fd` after its wait. -/
def removeEnd (p : PollMgr) (thread : ℕ) : Option PollMgr :=
  match p.removers thread with
  | some ⟨fd, true⟩ => some { p with
      callbacks := Function.update p.callbacks fd none
      removers := Function.update p.removers thread none }
  | _ => none

/-- The broadcast wakes every remover that waits. -/
def wakeAll (removers : ℕ → Option Remover) (t : ℕ) : Option Remover :=
  (removers t).map fun r => { r with woken := true }

def loopTop (p : PollMgr) : PollMgr :=
  if p.pendingChange then
    { p with pendingChange := false, removers := wakeAll p.removers, poll := .entering }
  else { p with poll := .entering }

/-- The next callback of the two lists, if it is still there. -/
def invoke (p : PollMgr) : List ℕ → List ℕ → PollMgr
  | fd :: readable, writable =>
    { p with poll := if (p.callbacks fd).isSome then .running fd .rdonly readable writable
      else .calling readable writable }
  | [], fd :: writable =>
    { p with poll := if (p.callbacks fd).isSome then .running fd .wronly [] writable
      else .calling [] writable }
  | [], [] => { p with poll := .top }

/-- An event that cannot happen has no result. -/
def step (p : PollMgr) : PollEvent → Option PollMgr
  | .addCallback fd flag ch => p.addCallback fd flag ch
  | .delCallback fd flag => some (p.delCallback fd flag)
  | .removeBegin thread fd => p.removeBegin thread fd
  | .removeEnd thread => p.removeEnd thread
  | .loopTop =>
    match p.poll with
    | .top => some p.loopTop
    | _ => none
  | .copySets =>
    match p.poll with
    | .entering => some { p with poll := .selecting p.aio.snapshot }
    | _ => none
  | .selected ready =>
    match p.poll with
    | .selecting c => some { p with
        poll := .calling ( SelectAIO.waitReady p.aio.pipe c ready).1
          ( SelectAIO.waitReady p.aio.pipe c ready).2 }
    | _ => none
  | .interrupted =>
    match p.poll with
    | .selecting _ => some { p with poll := .calling [] [] }
    | _ => none
  | .invoke =>
    match p.poll with
    | .calling readable writable => some (p.invoke readable writable)
    | _ => none
  | .return =>
    match p.poll with
    | .running _ _ readable writable => some { p with poll := .calling readable writable }
    | _ => none

/-- Whether a callback for the descriptor is running. -/
def Running (p : PollMgr) (fd : ℕ) : Prop :=
  ∃ flag readable writable, p.poll = .running fd flag readable writable

/-- What an event does, and when it can happen. -/
inductive Turns (p : PollMgr) : PollEvent → PollMgr → Prop
  | addCallback {fd ch : ℕ} {flag : PollFlag} : Turns p (.addCallback fd flag ch) { p with
      aio := p.aio.watchFd fd flag
      callbacks := Function.update p.callbacks fd (some ch) }
  | delCallback {fd : ℕ} {flag : PollFlag} :
    Turns p (.delCallback fd flag) (p.delCallback fd flag)
  | removeBegin {thread fd : ℕ} (hfree : p.removers thread = none) :
    Turns p (.removeBegin thread fd) { p with
      aio := (p.aio.unwatchFd fd .rdwr).2
      pendingChange := true
      removers := Function.update p.removers thread (some ⟨fd, false⟩) }
  | removeEnd {thread fd : ℕ} (hwoken : p.removers thread = some ⟨fd, true⟩) :
    Turns p (.removeEnd thread) { p with
      callbacks := Function.update p.callbacks fd none
      removers := Function.update p.removers thread none }
  | loopTop (hpoll : p.poll = .top) : Turns p .loopTop p.loopTop
  | copySets (hpoll : p.poll = .entering) :
    Turns p .copySets { p with poll := .selecting p.aio.snapshot }
  | selected {ready : FdSet × FdSet} {c : SelectAIO.Snapshot} (hpoll : p.poll = .selecting c) :
    Turns p (.selected ready) { p with
      poll := .calling ( SelectAIO.waitReady p.aio.pipe c ready).1
        ( SelectAIO.waitReady p.aio.pipe c ready).2 }
  | interrupted {c : SelectAIO.Snapshot} (hpoll : p.poll = .selecting c) :
    Turns p .interrupted { p with poll := .calling [] [] }
  | invoke {readable writable : List ℕ} (hpoll : p.poll = .calling readable writable) :
    Turns p .invoke (p.invoke readable writable)
  | return {fd : ℕ} {flag : PollFlag} {readable writable : List ℕ}
      (hpoll : p.poll = .running fd flag readable writable) :
    Turns p .return { p with poll := .calling readable writable }

theorem turns_of_step {p p' : PollMgr} {e : PollEvent} (hs : p.step e = some p') :
    p.Turns e p' := by
  cases e with
  | addCallback fd flag ch =>
    obtain ⟨-, hs⟩ := Option.ite_none_right_eq_some.mp hs
    rw [← Option.some.inj hs]
    exact .addCallback
  | delCallback fd flag =>
    rw [← Option.some.inj hs]
    exact .delCallback
  | removeBegin thread fd =>
    simp only [step, removeBegin] at hs
    split at hs
    · cases hs
    · next hfree =>
      rw [← Option.some.inj hs]
      exact .removeBegin hfree
  | removeEnd thread =>
    simp only [step, removeEnd] at hs
    split at hs
    · next fd hwoken =>
      rw [← Option.some.inj hs]
      exact .removeEnd hwoken
    · cases hs
  | loopTop =>
    simp only [step] at hs
    split at hs
    · next hpoll =>
      rw [← Option.some.inj hs]
      exact .loopTop hpoll
    · cases hs
  | copySets =>
    simp only [step] at hs
    split at hs
    · next hpoll =>
      rw [← Option.some.inj hs]
      exact .copySets hpoll
    · cases hs
  | selected ready =>
    simp only [step] at hs
    split at hs
    · next c hpoll =>
      rw [← Option.some.inj hs]
      exact .selected hpoll
    · cases hs
  | interrupted =>
    simp only [step] at hs
    split at hs
    · next c hpoll =>
      rw [← Option.some.inj hs]
      exact .interrupted hpoll
    · cases hs
  | invoke =>
    simp only [step] at hs
    split at hs
    · next readable writable hpoll =>
      rw [← Option.some.inj hs]
      exact .invoke hpoll
    · cases hs
  | «return» =>
    simp only [step] at hs
    split at hs
    · next fd flag readable writable hpoll =>
      rw [← Option.some.inj hs]
      exact .return hpoll
    · cases hs

end PollMgr

/-- The poll thread will not call back for `fd` before it looks at the sets again. -/
def Poll.Quiet (fd : ℕ) : Poll → Prop
  | .top => True
  | .entering => True
  | .selecting c => c.rfds fd = false ∧ c.wfds fd = false
  | .calling readable writable => fd ∉ readable ∧ fd ∉ writable
  | .running g _ readable writable => g ≠ fd ∧ fd ∉ readable ∧ fd ∉ writable

namespace PollMgr

variable {p p' : PollMgr} {t fd : ℕ} {e : PollEvent}

/-- No callback for `fd` is running or to come, or thread `t` waits until the poll thread has
looked at the sets again. -/
structure Leaving (t : Option ℕ) (fd : ℕ) (p : PollMgr) : Prop where
  unset : p.aio.unset fd = true
  quiet : p.poll.Quiet fd ∨
    ∃ u, t = some u ∧ p.removers u = some ⟨fd, false⟩ ∧ p.pendingChange = true

/-- The event adds a callback for `fd`. -/
def Adds (fd : ℕ) (e : PollEvent) : Prop := ∃ flag ch, e = .addCallback fd flag ch

theorem invoke_quiet {readable writable : List ℕ} (hr : fd ∉ readable) (hw : fd ∉ writable) :
    (p.invoke readable writable).poll.Quiet fd := by
  cases readable with
  | cons g readable =>
    obtain ⟨hg, hr⟩ := not_or.mp (mt List.mem_cons.mpr hr)
    unfold invoke
    dsimp only
    split_ifs
    · exact ⟨fun h => hg h.symm, hr, hw⟩
    · exact ⟨hr, hw⟩
  | nil =>
    cases writable with
    | cons g writable =>
      obtain ⟨hg, hw⟩ := not_or.mp (mt List.mem_cons.mpr hw)
      unfold invoke
      dsimp only
      split_ifs
      · exact ⟨fun h => hg h.symm, hr, hw⟩
      · exact ⟨hr, hw⟩
    | nil => trivial

/-- What the callbacks are and where the poll thread goes next changes nothing else. -/
theorem invoke_frame (p : PollMgr) (readable writable : List ℕ) :
    (p.invoke readable writable).aio = p.aio ∧
      (p.invoke readable writable).pendingChange = p.pendingChange ∧
      (p.invoke readable writable).removers = p.removers := by
  cases readable with
  | cons g readable => exact ⟨rfl, rfl, rfl⟩
  | nil => cases writable <;> exact ⟨rfl, rfl, rfl⟩

theorem callbacks_invoke (p : PollMgr) (readable writable : List ℕ) :
    (p.invoke readable writable).callbacks = p.callbacks := by
  cases readable with
  | cons g readable => rfl
  | nil => cases writable <;> rfl

namespace Leaving

variable {t : Option ℕ}

/-- A thread that has not been woken is not one that goes on. -/
theorem removers_update (h : Leaving t fd p) {u : ℕ} {r : Option Remover}
    (hu : p.removers u ≠ some ⟨fd, false⟩) :
    p.poll.Quiet fd ∨ ∃ v, t = some v ∧
      Function.update p.removers u r v = some ⟨fd, false⟩ ∧ p.pendingChange = true := by
  obtain hq | ⟨v, hv, hr, hp⟩ := h.quiet
  · exact Or.inl hq
  · have hne : v ≠ u := by
      rintro rfl
      exact hu hr
    exact Or.inr ⟨v, hv, (Function.update_of_ne hne _ _).trans hr, hp⟩

/-- One event. -/
theorem step (h : Leaving t fd p) (hs : p.step e = some p') (hadd : ¬ Adds fd e) :
    Leaving t fd p' := by
  cases turns_of_step hs with
  | @addCallback g ch flag =>
    have hg : fd ≠ g := fun hg => hadd ⟨flag, ch, by rw [hg]⟩
    exact ⟨ SelectAIO.unset_watchFd hg h.unset, h.quiet⟩
  | delCallback =>
    exact ⟨ SelectAIO.unset_unwatchFd.trans ( SelectAIO.unset_clear h.unset), h.quiet⟩
  | @removeBegin u g hfree =>
    refine ⟨ SelectAIO.unset_unwatchFd.trans ( SelectAIO.unset_clear h.unset), ?_⟩
    obtain hq | ⟨v, hv, hr, -⟩ := h.removers_update (u := u) (r := some ⟨g, false⟩) (by simp [hfree])
    · exact Or.inl hq
    · exact Or.inr ⟨v, hv, hr, rfl⟩
  | @removeEnd u g hwoken => exact ⟨h.unset, h.removers_update (u := u) (by simp [hwoken])⟩
  | loopTop hpoll =>
    unfold PollMgr.loopTop
    -- with a change pending every remover is woken, and the poll thread is at its top
    split_ifs
    · exact ⟨h.unset, Or.inl trivial⟩
    · exact ⟨h.unset, Or.inl trivial⟩
  | copySets hpoll => exact ⟨h.unset, Or.inl ( SelectAIO.unset_iff.mp h.unset)⟩
  | selected hpoll =>
    refine ⟨h.unset, h.quiet.imp_left fun hq => ?_⟩
    rw [hpoll] at hq
    exact SelectAIO.not_mem_waitReady hq.1 hq.2
  | interrupted hpoll =>
    exact ⟨h.unset, Or.inl ⟨List.not_mem_nil, List.not_mem_nil⟩⟩
  | @invoke readable writable hpoll =>
    obtain ⟨haio, hpend, hrem⟩ := invoke_frame p readable writable
    refine ⟨by rw [haio]; exact h.unset, ?_⟩
    rw [hpend, hrem]
    refine h.quiet.imp_left fun hq => ?_
    rw [hpoll] at hq
    exact invoke_quiet hq.1 hq.2
  | «return» hpoll =>
    refine ⟨h.unset, h.quiet.imp_left fun hq => ?_⟩
    rw [hpoll] at hq
    exact hq.2

/-- A run of events of which none adds a callback for `fd`. -/
theorem run (h : Leaving t fd p) {es : List PollEvent} (hr : runs PollMgr.step es p = some p')
    (hadd : ∀ e ∈ es, ¬ Adds fd e) : Leaving t fd p' :=
  runs_invariant_of PollMgr.step (fun _ _ _ h hadd hs => step h hs hadd) hadd h hr

end Leaving

theorem removeBegin_leaving (hs : p.removeBegin t fd = some p') : Leaving (some t) fd p' := by
  unfold removeBegin at hs
  split at hs
  · cases hs
  · rw [← Option.some.inj hs]
    exact ⟨ SelectAIO.unset_unwatchFd_self,
      Or.inr ⟨t, rfl, Function.update_self _ _ _, rfl⟩⟩

/-- A thread that goes on has been woken. -/
theorem Leaving.returned (h : Leaving (some t) fd p) (hs : p.removeEnd t = some p') :
    Leaving none fd p' := by
  unfold PollMgr.removeEnd at hs
  split at hs
  · next g hu =>
    rw [← Option.some.inj hs]
    obtain hq | ⟨v, hv, hr, -⟩ := h.quiet
    · exact ⟨h.unset, Or.inl hq⟩
    · rw [← Option.some.inj hv, hu] at hr
      cases hr
  · cases hs

theorem Leaving.not_running (h : Leaving none fd p) : ¬ p.Running fd := by
  intro hrun
  obtain ⟨flag, readable, writable, hp⟩ := hrun
  obtain hq | ⟨v, hv, -⟩ := h.quiet
  · rw [hp] at hq
    exact hq.1 rfl
  · cases hv

end PollMgr

/-- Once `block_remove_fd` has returned, no callback for the descriptor runs any more, unless one
has been added since it began. -/
theorem removal_final (pipe : ℕ) (before during after : List PollEvent) (thread fd : ℕ)
    (p : PollMgr)
    (hrun : runs PollMgr.step (before ++ .removeBegin thread fd :: during ++
      .removeEnd thread :: after) (.init pipe) = some p)
    (hadd : ∀ e ∈ during ++ after, ¬ PollMgr.Adds fd e) : ¬ p.Running fd := by
  obtain ⟨m, hbegin, hend⟩ := (runs_append_eq_some _).mp hrun
  obtain ⟨p₀, -, hbegin⟩ := (runs_append_eq_some _).mp hbegin
  obtain ⟨p₁, hp₁, hduring⟩ := (runs_cons_eq_some _).mp hbegin
  obtain ⟨p₂, hp₂, hafter⟩ := (runs_cons_eq_some _).mp hend
  have h₁ := (PollMgr.removeBegin_leaving hp₁).run hduring fun e he =>
    hadd e (List.mem_append_left _ he)
  have h₂ := (h₁.returned hp₂).run hafter fun e he => hadd e (List.mem_append_right _ he)
  exact h₂.not_running

/-- A callback of descriptor 5 is running when a thread begins to remove it. -/
def removeRunning : List PollEvent :=
  [.addCallback 5 .rdonly 1, .loopTop, .copySets, .selected (fun _ => true, fun _ => true),
    .invoke]

/-- The poll thread, between the two halves of the removal. -/
def finishLoop : List PollEvent := [.return, .invoke, .loopTop]

def anotherLoop : List PollEvent :=
  [.copySets, .selected (fun _ => true, fun _ => true), .invoke]

theorem removal_final_example :
    ∃ p, runs PollMgr.step (removeRunning ++ .removeBegin 0 5 :: finishLoop ++
      .removeEnd 0 :: anotherLoop) (.init 3) = some p ∧ ¬ p.Running 5 := by
  refine ⟨_, rfl, removal_final 3 removeRunning finishLoop anotherLoop 0 5 _ rfl ?_⟩
  intro e he hadd
  obtain ⟨flag, ch, rfl⟩ := hadd
  simp [finishLoop, anotherLoop] at he

end Yfs.Rpc
