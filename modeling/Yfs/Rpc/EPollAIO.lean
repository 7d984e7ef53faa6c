import Yfs.Effect.Transition
import Yfs.Rpc.PollMgr
import Mathlib.Tactic.SplitIfs

/-! The descriptors that EPollAIO watches, beside those of SelectAIO. -/
namespace Yfs.Rpc
open Effect

/-- The value of a `poll_flag`. -/
def PollFlag.bits : PollFlag → UInt32
  | .rdonly => 0x1
  | .wronly => 0x10
  | .rdwr => 0x11

/-- `CB_MASK` -/
def cbMask : UInt32 := ~~~0x11

def epollIn : UInt32 := 0x1

def epollOut : UInt32 := 0x4

def epollEt : UInt32 := 0x80000000

/-- What `epoll_ctl` is asked for. -/
inductive EpollOp where
  | add
  | mod
  | del
deriving DecidableEq

/-- It succeeds when ADD is for a descriptor that is not registered, and MOD and DEL for one that
is. -/
def epollCtl (registered : ℕ → Option UInt32) (op : EpollOp) (fd : ℕ) (ev : UInt32) :
    Option (ℕ → Option UInt32) :=
  match op, registered fd with
  | .add, none => some (Function.update registered fd (some ev))
  | .mod, some _ => some (Function.update registered fd (some ev))
  | .del, some _ => some (Function.update registered fd none)
  | _, _ => none

/-- `registered` are the events for which the kernel watches each descriptor. -/
structure EPollAIO where
  fdstatus : ℕ → UInt32
  registered : ℕ → Option UInt32

namespace EPollAIO

def init : EPollAIO := ⟨fun _ => 0, fun _ => none⟩

/-- `ev.events` for a status. -/
def events (status : UInt32) : UInt32 :=
  (if status &&& PollFlag.bits .rdonly ≠ 0 then epollEt ||| epollIn else epollEt) |||
    if status &&& PollFlag.bits .wronly ≠ 0 then epollOut else 0

/-- There is no result when a VERIFY fails. -/
def watchFd (a : EPollAIO) (fd : ℕ) (flag : PollFlag) : Option EPollAIO :=
  if ¬ fd < maxPollFds then none
  else if flag = .rdwr ∧ events (a.fdstatus fd ||| flag.bits) ≠ epollEt ||| epollIn ||| epollOut then
    none
  else
    (epollCtl a.registered (if a.fdstatus fd ≠ 0 then .mod else .add) fd
      (events (a.fdstatus fd ||| flag.bits))).map fun r =>
        ⟨Function.update a.fdstatus fd (a.fdstatus fd ||| flag.bits), r⟩

/-- What `unwatch_fd` asks for. -/
def unwatchOp (a : EPollAIO) (fd : ℕ) (flag : PollFlag) : EpollOp :=
  if a.fdstatus fd &&& ~~~flag.bits ≠ 0 then .mod else .del

def unwatchFd (a : EPollAIO) (fd : ℕ) (flag : PollFlag) : Option (Bool × EPollAIO) :=
  if ¬ fd < maxPollFds then none
  else if flag = .rdwr ∧ a.unwatchOp fd flag ≠ .del then none
  else
    (epollCtl a.registered (a.unwatchOp fd flag) fd
      (events (a.fdstatus fd &&& ~~~flag.bits))).map fun r =>
        (a.unwatchOp fd flag = .del,
          ⟨Function.update a.fdstatus fd (a.fdstatus fd &&& ~~~flag.bits), r⟩)

def isWatched (a : EPollAIO) (fd : ℕ) (flag : PollFlag) : Option Bool :=
  if fd < maxPollFds then some (a.fdstatus fd &&& cbMask = flag.bits) else none

/-- Whether the kernel watches the descriptor for reading, and for writing. -/
def reads (a : EPollAIO) (fd : ℕ) : Bool := (a.registered fd).any fun ev => ev &&& epollIn ≠ 0

def writes (a : EPollAIO) (fd : ℕ) : Bool := (a.registered fd).any fun ev => ev &&& epollOut ≠ 0

end EPollAIO

def SelectAIO.isWatched (a : SelectAIO) (fd : ℕ) : PollFlag → Bool
  | .rdonly => a.rfds fd
  | .wronly => a.wfds fd
  | .rdwr => a.rfds fd && a.wfds fd

inductive AioCall where
  | watchFd (fd : ℕ) (flag : PollFlag)
  | unwatchFd (fd : ℕ) (flag : PollFlag)
  | isWatched (fd : ℕ) (flag : PollFlag)

def AioCall.fd : AioCall → ℕ
  | .watchFd fd _ => fd
  | .unwatchFd fd _ => fd
  | .isWatched fd _ => fd

/-- The two, given the same calls. -/
structure AioPair where
  select : SelectAIO
  epoll : EPollAIO

namespace AioPair

def init (pipe : ℕ) : AioPair := ⟨.init pipe, .init⟩

def step (s : AioPair) : AioCall → Option AioPair
  | .watchFd fd flag => (s.epoll.watchFd fd flag).map fun e => ⟨s.select.watchFd fd flag, e⟩
  | .unwatchFd fd flag => (s.epoll.unwatchFd fd flag).map fun r =>
    ⟨(s.select.unwatchFd fd flag).2, r.2⟩
  | .isWatched fd flag => (s.epoll.isWatched fd flag).map fun _ => s

/-- A call is for a descriptor of another than SelectAIO, and only one that is watched for something
is unwatched. -/
def allowed (s : AioPair) (c : AioCall) : Bool :=
  c.fd < maxPollFds && c.fd ≠ s.select.pipe && match c with
    | .unwatchFd fd _ => !s.select.unset fd
    | _ => true

/-- Both give the same result. -/
def alike (s : AioPair) : AioCall → Prop
  | .watchFd _ _ => True
  | .unwatchFd fd flag =>
    (s.epoll.unwatchFd fd flag).map Prod.fst = some (s.select.unwatchFd fd flag).1
  | .isWatched fd flag => s.epoll.isWatched fd flag = some (s.select.isWatched fd flag)

/-- The call does not ask for what is watched. -/
def unasked (s : AioPair) : AioCall → Prop
  | .isWatched fd flag => s.select.isWatched fd flag = false
  | _ => True

/-- The pipe apart, both watch the same. -/
def Watching (s : AioPair) : Prop :=
  ∀ fd, fd ≠ s.select.pipe → s.epoll.reads fd = s.select.rfds fd ∧ s.epoll.writes fd = s.select.wfds fd

end AioPair

/-! The mask of a descriptor that is in these sets. -/

def statusOf (r w : Bool) : UInt32 := (if r then 0x1 else 0) ||| if w then 0x10 else 0

section Mask
variable (r w : Bool) (flag : PollFlag)

theorem statusOf_eq_zero : statusOf r w = 0 ↔ r = false ∧ w = false := by
  cases r <;> cases w <;> decide

theorem statusOf_set :
    statusOf r w ||| flag.bits = statusOf (r || flag ≠ .wronly) (w || flag ≠ .rdonly) := by
  cases flag <;> cases r <;> cases w <;> decide

theorem statusOf_clear :
    statusOf r w &&& ~~~flag.bits = statusOf (r && flag = .wronly) (w && flag = .rdonly) := by
  cases flag <;> cases r <;> cases w <;> decide

/-- The mask of `is_watched` keeps no bit of a status. -/
theorem statusOf_mask : statusOf r w &&& cbMask = 0 := by
  cases r <;> cases w <;> decide

theorem bits_ne_zero : flag.bits ≠ 0 := by
  cases flag <;> decide

theorem events_statusOf :
    EPollAIO.events (statusOf r w) &&& epollIn = (if r then epollIn else 0) ∧
      EPollAIO.events (statusOf r w) &&& epollOut = if w then epollOut else 0 := by
  cases r <;> cases w <;> decide

theorem statusOf_gone : decide ((if statusOf r w ≠ 0 then EpollOp.mod else .del) = .del) =
    (!r && !w) := by
  cases r <;> cases w <;> decide

theorem events_both : EPollAIO.events (statusOf true true) = epollEt ||| epollIn ||| epollOut := by
  decide

end Mask

section Sets
variable (a : SelectAIO) (fd : ℕ) (flag : PollFlag)

theorem rfds_watchFd : (a.watchFd fd flag).rfds =
    Function.update a.rfds fd (a.rfds fd || flag ≠ .wronly) := by
  cases flag <;> simp [ SelectAIO.watchFd, FdSet.set]

theorem wfds_watchFd' : (a.watchFd fd flag).wfds =
    Function.update a.wfds fd (a.wfds fd || flag ≠ .rdonly) := by
  cases flag <;> simp [ SelectAIO.watchFd, FdSet.set]

theorem rfds_clear : (a.clear fd flag).rfds =
    Function.update a.rfds fd (a.rfds fd && flag = .wronly) := by
  cases flag <;> simp [ SelectAIO.clear, FdSet.clr]

theorem wfds_clear : (a.clear fd flag).wfds =
    Function.update a.wfds fd (a.wfds fd && flag = .rdonly) := by
  cases flag <;> simp [ SelectAIO.clear, FdSet.clr]

theorem unwatchFd_sets : (a.unwatchFd fd flag).2.rfds = (a.clear fd flag).rfds ∧
    (a.unwatchFd fd flag).2.wfds = (a.clear fd flag).wfds ∧
    (a.unwatchFd fd flag).2.pipe = a.pipe := by
  unfold SelectAIO.unwatchFd
  dsimp only
  split_ifs
  · exact ⟨rfl, rfl, rfl⟩
  · exact ⟨rfl, rfl, rfl⟩

end Sets

namespace AioPair

/-- The mask of every descriptor is that of the two sets, and the kernel watches it accordingly. -/
structure Agrees (s : AioPair) : Prop where
  status : ∀ fd, fd ≠ s.select.pipe →
    s.epoll.fdstatus fd = statusOf (s.select.rfds fd) (s.select.wfds fd)
  registered : ∀ fd, fd ≠ s.select.pipe → s.epoll.registered fd =
    if s.epoll.fdstatus fd = 0 then none else some ( EPollAIO.events (s.epoll.fdstatus fd))

variable {s s' : AioPair} {fd : ℕ} {flag : PollFlag}

theorem Agrees.init (pipe : ℕ) : (AioPair.init pipe).Agrees where
  status fd hne := by
    have hr : FdSet.set (fun _ => false) pipe fd = false := Function.update_of_ne hne _ _
    exact ((statusOf_eq_zero _ _).mpr ⟨hr, rfl⟩).symm
  registered fd _ := rfl

theorem Agrees.watching (h : s.Agrees) : s.Watching := by
  intro fd hne
  unfold EPollAIO.reads EPollAIO.writes
  rw [h.registered fd hne, h.status fd hne]
  obtain ⟨hin, hout⟩ := events_statusOf (s.select.rfds fd) (s.select.wfds fd)
  by_cases hz : statusOf (s.select.rfds fd) (s.select.wfds fd) = 0
  · obtain ⟨hr, hw⟩ := (statusOf_eq_zero _ _).mp hz
    rw [if_pos hz, hr, hw]
    exact ⟨rfl, rfl⟩
  · rw [if_neg hz, Option.any_some, Option.any_some, hin, hout]
    cases s.select.rfds fd <;> cases s.select.wfds fd <;> decide

/-- One descriptor gets another mask. -/
theorem Agrees.update (h : s.Agrees) {a : SelectAIO} {e : EPollAIO} {r w : Bool}
    (hpipe : a.pipe = s.select.pipe) (hr : a.rfds = Function.update s.select.rfds fd r)
    (hw : a.wfds = Function.update s.select.wfds fd w)
    (hs : e.fdstatus = Function.update s.epoll.fdstatus fd (statusOf r w))
    (hk : e.registered = Function.update s.epoll.registered fd
      (if statusOf r w = 0 then none else some ( EPollAIO.events (statusOf r w)))) :
    (⟨a, e⟩ : AioPair).Agrees := by
  constructor
  · intro g hg
    dsimp only at hg ⊢
    rw [hpipe] at hg
    rw [hs, hr, hw]
    by_cases hne : g = fd
    · rw [hne, Function.update_self, Function.update_self, Function.update_self]
    · rw [Function.update_of_ne hne, Function.update_of_ne hne, Function.update_of_ne hne]
      exact h.status g hg
  · intro g hg
    dsimp only at hg ⊢
    rw [hpipe] at hg
    rw [hk, hs]
    by_cases hne : g = fd
    · rw [hne, Function.update_self, Function.update_self]
    · rw [Function.update_of_ne hne, Function.update_of_ne hne]
      exact h.registered g hg

theorem Agrees.unset_iff (h : s.Agrees) (hne : fd ≠ s.select.pipe) :
    s.select.unset fd = true ↔ s.epoll.fdstatus fd = 0 := by
  rw [h.status fd hne, statusOf_eq_zero]
  exact SelectAIO.unset_iff

theorem Agrees.watchFd (h : s.Agrees) (hfd : fd < maxPollFds) (hne : fd ≠ s.select.pipe) :
    ∃ s', s.step (.watchFd fd flag) = some s' ∧ s'.Agrees := by
  have hstatus : s.epoll.fdstatus fd ||| flag.bits = statusOf
      (s.select.rfds fd || flag ≠ .wronly) (s.select.wfds fd || flag ≠ .rdonly) := by
    rw [h.status fd hne]
    exact statusOf_set _ _ _
  have hboth : ¬ (flag = .rdwr ∧ EPollAIO.events (s.epoll.fdstatus fd ||| flag.bits) ≠
      epollEt ||| epollIn ||| epollOut) := by
    rintro ⟨rfl, hev⟩
    apply hev
    rw [hstatus]
    simpa using events_both
  have hnz : statusOf (s.select.rfds fd || flag ≠ .wronly) (s.select.wfds fd || flag ≠ .rdonly) ≠
      0 := by
    intro hz
    obtain ⟨hr, hw⟩ := (statusOf_eq_zero _ _).mp hz
    cases flag <;> simp at hr hw
  -- ADD for the first watch of a descriptor and MOD for every other
  have hctl : epollCtl s.epoll.registered (if s.epoll.fdstatus fd ≠ 0 then .mod else .add) fd
      ( EPollAIO.events (s.epoll.fdstatus fd ||| flag.bits)) =
      some (Function.update s.epoll.registered fd
        (some ( EPollAIO.events (s.epoll.fdstatus fd ||| flag.bits)))) := by
    unfold epollCtl
    rw [h.registered fd hne]
    by_cases hz : s.epoll.fdstatus fd = 0
    · rw [if_pos hz, if_neg (not_not.mpr hz)]
    · rw [if_neg hz, if_pos hz]
  have hrun : s.epoll.watchFd fd flag =
      some ⟨Function.update s.epoll.fdstatus fd (s.epoll.fdstatus fd ||| flag.bits),
        Function.update s.epoll.registered fd
          (some ( EPollAIO.events (s.epoll.fdstatus fd ||| flag.bits)))⟩ := by
    unfold EPollAIO.watchFd
    rw [if_neg (not_not.mpr hfd), if_neg hboth, hctl]
    rfl
  refine ⟨_, congrArg (Option.map _) hrun, ?_⟩
  have hpipe : (s.select.watchFd fd flag).pipe = s.select.pipe := rfl
  apply Agrees.update h hpipe (rfds_watchFd s.select fd flag) (wfds_watchFd' s.select fd flag)
  · dsimp only
    rw [hstatus]
  · dsimp only
    rw [hstatus, if_neg hnz]

theorem Agrees.unwatchFd (h : s.Agrees) (hfd : fd < maxPollFds) (hne : fd ≠ s.select.pipe)
    (hset : s.select.unset fd = false) :
    ∃ s', s.step (.unwatchFd fd flag) = some s' ∧ s'.Agrees ∧ s.alike (.unwatchFd fd flag) := by
  obtain ⟨hr, hw, hpipe⟩ := unwatchFd_sets s.select fd flag
  have hstatus : s.epoll.fdstatus fd &&& ~~~flag.bits = statusOf
      (s.select.rfds fd && flag = .wronly) (s.select.wfds fd && flag = .rdonly) := by
    rw [h.status fd hne]
    exact statusOf_clear _ _ _
  have hz : s.epoll.fdstatus fd ≠ 0 := by
    intro hz
    rw [(h.unset_iff hne).mpr hz] at hset
    cases hset
  have hdel : ¬ (flag = .rdwr ∧ s.epoll.unwatchOp fd flag ≠ .del) := by
    rintro ⟨rfl, hop⟩
    apply hop
    unfold EPollAIO.unwatchOp
    rw [hstatus]
    simp [statusOf]
  have hctl : epollCtl s.epoll.registered (s.epoll.unwatchOp fd flag) fd
      ( EPollAIO.events (s.epoll.fdstatus fd &&& ~~~flag.bits)) =
      some (Function.update s.epoll.registered fd
        (if s.epoll.fdstatus fd &&& ~~~flag.bits = 0 then none
          else some ( EPollAIO.events (s.epoll.fdstatus fd &&& ~~~flag.bits)))) := by
    unfold epollCtl EPollAIO.unwatchOp
    rw [h.registered fd hne, if_neg hz]
    by_cases hnew : s.epoll.fdstatus fd &&& ~~~flag.bits = 0
    · rw [if_pos hnew, if_neg (not_not.mpr hnew)]
    · rw [if_neg hnew, if_pos hnew]
  have hrun : s.epoll.unwatchFd fd flag = some (decide (s.epoll.unwatchOp fd flag = .del),
      ⟨Function.update s.epoll.fdstatus fd (s.epoll.fdstatus fd &&& ~~~flag.bits),
        Function.update s.epoll.registered fd
          (if s.epoll.fdstatus fd &&& ~~~flag.bits = 0 then none
            else some ( EPollAIO.events (s.epoll.fdstatus fd &&& ~~~flag.bits)))⟩) := by
    unfold EPollAIO.unwatchFd
    rw [if_neg (not_not.mpr hfd), if_neg hdel, hctl]
    rfl
  refine ⟨_, congrArg (Option.map _) hrun, ?_, ?_⟩
  · apply Agrees.update h hpipe (hr.trans (rfds_clear s.select fd flag))
      (hw.trans (wfds_clear s.select fd flag))
    · dsimp only
      rw [hstatus]
    · dsimp only
      rw [hstatus]
  · -- both say whether anything is left of the descriptor
    unfold AioPair.alike
    dsimp only
    rw [hrun, Option.map_some]
    unfold EPollAIO.unwatchOp SelectAIO.unwatchFd SelectAIO.unset
    dsimp only
    rw [hstatus, rfds_clear, wfds_clear, Function.update_self, Function.update_self]
    exact congrArg some (statusOf_gone _ _)

/-- The mask of `is_watched` is the complement of the one it needs, so EPollAIO always says no. -/
theorem Agrees.isWatched (h : s.Agrees) (hfd : fd < maxPollFds) (hne : fd ≠ s.select.pipe) :
    s.epoll.isWatched fd flag = some false := by
  unfold EPollAIO.isWatched
  rw [if_pos hfd, h.status fd hne, statusOf_mask]
  exact congrArg some (decide_eq_false (bits_ne_zero flag).symm)

/-- No call makes the two differ, but for `is_watched` they do not answer alike. -/
theorem Agrees.step (h : s.Agrees) {c : AioCall} (hc : s.allowed c = true) :
    ∃ s', s.step c = some s' ∧ s'.Agrees ∧ (s.alike c ↔ s.unasked c) := by
  unfold AioPair.allowed at hc
  simp only [Bool.and_eq_true, decide_eq_true_eq] at hc
  obtain ⟨⟨hfd, hne⟩, hset⟩ := hc
  cases c with
  | watchFd fd flag =>
    obtain ⟨s', hs, h'⟩ := h.watchFd hfd hne
    exact ⟨s', hs, h', Iff.rfl⟩
  | unwatchFd fd flag =>
    obtain ⟨s', hs, h', halike⟩ := h.unwatchFd hfd hne ((Bool.not_eq_true' _).mp hset)
    exact ⟨s', hs, h', iff_of_true halike trivial⟩
  | isWatched fd flag =>
    have hno : s.epoll.isWatched fd flag = some false := h.isWatched hfd hne
    refine ⟨s, congrArg (Option.map _) hno, h, ?_⟩
    unfold AioPair.alike AioPair.unasked
    dsimp only
    rw [hno, Option.some_inj]
    exact eq_comm

end AioPair

/-- Both always watch the same and answer `unwatch_fd` alike, and they answer `is_watched` alike as
long as it is not asked for what is watched. -/
theorem aio_agree (pipe : ℕ) {cs : List AioCall}
    (hm : Meets AioPair.step (fun s c => s.allowed c = true) cs (.init pipe)) :
    (∃ s, runs AioPair.step cs (.init pipe) = some s ∧ s.Watching) ∧
      (Meets AioPair.step AioPair.alike cs (.init pipe) ↔
        Meets AioPair.step AioPair.unasked cs (.init pipe)) := by
  have hinit := AioPair.Agrees.init pipe
  generalize AioPair.init pipe = s at hm hinit
  induction cs generalizing s with
  | nil => exact ⟨⟨s, rfl, hinit.watching⟩, Iff.rfl⟩
  | cons c cs ih =>
    obtain ⟨s', hs, h', hiff⟩ := hinit.step hm.1
    obtain ⟨⟨t, ht, hw⟩, hrest⟩ := ih s' (hm.2 s' hs) h'
    refine ⟨⟨t, ?_, hw⟩, and_congr hiff ?_⟩
    · rw [runs_cons, hs]
      exact ht
    · constructor
      · intro ha t' ht'
        rw [hs] at ht'
        obtain rfl := Option.some.inj ht'
        exact hrest.mp (ha s' hs)
      · intro hu t' ht'
        rw [hs] at ht'
        obtain rfl := Option.some.inj ht'
        exact hrest.mpr (hu s' hs)

theorem aio_agree_example :
    ∃ s, runs AioPair.step [.watchFd 3 .rdwr, .unwatchFd 3 .wronly, .isWatched 3 .rdwr]
      (.init 7) = some s ∧ s.Watching :=
  (aio_agree 7 (by decide)).1

/-- A descriptor that is watched, and EPollAIO says it is not. -/
theorem isWatched_differs :
    ¬ ∀ (pipe : ℕ) (cs : List AioCall),
      Meets AioPair.step (fun s c => s.allowed c = true) cs (.init pipe) →
      Meets AioPair.step AioPair.alike cs (.init pipe) := by
  intro h
  have hm := (h 7 [.watchFd 3 .rdonly, .isWatched 3 .rdonly] (by decide)).2 _ rfl
  have hsame : some false = some true := hm.1
  cases hsame

end Yfs.Rpc
