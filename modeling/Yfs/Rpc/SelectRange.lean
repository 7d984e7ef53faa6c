import Yfs.Rpc.EPollAIO
import Mathlib.Data.Nat.Find
import Mathlib.Order.Bounds.Basic

/-! How far SelectAIO scans: `highfds_` is the last descriptor that is watched. -/
namespace Yfs.Rpc
open Effect

/-- A scan that remembers the last number with a property finds the greatest one. -/
theorem foldl_eq_findGreatest (p : ℕ → Bool) {m n : ℕ} (hm : p m = true) (hmn : m ≤ n) (d : ℕ) :
    (List.range (n + 1)).foldl (fun last i => if p i then i else last) d =
      Nat.findGreatest (fun i => p i = true) n := by
  induction n with
  | zero =>
    obtain rfl := Nat.le_zero.mp hmn
    exact if_pos hm
  | succ n ih =>
    rw [List.range_succ, List.foldl_append, List.foldl_cons, List.foldl_nil]
    by_cases hp : p (n + 1) = true
    · rw [if_pos hp, Nat.findGreatest_eq hp]
    · have hne : m ≠ n + 1 := by
        rintro rfl
        exact hp hm
      rw [if_neg hp, ih (by omega), Nat.findGreatest_of_not hp]

namespace SelectAIO

/-- The descriptors that are in one of the sets. -/
def watched (a : SelectAIO) : Set ℕ := {fd | a.rfds fd = true ∨ a.wfds fd = true}

def call (a : SelectAIO) : AioCall → SelectAIO
  | .watchFd fd flag => a.watchFd fd flag
  | .unwatchFd fd flag => (a.unwatchFd fd flag).2
  | .isWatched _ _ => a

/-- The pipe is always read, and `highfds_` is the last descriptor of the sets. -/
structure Covers (a : SelectAIO) : Prop where
  pipe : a.rfds a.pipe = true
  greatest : IsGreatest a.watched a.highfds

/-- What a snapshot has in its sets is scanned. -/
def Snapshot.Complete (c : Snapshot) : Prop :=
  ∀ fd, c.rfds fd = true ∨ c.wfds fd = true → fd ≤ c.high

variable {a : SelectAIO} {fd g high : ℕ} {flag : PollFlag}

theorem not_mem_watched : fd ∉ a.watched ↔ a.unset fd = true := by
  simp [watched, unset]

theorem watched_watchFd : (a.watchFd fd flag).watched = insert fd a.watched := by
  ext g
  change _ ∨ _ ↔ g = fd ∨ _ ∨ _
  rw [rfds_watchFd, wfds_watchFd']
  by_cases hg : g = fd
  · subst hg
    cases flag <;> simp
  · simp [hg]

theorem mem_watched_clear (hg : g ≠ fd) : g ∈ (a.clear fd flag).watched ↔ g ∈ a.watched := by
  simp [watched, rfds_clear, wfds_clear, hg]

theorem watched_clear_subset : (a.clear fd flag).watched ⊆ a.watched := by
  intro g hg
  by_contra hno
  have hunset : (a.clear fd flag).unset g = true := unset_clear (not_mem_watched.mp hno)
  exact not_mem_watched.mpr hunset hg

theorem lastSet_isGreatest (hfd : fd ∈ a.watched) (hhigh : high ∈ upperBounds a.watched) :
    IsGreatest a.watched (a.lastSet high) := by
  have hmem : ∀ {i}, (a.rfds i || a.wfds i) = true ↔ i ∈ a.watched := Bool.or_eq_true_iff
  have hle : fd ≤ high := hhigh hfd
  have hlast : a.lastSet high = Nat.findGreatest (fun i => (a.rfds i || a.wfds i) = true) high :=
    foldl_eq_findGreatest (fun i => a.rfds i || a.wfds i) (hmem.mpr hfd) hle a.pipe
  have hspec := Nat.findGreatest_spec (P := fun i => (a.rfds i || a.wfds i) = true) hle
    (hmem.mpr hfd)
  rw [hlast]
  exact ⟨hmem.mp hspec, fun g hg => Nat.le_findGreatest (hhigh hg) (hmem.mpr hg)⟩

theorem Covers.init (pipe : ℕ) : (init pipe).Covers := by
  have hpipe : FdSet.set (fun _ => false) pipe pipe = true := Function.update_self _ _ _
  refine ⟨hpipe, Or.inl hpipe, fun fd hfd => ?_⟩
  by_contra hlt
  have hne : fd ≠ pipe := fun heq => hlt (le_of_eq heq)
  have hread : FdSet.set (fun _ => false) pipe fd = false := Function.update_of_ne hne _ _
  exact not_mem_watched.mpr (unset_iff.mpr ⟨hread, rfl⟩) hfd

theorem Covers.watchFd (h : a.Covers) : (a.watchFd fd flag).Covers := by
  constructor
  · rw [rfds_watchFd]
    change Function.update a.rfds fd _ a.pipe = true
    rw [Function.update_apply]
    split_ifs with hp
    · rw [← hp, h.pipe, Bool.true_or]
    · exact h.pipe
  · have hmax : (a.watchFd fd flag).highfds = max a.highfds fd := (max_def ..).symm
    rw [watched_watchFd, hmax, max_comm]
    exact h.greatest.insert fd

/-- `highfds_` is looked for again only if its descriptor is in neither set any more. -/
theorem Covers.unwatchFd (h : a.Covers) (hne : fd ≠ a.pipe) :
    (a.unwatchFd fd flag).2.Covers := by
  obtain ⟨hrfds, -, hsame⟩ := unwatchFd_sets a fd flag
  have hpipe : (a.clear fd flag).rfds a.pipe = true := by
    rw [rfds_clear, Function.update_of_ne hne.symm]
    exact h.pipe
  have hhigh : a.highfds ∈ upperBounds (a.clear fd flag).watched :=
    fun g hg => h.greatest.2 (watched_clear_subset hg)
  refine ⟨by rw [hsame, hrfds]; exact hpipe, ?_⟩
  unfold SelectAIO.unwatchFd
  dsimp only
  split_ifs with hgone
  · exact lastSet_isGreatest (Or.inl hpipe) hhigh
  · refine ⟨?_, hhigh⟩
    by_cases hfd : fd = a.highfds
    · -- the descriptor is still in the other set
      have hset : fd ∈ (a.clear fd flag).watched := by
        by_contra hno
        exact hgone (Bool.and_eq_true_iff.mpr ⟨not_mem_watched.mp hno, decide_eq_true hfd⟩)
      exact hfd ▸ hset
    · exact (mem_watched_clear (Ne.symm hfd)).mpr h.greatest.1

theorem pipe_call (c : AioCall) : (a.call c).pipe = a.pipe := by
  cases c with
  | watchFd fd flag => rfl
  | unwatchFd fd flag => exact (unwatchFd_sets a fd flag).2.2
  | isWatched fd flag => rfl

theorem Covers.call (h : a.Covers) {c : AioCall} (hc : c.fd ≠ a.pipe) : (a.call c).Covers := by
  cases c with
  | watchFd fd flag => exact h.watchFd
  | unwatchFd fd flag => exact h.unwatchFd hc
  | isWatched fd flag => exact h

/-- A row of calls. -/
theorem Covers.calls (h : a.Covers) {cs : List AioCall} (hcs : ∀ c ∈ cs, c.fd ≠ a.pipe) :
    (cs.foldl SelectAIO.call a).Covers ∧ (cs.foldl SelectAIO.call a).pipe = a.pipe := by
  apply List.foldlRecOn cs SelectAIO.call (motive := fun b => b.Covers ∧ b.pipe = a.pipe)
  · exact ⟨h, rfl⟩
  · intro b hb c hc
    have hne : c.fd ≠ b.pipe := hb.2 ▸ hcs c hc
    exact ⟨hb.1.call hne, (pipe_call c).trans hb.2⟩

theorem Covers.complete (h : a.Covers) : a.snapshot.Complete := fun _ hfd => h.greatest.2 hfd

/-- `wait_ready` finds what select reports. -/
theorem mem_waitReady {pipe : ℕ} {c : Snapshot} (hc : c.Complete) (ready : FdSet × FdSet)
    (hne : fd ≠ pipe) :
    (fd ∈ (waitReady pipe c ready).1 ↔ c.rfds fd = true ∧ ready.1 fd = true) ∧
      (fd ∈ (waitReady pipe c ready).2 ↔ c.wfds fd = true ∧ ready.2 fd = true) := by
  have hr : c.rfds fd = true → fd < c.high + 1 := fun h => Nat.lt_succ_of_le (hc fd (Or.inl h))
  have hw : c.wfds fd = true → fd < c.high + 1 := fun h => Nat.lt_succ_of_le (hc fd (Or.inr h))
  unfold waitReady
  simp only [List.mem_filter, List.mem_range, hne, ne_eq, not_false_eq_true, decide_true,
    decide_false, Bool.true_and, Bool.false_and, Bool.not_false, Bool.and_eq_true]
  exact ⟨⟨And.right, fun h => ⟨hr h.1, h⟩⟩, ⟨And.right, fun h => ⟨hw h.1, h⟩⟩⟩

end SelectAIO

/-- However descriptors are watched and unwatched, `highfds_` is the last one that is in a set, so
that `wait_ready` scans all of them and finds every one that select reports. -/
theorem highfds_isGreatest (pipe : ℕ) {cs : List AioCall} (hcs : ∀ c ∈ cs, c.fd ≠ pipe)
    {a : SelectAIO} (ha : cs.foldl SelectAIO.call (.init pipe) = a) :
    a.rfds pipe = true ∧ IsGreatest a.watched a.highfds ∧
      (∀ fd ∈ a.watched, fd ∈ List.range (a.snapshot.high + 1)) ∧
      ∀ ready fd, fd ≠ pipe →
        (fd ∈ ( SelectAIO.waitReady pipe a.snapshot ready).1 ↔
          a.rfds fd = true ∧ ready.1 fd = true) ∧
        (fd ∈ ( SelectAIO.waitReady pipe a.snapshot ready).2 ↔
          a.wfds fd = true ∧ ready.2 fd = true) := by
  obtain ⟨h, hpipe⟩ := ( SelectAIO.Covers.init pipe).calls hcs
  rw [ha] at h hpipe
  have hread := h.pipe
  rw [hpipe] at hread
  refine ⟨hread, h.greatest, fun fd hfd => ?_, fun ready fd hne => ?_⟩
  · exact List.mem_range.mpr (Nat.lt_succ_of_le (h.greatest.2 hfd))
  · exact SelectAIO.mem_waitReady h.complete ready hne

/-- The last descriptor is unwatched, and the one before it for one of its directions. -/
theorem highfds_isGreatest_example :
    ∃ a, [.watchFd 9 .rdwr, .watchFd 12 .wronly, .unwatchFd 12 .rdwr, .unwatchFd 9 .rdonly].foldl
      SelectAIO.call (.init 7) = a ∧ a.highfds = 9 ∧ IsGreatest a.watched 9 := by
  have hcs : ∀ c ∈ [AioCall.watchFd 9 .rdwr, .watchFd 12 .wronly, .unwatchFd 12 .rdwr,
      .unwatchFd 9 .rdonly], c.fd ≠ 7 := by decide
  exact ⟨_, rfl, rfl, (highfds_isGreatest 7 hcs rfl).2.1⟩

/-- The event is for another descriptor than `pipe`. -/
def PollEvent.Spares (pipe : ℕ) : PollEvent → Prop
  | .addCallback fd _ _ | .delCallback fd _ | .removeBegin _ fd => fd ≠ pipe
  | _ => True

namespace PollMgr

variable {pipe : ℕ} {p p' : PollMgr}

/-- The sets are covered, and so is the copy of them that the poll thread has. -/
structure Covered (pipe : ℕ) (p : PollMgr) : Prop where
  pipe : p.aio.pipe = pipe
  aio : p.aio.Covers
  copied : ∀ c, p.poll = .selecting c → c.Complete

theorem Covered.init (pipe : ℕ) : (PollMgr.init pipe).Covered pipe :=
  ⟨rfl, .init pipe, fun c hc => by cases hc⟩

/-- The poll thread goes on without the sets. -/
theorem Covered.poll (h : p.Covered pipe) (haio : p'.aio = p.aio)
    (hpoll : ∀ c, p'.poll ≠ .selecting c) : p'.Covered pipe := by
  refine ⟨?_, ?_, fun c hc => absurd hc (hpoll c)⟩
  · rw [haio]
    exact h.pipe
  · rw [haio]
    exact h.aio

theorem Covered.unwatchFd (h : p.Covered pipe) {fd : ℕ} (hne : fd ≠ pipe) (flag : PollFlag)
    (haio : p'.aio = (p.aio.unwatchFd fd flag).2) (hpoll : p'.poll = p.poll) :
    p'.Covered pipe := by
  refine ⟨?_, ?_, fun c hc => h.copied c (hpoll ▸ hc)⟩
  · rw [haio, (unwatchFd_sets p.aio fd flag).2.2]
    exact h.pipe
  · rw [haio]
    exact h.aio.unwatchFd (h.pipe ▸ hne)

theorem invoke_not_selecting (readable writable : List ℕ) (c : SelectAIO.Snapshot) :
    (p.invoke readable writable).poll ≠ .selecting c := by
  cases readable with
  | cons g readable =>
    unfold invoke
    dsimp only
    split_ifs <;> simp
  | nil =>
    cases writable with
    | cons g writable =>
      unfold invoke
      dsimp only
      split_ifs <;> simp
    | nil => simp [invoke]

theorem Covered.step (h : p.Covered pipe) {e : PollEvent} (he : e.Spares pipe)
    (hs : p.step e = some p') : p'.Covered pipe := by
  cases turns_of_step hs with
  | addCallback => exact ⟨h.pipe, h.aio.watchFd, h.copied⟩
  | @delCallback fd flag => exact h.unwatchFd he flag rfl rfl
  | removeBegin hfree => exact h.unwatchFd he .rdwr rfl rfl
  | removeEnd hwoken => exact ⟨h.pipe, h.aio, h.copied⟩
  | loopTop hpoll =>
    unfold PollMgr.loopTop
    split_ifs
    · exact h.poll rfl (by simp)
    · exact h.poll rfl (by simp)
  | copySets hpoll =>
    refine ⟨h.pipe, h.aio, fun c hc => ?_⟩
    rw [← Poll.selecting.inj hc]
    exact h.aio.complete
  | selected hpoll => exact h.poll rfl (by simp)
  | interrupted hpoll => exact h.poll rfl (by simp)
  | @invoke readable writable hpoll =>
    exact h.poll (p.invoke_frame readable writable).1 (invoke_not_selecting readable writable)
  | «return» hpoll => exact h.poll rfl (by simp)

end PollMgr

end Yfs.Rpc
