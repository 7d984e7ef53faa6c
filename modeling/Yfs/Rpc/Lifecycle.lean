import Yfs.Rpc.ReplyWindow

/-! The life of a request in the reply window, over any row of checks and replies. -/
namespace Yfs.Rpc

variable {β : Type}

inductive Event (β : Type) where
  | request (nonce xid xidRep : UInt32)
  | reply (nonce xid : UInt32) (buf : β) (sz : Int32)

/-- What an event leaves in the history. -/
inductive Entry (β : Type) where
  | verdict (nonce xid : UInt32) (v : Verdict β)
  | stored (nonce xid : UInt32) (buf : β) (sz : Int32)

structure History (β : Type) where
  window : ReplyWindow β
  log : List (Entry β)

namespace History

def start : History β := ⟨fun _ => [], []⟩

def next : Event β → History β → History β
  | .request nonce xid xidRep, s =>
    ⟨(checkduplicateAndUpdate s.window nonce xid xidRep).2,
      s.log ++ [.verdict nonce xid (checkduplicateAndUpdate s.window nonce xid xidRep).1]⟩
  | .reply nonce xid buf sz, s =>
    ⟨addReply s.window nonce xid buf sz, s.log ++ [.stored nonce xid buf sz]⟩

def after (events : List (Event β)) : History β :=
  events.foldl (fun s e => next e s) start

theorem window_request (s : History β) (nonce xid xidRep n : UInt32) :
    (next (.request nonce xid xidRep) s).window n =
      if n = nonce then (checkList (s.window nonce) xid xidRep).2 else s.window n :=
  Function.update_apply ..

theorem window_reply (s : History β) (nonce xid : UInt32) (b : β) (sz : Int32) (n : UInt32) :
    (next (.reply nonce xid b sz) s).window n =
      if n = nonce then storeReply (s.window nonce) xid b sz else s.window n :=
  Function.update_apply ..

theorem log_request (s : History β) (nonce xid xidRep : UInt32) :
    (next (.request nonce xid xidRep) s).log =
      s.log ++ [.verdict nonce xid (checkList (s.window nonce) xid xidRep).1] := rfl

theorem log_reply (s : History β) (nonce xid : UInt32) (b : β) (sz : Int32) :
    (next (.reply nonce xid b sz) s).log = s.log ++ [.stored nonce xid b sz] := rfl

/-- A request acknowledges only smaller xids, and a reply answers a request that was new. -/
def Allowed : Event β → History β → Prop
  | .request _ xid xidRep, _ => xidRep < xid
  | .reply nonce xid _ _, s => .verdict nonce xid .new ∈ s.log

end History

/-- The verdicts on one request, in the order in which they were given. -/
def verdicts (nonce xid : UInt32) (log : List (Entry β)) : List (Verdict β) :=
  log.filterMap fun
    | .verdict n x v => if n = nonce ∧ x = xid then some v else none
    | .stored .. => none

/-- What was stored last for a request. -/
def lastStored (nonce xid : UInt32) (log : List (Entry β)) : Option (β × Int32) :=
  log.reverse.findSome? fun
    | .verdict .. => none
    | .stored n x b sz => if n = nonce ∧ x = xid then some (b, sz) else none

section Log

variable {log : List (Entry β)} {nonce xid n x : UInt32} {v : Verdict β} {b : β} {sz : Int32}

theorem lastStored_verdict : lastStored nonce xid (log ++ [.verdict n x v]) =
    lastStored nonce xid log := by
  simp [lastStored]

theorem lastStored_stored : lastStored nonce xid (log ++ [.stored n x b sz]) =
    if n = nonce ∧ x = xid then some (b, sz) else lastStored nonce xid log := by
  simp only [lastStored, List.reverse_append, List.reverse_singleton, List.singleton_append,
    List.findSome?_cons]
  split_ifs <;> rfl

end Log

/-- How the windows and what has been logged belong together. -/
structure Coherent (s : History β) : Prop where
  sorted : ∀ nonce, Sorted (s.window nonce)
  judged : ∀ nonce xid v, .verdict nonce xid v ∈ s.log →
    max 1 v.rank ≤ age (s.window nonce) xid
  answered : ∀ nonce xid b sz, .stored nonce xid b sz ∈ s.log → 2 ≤ age (s.window nonce) xid
  kept : ∀ nonce, ∀ r ∈ s.window nonce, r.cbPresent = true →
    (lastStored nonce r.xid s.log).map (fun p => (some p.1, p.2)) = some (r.buf, r.sz)

/-- Two entries in the order in which they may stand in a log. -/
def InOrder : Entry β → Entry β → Prop
  | .verdict n x v, .verdict n' x' v' => n = n' → x = x' → max 1 v.rank ≤ v'.rank
  | .stored n x _ _, .verdict n' x' v' => n = n' → x = x' → 2 ≤ v'.rank
  | _, .stored .. => True

/-- The replies that were given back are the ones stored last. -/
def Faithful (log : List (Entry β)) : Prop :=
  ∀ l₁ l₂ nonce xid b sz, log = l₁ ++ .verdict nonce xid (.done b sz) :: l₂ →
    (lastStored nonce xid l₁).map (fun p => (some p.1, p.2)) = some (b, sz)

namespace Coherent

variable {s : History β} {nonce xid xidRep : UInt32} {b : β} {sz : Int32}

theorem start : Coherent (History.start : History β) where
  sorted _ := List.Pairwise.nil
  judged _ _ _ h := by cases h
  answered _ _ _ _ h := by cases h
  kept _ r h := by cases h

theorem age_request (h : Coherent s) (hrep : xidRep < xid) (n x : UInt32) :
    age (s.window n) x ≤ age ((History.next (.request nonce xid xidRep) s).window n) x := by
  rw [History.window_request]
  split_ifs with hn
  · subst hn
    exact (age_checkList (h.sorted n) (le_of_lt hrep)).1 x
  · exact le_rfl

theorem request (h : Coherent s) (hrep : xidRep < xid) :
    Coherent (History.next (.request nonce xid xidRep) s) where
  sorted n := by
    by_cases hn : n = nonce
    · subst hn
      rw [History.window_request, if_pos rfl]
      exact sorted_checkList (h.sorted n)
    · rw [History.window_request, if_neg hn]
      exact h.sorted n
  judged n x v hv := by
    obtain hv | hv := List.mem_append.mp hv
    · exact le_trans (h.judged n x v hv) (h.age_request hrep n x)
    · cases List.mem_singleton.mp hv
      rw [History.window_request, if_pos rfl, checkduplicateAndUpdate, rank_checkList]
      obtain ⟨hmono, h1⟩ := age_checkList (h.sorted nonce) (le_of_lt hrep)
      exact max_le h1 (hmono xid)
  answered n x b sz hb := by
    obtain hb | hb := List.mem_append.mp hb
    · exact le_trans (h.answered n x b sz hb) (h.age_request hrep n x)
    · cases List.mem_singleton.mp hb
  kept n r hr hc := by
    rw [History.log_request, lastStored_verdict]
    by_cases hn : n = nonce
    · subst hn
      rw [History.window_request, if_pos rfl] at hr
      rcases checkList_cases (h.sorted n) xid xidRep with ⟨a, -, -, -, he⟩ | ⟨a, -, -, -, he⟩ |
        ⟨-, -, he⟩ | ⟨hne, -, he⟩
      · rw [he] at hr
        exact h.kept n r hr hc
      · rw [he] at hr
        exact h.kept n r hr hc
      · rw [he] at hr
        exact h.kept n r hr hc
      · rw [he] at hr
        obtain ⟨rfl | hr, -⟩ := (mem_new (h.sorted n) hne).mp hr
        · cases hc
        · exact h.kept n r hr hc
    · rw [History.window_request, if_neg hn] at hr
      exact h.kept n r hr hc

theorem age_reply (h : Coherent s) (n x : UInt32) :
    age (s.window n) x ≤ age ((History.next (.reply nonce xid b sz) s).window n) x := by
  rw [History.window_reply]
  split_ifs with hn
  · subst hn
    exact (age_storeReply (h.sorted n)).1 x
  · exact le_rfl

theorem reply (h : Coherent s) (hnew : .verdict nonce xid .new ∈ s.log) :
    Coherent (History.next (.reply nonce xid b sz) s) where
  sorted n := by
    by_cases hn : n = nonce
    · subst hn
      rw [History.window_reply, if_pos rfl]
      exact sorted_storeReply (h.sorted n)
    · rw [History.window_reply, if_neg hn]
      exact h.sorted n
  judged n x v hv := by
    obtain hv | hv := List.mem_append.mp hv
    · exact le_trans (h.judged n x v hv) (h.age_reply n x)
    · cases List.mem_singleton.mp hv
  answered n x b' sz' hb := by
    obtain hb | hb := List.mem_append.mp hb
    · exact le_trans (h.answered n x b' sz' hb) (h.age_reply n x)
    · cases List.mem_singleton.mp hb
      rw [History.window_reply, if_pos rfl]
      exact (age_storeReply (h.sorted nonce)).2 (h.judged nonce xid .new hnew)
  kept n r hr hc := by
    rw [History.log_reply, lastStored_stored]
    by_cases hn : n = nonce
    · subst hn
      rw [History.window_reply, if_pos rfl] at hr
      obtain ⟨a, -, rfl, rfl⟩ | ⟨hr, hx⟩ := mem_storeReply.mp hr
      · rw [if_pos ⟨rfl, rfl⟩]
        rfl
      · rw [if_neg fun hx' => hx hx'.2.symm]
        exact h.kept n r hr hc
    · rw [History.window_reply, if_neg hn] at hr
      rw [if_neg fun hn' => hn hn'.1.symm]
      exact h.kept n r hr hc

/-- What a check answers fits everything logged before. -/
theorem inOrder (h : Coherent s) (e : Entry β) (he : e ∈ s.log) :
    InOrder e (.verdict nonce xid (checkduplicateAndUpdate s.window nonce xid xidRep).1) := by
  rw [checkduplicateAndUpdate]
  cases e with
  | verdict n x v =>
    intro hn hx
    subst hn hx
    rw [rank_checkList]
    exact h.judged n x v he
  | stored n x b sz =>
    intro hn hx
    subst hn hx
    rw [rank_checkList]
    exact h.answered n x b sz he

/-- A reply that is given back is the one stored last. -/
theorem done_eq (h : Coherent s) {buf : Option β}
    (hv : (checkduplicateAndUpdate s.window nonce xid xidRep).1 = .done buf sz) :
    (lastStored nonce xid s.log).map (fun p => (some p.1, p.2)) = some (buf, sz) := by
  rw [checkduplicateAndUpdate] at hv
  rcases checkList_cases (h.sorted nonce) xid xidRep with ⟨r, hr, rfl, hc, he⟩ | ⟨r, -, -, -, he⟩ |
    ⟨-, -, he⟩ | ⟨-, -, he⟩
  · rw [he] at hv
    cases hv
    exact h.kept nonce r hr hc
  · rw [he] at hv
    cases hv
  · rw [he] at hv
    cases hv
  · rw [he] at hv
    cases hv

end Coherent

theorem Faithful.append {log : List (Entry β)} (h : Faithful log) {e : Entry β}
    (he : ∀ nonce xid b sz, e = .verdict nonce xid (.done b sz) →
      (lastStored nonce xid log).map (fun p => (some p.1, p.2)) = some (b, sz)) :
    Faithful (log ++ [e]) := by
  intro l₁ l₂ nonce xid b sz heq
  obtain rfl | ⟨l₂, z, rfl⟩ := List.eq_nil_or_concat' l₂
  · obtain ⟨rfl, hlast⟩ := List.append_inj' heq rfl
    exact he nonce xid b sz (List.singleton_inj.mp hlast)
  · apply h l₁ l₂ nonce xid b sz
    rw [← List.cons_append, ← List.append_assoc] at heq
    exact (List.append_inj' heq rfl).1

/-- What holds of every history. -/
structure Orderly (s : History β) : Prop where
  coherent : Coherent s
  ordered : s.log.Pairwise InOrder
  faithful : Faithful s.log

theorem Orderly.start : Orderly (History.start : History β) where
  coherent := .start
  ordered := List.Pairwise.nil
  faithful l₁ l₂ nonce xid b sz h := by simp [History.start] at h

theorem Orderly.next {s : History β} (e : Event β) (h : Orderly s) (he : History.Allowed e s) :
    Orderly (History.next e s) := by
  cases e with
  | request nonce xid xidRep =>
    refine ⟨h.coherent.request he, ?_, ?_⟩
    · apply List.pairwise_append.mpr
      refine ⟨h.ordered, List.pairwise_singleton _ _, ?_⟩
      intro a ha e' he'
      rw [List.mem_singleton.mp he']
      exact h.coherent.inOrder a ha
    · apply h.faithful.append
      intro n x b sz heq
      obtain ⟨rfl, rfl, hv⟩ := Entry.verdict.inj heq
      exact h.coherent.done_eq hv
  | reply nonce xid b sz =>
    refine ⟨h.coherent.reply he, ?_, ?_⟩
    · apply List.pairwise_append.mpr
      refine ⟨h.ordered, List.pairwise_singleton _ _, ?_⟩
      intro a ha e' he'
      rw [List.mem_singleton.mp he']
      cases a <;> trivial
    · apply h.faithful.append
      intro n x b' sz' heq
      cases heq

theorem Orderly.after {events : List (Event β)}
    (h : Effect.EachStep History.next History.Allowed events History.start) :
    Orderly (History.after events) :=
  Effect.EachStep.invariant _ (fun e _ hs he => hs.next e he) .start h

/-- A list with a reply in it keeps one. -/
theorem next_ne_nil {s : History β} (h : Coherent s) (e : Event β) (he : History.Allowed e s)
    (nonce : UInt32) (hne : s.window nonce ≠ []) : (History.next e s).window nonce ≠ [] := by
  cases e with
  | request n xid xidRep =>
    by_cases hn : nonce = n
    · subst hn
      rw [History.window_request, if_pos rfl]
      exact checkList_ne_nil (h.sorted nonce) (le_of_lt he)
    · rwa [History.window_request, if_neg hn]
  | reply n xid b sz =>
    by_cases hn : nonce = n
    · subst hn
      rw [History.window_reply, if_pos rfl]
      exact fun h0 => hne (storeReply_eq_nil.mp h0)
    · rwa [History.window_reply, if_neg hn]

section Main

variable {s : History β} {nonce xid : UInt32}

theorem Orderly.verdicts (h : Orderly s) :
    (verdicts nonce xid s.log).Pairwise fun v v' => max 1 v.rank ≤ v'.rank := by
  rw [Rpc.verdicts, List.pairwise_filterMap]
  apply h.ordered.imp
  intro e e' hin v hv v' hv'
  cases e with
  | stored n x b sz => cases hv
  | verdict n x u =>
    cases e' with
    | stored n x b sz => cases hv'
    | verdict n' x' u' =>
      dsimp only at hv hv'
      split_ifs at hv hv' with hnx hnx'
      rw [← Option.some.inj hv, ← Option.some.inj hv']
      exact hin (hnx.1.trans hnx'.1.symm) (hnx.2.trans hnx'.2.symm)

theorem countP_isNew_le {l : List (Verdict β)}
    (h : l.Pairwise fun v v' => max 1 v.rank ≤ v'.rank) : l.countP Verdict.isNew ≤ 1 := by
  cases l with
  | nil => exact Nat.zero_le _
  | cons v l =>
    have htail : l.countP Verdict.isNew = 0 := by
      apply List.countP_eq_zero.mpr
      intro u hu
      have hle := (List.pairwise_cons.mp h).1 u hu
      cases u with
      | new => exact absurd (le_trans (le_max_left _ _) hle) (Nat.not_succ_le_zero 0)
      | inProgress => exact Bool.false_ne_true
      | done b sz => exact Bool.false_ne_true
      | forgotten => exact Bool.false_ne_true
    rw [List.countP_cons, htail]
    split_ifs <;> decide

theorem Orderly.not_inProgress (h : Orderly s) {l₁ l₂ : List (Entry β)}
    (heq : s.log = l₁ ++ .verdict nonce xid .inProgress :: l₂) (b : β) (sz : Int32) :
    .stored nonce xid b sz ∉ l₁ := by
  intro hmem
  have hord := h.ordered
  rw [heq, List.pairwise_append] at hord
  have h2 : 2 ≤ 1 := hord.2.2 _ hmem _ (List.mem_cons_self ..) rfl rfl
  exact absurd h2 (by decide)

theorem Orderly.done (h : Orderly s) {l₁ l₂ : List (Entry β)} {b : Option β} {sz : Int32}
    (heq : s.log = l₁ ++ .verdict nonce xid (.done b sz) :: l₂) :
    ∃ buf, b = some buf ∧ lastStored nonce xid l₁ = some (buf, sz) := by
  obtain ⟨p, hp, he⟩ := Option.map_eq_some_iff.mp (h.faithful l₁ l₂ nonce xid b sz heq)
  obtain ⟨rfl, rfl⟩ := Prod.mk.inj he
  exact ⟨p.1, rfl, hp⟩

/-- The life of a request: the list of its client stays sorted and never empties, its verdicts
only go up, and a reply is given back as it was stored. -/
theorem replyWindow_lifecycle (events more : List (Event β))
    (h : Effect.EachStep History.next History.Allowed (events ++ more) History.start)
    (nonce xid : UInt32) :
    Sorted ((History.after (events ++ more)).window nonce) ∧
      ((History.after events).window nonce ≠ [] →
        (History.after (events ++ more)).window nonce ≠ []) ∧
      (verdicts nonce xid (History.after (events ++ more)).log).Pairwise
        (fun v v' => v.rank ≤ v'.rank) ∧
      (verdicts nonce xid (History.after (events ++ more)).log).countP Verdict.isNew ≤ 1 ∧
      (∀ l₁ l₂ b sz,
        (History.after (events ++ more)).log = l₁ ++ .verdict nonce xid .inProgress :: l₂ →
          .stored nonce xid b sz ∉ l₁) ∧
      ∀ l₁ l₂ b sz,
        (History.after (events ++ more)).log = l₁ ++ .verdict nonce xid (.done b sz) :: l₂ →
          ∃ buf, b = some buf ∧ lastStored nonce xid l₁ = some (buf, sz) := by
  have hall := Orderly.after h
  have hv : (verdicts nonce xid (History.after (events ++ more)).log).Pairwise
      fun v v' => max 1 v.rank ≤ v'.rank := hall.verdicts
  refine ⟨hall.coherent.sorted nonce, ?_, hv.imp fun hle => le_trans (le_max_right _ _) hle,
    countP_isNew_le hv, fun l₁ l₂ b sz heq => hall.not_inProgress heq b sz,
    fun l₁ l₂ b sz heq => hall.done heq⟩
  intro hne
  obtain ⟨hbefore, hmore⟩ := (Effect.EachStep.append _).mp h
  have hkeep := Effect.EachStep.invariant History.next
    (I := fun s => Orderly s ∧ s.window nonce ≠ [])
    (fun e s hs he => ⟨hs.1.next e he, next_ne_nil hs.1.coherent e he nonce hs.2⟩)
    ⟨Orderly.after hbefore, hne⟩ hmore
  rw [History.after, List.foldl_append]
  exact hkeep.2

end Main

/-- A request that is sent again until it is acknowledged. -/
def resent : List (Event Unit) :=
  [.request 7 1 0, .request 7 1 0, .reply 7 1 () 4, .request 7 1 0, .request 7 3 2,
    .request 7 1 0]

theorem replyWindow_lifecycle_example :
    verdicts 7 1 (History.after resent).log =
        [.new, .inProgress, .done (some ()) 4, .forgotten] ∧
      (verdicts 7 1 (History.after resent).log).countP Verdict.isNew ≤ 1 := by
  have h1 : (0 : UInt32) < 1 := by decide
  have h3 : (2 : UInt32) < 3 := by decide
  have h : Effect.EachStep History.next History.Allowed ([] ++ resent) History.start :=
    ⟨h1, h1, List.mem_cons_self .., h1, h3, h1, trivial⟩
  obtain ⟨-, -, -, hnew, -⟩ := replyWindow_lifecycle [] resent h 7 1
  exact ⟨rfl, hnew⟩

end Yfs.Rpc
