import Yfs.Rpc.Word
import Yfs.Effect.Hoare
import Mathlib.Logic.Function.Basic
import Mathlib.Data.List.Basic
import Mathlib.Data.Nat.Basic

/-! The replies an rpcs remembers for each client. -/
namespace Yfs.Rpc

variable {β : Type}

/-- `reply_t`, over a type of buffers. -/
structure Reply (β : Type) where
  xid : UInt32
  cbPresent : Bool
  buf : Option β
  sz : Int32

/-- The constructor of `reply_t`. -/
def Reply.ofXid (xid : UInt32) : Reply β := ⟨xid, false, none, 0⟩

/-- `rpcstate_t`; a reply that is still there comes with its buffer and size. -/
inductive Verdict (β : Type) where
  | new
  | inProgress
  | done (buf : Option β) (sz : Int32)
  | forgotten

def Verdict.rank : Verdict β → ℕ
  | .new => 0
  | .inProgress => 1
  | .done .. => 2
  | .forgotten => 3

def Verdict.isNew : Verdict β → Bool
  | .new => true
  | _ => false

/-- `rlist->size() > 0 && xid < rlist->front().xid` -/
def isOld (l : List (Reply β)) (xid : UInt32) : Bool :=
  match l.head? with
  | none => false
  | some r => xid < r.xid

/-- Places the reply before the first one with a greater xid. -/
def insertReply : List (Reply β) → Reply β → List (Reply β)
  | [], reply => [reply]
  | r :: l, reply => if r.xid > reply.xid then reply :: r :: l else r :: insertReply l reply

def checkList (l : List (Reply β)) (xid xidRep : UInt32) : Verdict β × List (Reply β) :=
  match l.find? fun r => r.xid = xid with
  | some r => (if r.cbPresent then .done r.buf r.sz else .inProgress, l)
  | none =>
    if isOld l xid then (.forgotten, l)
    else (.new, (insertReply l (.ofXid xid)).dropWhile fun r => ¬ r.xid ≥ xidRep)

/-- `reply_window_`; a nonce that is not there has an empty list. -/
abbrev ReplyWindow (β : Type) := UInt32 → List (Reply β)

def checkduplicateAndUpdate (w : ReplyWindow β) (nonce xid xidRep : UInt32) :
    Verdict β × ReplyWindow β :=
  ((checkList (w nonce) xid xidRep).1,
    Function.update w nonce (checkList (w nonce) xid xidRep).2)

def storeReply (l : List (Reply β)) (xid : UInt32) (b : β) (sz : Int32) : List (Reply β) :=
  l.map fun r => if r.xid = xid then { r with sz := sz, buf := some b, cbPresent := true } else r

def addReply (w : ReplyWindow β) (nonce xid : UInt32) (b : β) (sz : Int32) : ReplyWindow β :=
  Function.update w nonce (storeReply (w nonce) xid b sz)

abbrev Sorted (l : List (Reply β)) : Prop := l.Pairwise fun a b => a.xid < b.xid

section List

variable {l : List (Reply β)} {r reply : Reply β} {x xid xidRep : UInt32}

theorem mem_insertReply : r ∈ insertReply l reply ↔ r = reply ∨ r ∈ l := by
  induction l with
  | nil => simp [insertReply]
  | cons a l ih =>
    unfold insertReply
    split_ifs with h
    · simp
    · simp [ih]
      tauto

theorem sorted_insertReply (h : Sorted l) (hne : ∀ r ∈ l, r.xid ≠ reply.xid) :
    Sorted (insertReply l reply) := by
  induction l with
  | nil => simp [insertReply]
  | cons a l ih =>
    obtain ⟨ha, hl⟩ := List.pairwise_cons.mp h
    unfold insertReply
    split_ifs with hlt
    · apply List.pairwise_cons.mpr
      constructor
      · intro b hb
        cases hb with
        | head => exact hlt
        | tail _ hb => exact lt_trans hlt (ha b hb)
      · exact h
    · apply List.pairwise_cons.mpr
      constructor
      · intro b hb
        obtain rfl | hb := mem_insertReply.mp hb
        · exact lt_of_le_of_ne (not_lt.mp hlt) (hne a (List.mem_cons_self ..))
        · exact ha b hb
      · exact ih hl fun b hb => hne b (List.mem_cons_of_mem _ hb)

/-- What is left when the replies below `xidRep` are erased. -/
theorem mem_dropWhile (h : Sorted l) :
    r ∈ l.dropWhile (fun r => ¬ r.xid ≥ xidRep) ↔ r ∈ l ∧ xidRep ≤ r.xid := by
  induction l with
  | nil => simp
  | cons a l ih =>
    obtain ⟨ha, hl⟩ := List.pairwise_cons.mp h
    rw [List.dropWhile_cons]
    by_cases hge : a.xid ≥ xidRep
    · simp only [hge, not_true_eq_false, decide_false, Bool.false_eq_true, if_false]
      constructor
      · intro hr
        refine ⟨hr, ?_⟩
        cases hr with
        | head => exact hge
        | tail _ hr => exact le_trans hge (le_of_lt (ha r hr))
      · exact fun hr => hr.1
    · simp only [hge, not_false_eq_true, decide_true, if_true, ih hl]
      constructor
      · exact fun hr => ⟨List.mem_cons_of_mem _ hr.1, hr.2⟩
      · intro hr
        obtain ⟨hr, hle⟩ := hr
        cases hr with
        | head => exact absurd hle hge
        | tail _ hr => exact ⟨hr, hle⟩

theorem isOld_iff (h : Sorted l) : isOld l x = true ↔ l ≠ [] ∧ ∀ r ∈ l, x < r.xid := by
  cases l with
  | nil => simp [isOld]
  | cons a l =>
    obtain ⟨ha, hl⟩ := List.pairwise_cons.mp h
    simp only [isOld, List.head?_cons, decide_eq_true_eq, ne_eq, reduceCtorEq, not_false_eq_true,
      true_and]
    constructor
    · intro hlt b hb
      cases hb with
      | head => exact hlt
      | tail _ hb => exact lt_trans hlt (ha b hb)
    · exact fun hall => hall a (List.mem_cons_self ..)

theorem find_eq_some (h : Sorted l) (hr : r ∈ l) :
    l.find? (fun a => a.xid = r.xid) = some r := by
  induction l with
  | nil => cases hr
  | cons a l ih =>
    obtain ⟨ha, hl⟩ := List.pairwise_cons.mp h
    cases hr with
    | head => exact List.find?_cons_of_pos (by simp)
    | tail _ hr =>
      rw [List.find?_cons_of_neg (by simpa using ne_of_lt (ha r hr))]
      exact ih hl hr

/-- Where a request stands: not seen yet, in the list without and with a reply, below it. -/
def age (l : List (Reply β)) (xid : UInt32) : ℕ :=
  match l.find? fun r => r.xid = xid with
  | some r => if r.cbPresent then 2 else 1
  | none => if isOld l xid then 3 else 0

theorem age_of_mem (h : Sorted l) (hr : r ∈ l) : age l r.xid = if r.cbPresent then 2 else 1 := by
  rw [age, find_eq_some h hr]

theorem find_eq_none (hx : ∀ r ∈ l, r.xid ≠ xid) : l.find? (fun r => r.xid = xid) = none := by
  simpa using hx

theorem age_of_not_mem (hx : ∀ r ∈ l, r.xid ≠ x) : age l x = if isOld l x then 3 else 0 := by
  rw [age, find_eq_none hx]

theorem age_of_lt (h : Sorted l) (hne : l ≠ []) (hx : ∀ r ∈ l, x < r.xid) : age l x = 3 := by
  rw [age_of_not_mem fun r hr => ne_of_gt (hx r hr), if_pos ((isOld_iff h).mpr ⟨hne, hx⟩)]

/-- A verdict tells where the request stood. -/
theorem rank_checkList : (checkList l xid xidRep).1.rank = age l xid := by
  unfold checkList age
  cases l.find? fun r => r.xid = xid with
  | some r =>
    dsimp only
    split_ifs <;> rfl
  | none =>
    dsimp only
    split_ifs <;> rfl

/-- What a check does to the list. -/
theorem checkList_cases (h : Sorted l) (xid xidRep : UInt32) :
    (∃ r ∈ l, r.xid = xid ∧ r.cbPresent = true ∧
        checkList l xid xidRep = (.done r.buf r.sz, l)) ∨
      (∃ r ∈ l, r.xid = xid ∧ r.cbPresent = false ∧ checkList l xid xidRep = (.inProgress, l)) ∨
      (l ≠ [] ∧ (∀ r ∈ l, xid < r.xid) ∧ checkList l xid xidRep = (.forgotten, l)) ∨
      (∀ r ∈ l, r.xid ≠ xid) ∧ (∀ r, l.head? = some r → r.xid < xid) ∧
        checkList l xid xidRep =
          (.new, (insertReply l (.ofXid xid)).dropWhile fun r => ¬ r.xid ≥ xidRep) := by
  unfold checkList
  cases hf : l.find? fun r => r.xid = xid with
  | some r =>
    have hr := List.mem_of_find?_eq_some hf
    have hx : r.xid = xid := by simpa using List.find?_some hf
    cases hc : r.cbPresent with
    | true => exact Or.inl ⟨r, hr, hx, hc, by simp [hc]⟩
    | false => exact Or.inr (Or.inl ⟨r, hr, hx, hc, by simp [hc]⟩)
  | none =>
    have hne : ∀ r ∈ l, r.xid ≠ xid := by simpa using hf
    dsimp only
    split_ifs with hold
    · obtain ⟨hl, hlt⟩ := (isOld_iff h).mp hold
      exact Or.inr (Or.inr (Or.inl ⟨hl, hlt, rfl⟩))
    · refine Or.inr (Or.inr (Or.inr ⟨hne, ?_, rfl⟩))
      intro r hr
      have hle : ¬ xid < r.xid := by
        simpa [isOld, hr] using hold
      exact lt_of_le_of_ne (not_lt.mp hle) (hne r (List.mem_of_mem_head? hr))

section New

variable (h : Sorted l) (hne : ∀ r ∈ l, r.xid ≠ xid)

include h hne

theorem sorted_new :
    Sorted ((insertReply l (.ofXid xid)).dropWhile fun r => ¬ r.xid ≥ xidRep) :=
  (sorted_insertReply h hne).sublist (List.dropWhile_sublist _)

theorem mem_new : r ∈ (insertReply l (.ofXid xid)).dropWhile (fun r => ¬ r.xid ≥ xidRep) ↔
    (r = .ofXid xid ∨ r ∈ l) ∧ xidRep ≤ r.xid := by
  rw [mem_dropWhile (sorted_insertReply h hne), mem_insertReply]

theorem ofXid_mem_new (hrep : xidRep ≤ xid) :
    .ofXid xid ∈ (insertReply l (.ofXid xid)).dropWhile (fun r => ¬ r.xid ≥ xidRep) :=
  (mem_new h hne).mpr ⟨Or.inl rfl, hrep⟩

end New

theorem sorted_checkList (h : Sorted l) : Sorted (checkList l xid xidRep).2 := by
  rcases checkList_cases h xid xidRep with ⟨r, hr, hx, hc, he⟩ | ⟨r, hr, hx, hc, he⟩ | ⟨hl, hlt, he⟩ |
    ⟨hne, -, he⟩
  · rwa [he]
  · rwa [he]
  · rwa [he]
  · rw [he]
    exact sorted_new h hne

theorem checkList_ne_nil (h : Sorted l) (hrep : xidRep ≤ xid) :
    (checkList l xid xidRep).2 ≠ [] := by
  rcases checkList_cases h xid xidRep with ⟨r, hr, -, -, he⟩ | ⟨r, hr, -, -, he⟩ | ⟨hl, -, he⟩ |
    ⟨hne, -, he⟩
  · rw [he]
    exact List.ne_nil_of_mem hr
  · rw [he]
    exact List.ne_nil_of_mem hr
  · rwa [he]
  · rw [he]
    exact List.ne_nil_of_mem (ofXid_mem_new h hne hrep)

/-- No request gets younger, and the one that was checked is known. -/
theorem age_checkList (h : Sorted l) (hrep : xidRep ≤ xid) :
    (∀ x, age l x ≤ age (checkList l xid xidRep).2 x) ∧
      1 ≤ age (checkList l xid xidRep).2 xid := by
  rcases checkList_cases h xid xidRep with ⟨r, hr, hx, hc, he⟩ | ⟨r, hr, hx, hc, he⟩ |
    ⟨hl, hlt, he⟩ | ⟨hne, hfront, he⟩
  · rw [he]
    refine ⟨fun x => le_rfl, ?_⟩
    rw [← hx, age_of_mem h hr, hc]
    decide
  · rw [he]
    refine ⟨fun x => le_rfl, ?_⟩
    rw [← hx, age_of_mem h hr, hc]
    decide
  · rw [he]
    refine ⟨fun x => le_rfl, ?_⟩
    rw [age_of_lt h hl hlt]
    decide
  · have hs : Sorted (checkList l xid xidRep).2 := sorted_checkList h
    have hn := checkList_ne_nil h hrep
    rw [he] at hs hn ⊢
    constructor
    · intro x
      by_cases hx : ∃ r ∈ l, r.xid = x
      · obtain ⟨r, hr, rfl⟩ := hx
        by_cases hle : xidRep ≤ r.xid
        · rw [age_of_mem h hr, age_of_mem hs ((mem_new h hne).mpr ⟨Or.inr hr, hle⟩)]
        · rw [age_of_mem h hr, age_of_lt hs hn fun a ha =>
            lt_of_lt_of_le (not_le.mp hle) ((mem_new h hne).mp ha).2]
          split_ifs <;> decide
      · have hx : ∀ r ∈ l, r.xid ≠ x := fun r hr he => hx ⟨r, hr, he⟩
        rw [age_of_not_mem hx]
        split_ifs with hold
        · obtain ⟨hl, hlt⟩ := (isOld_iff h).mp hold
          obtain ⟨a, l, rfl⟩ := List.exists_cons_of_ne_nil hl
          rw [age_of_lt hs hn]
          intro b hb
          obtain ⟨rfl | hb, -⟩ := (mem_new h hne).mp hb
          · exact lt_trans (hlt a (List.mem_cons_self ..)) (hfront a rfl)
          · exact hlt b hb
        · exact Nat.zero_le _
    · have hmem := age_of_mem hs (ofXid_mem_new h hne hrep)
      exact le_of_eq hmem.symm

variable {b : β} {sz : Int32}

theorem mem_storeReply : r ∈ storeReply l xid b sz ↔
    (∃ a ∈ l, a.xid = xid ∧ r = { a with sz := sz, buf := some b, cbPresent := true }) ∨
      r ∈ l ∧ r.xid ≠ xid := by
  simp only [storeReply, List.mem_map]
  constructor
  · intro h
    obtain ⟨a, ha, rfl⟩ := h
    split_ifs with hx
    · exact Or.inl ⟨a, ha, hx, rfl⟩
    · exact Or.inr ⟨ha, hx⟩
  · intro h
    obtain ⟨a, ha, hx, rfl⟩ | ⟨hr, hx⟩ := h
    · exact ⟨a, ha, if_pos hx⟩
    · exact ⟨r, hr, if_neg hx⟩

theorem map_xid_storeReply : (storeReply l xid b sz).map Reply.xid = l.map Reply.xid := by
  rw [storeReply, List.map_map]
  apply List.map_congr_left
  intro r _
  simp only [Function.comp]
  split_ifs <;> rfl

theorem sorted_storeReply (h : Sorted l) : Sorted (storeReply l xid b sz) := by
  have hmap : ((storeReply l xid b sz).map Reply.xid).Pairwise (· < ·) := by
    rw [map_xid_storeReply]
    exact List.pairwise_map.mpr h
  exact List.pairwise_map.mp hmap

theorem storeReply_eq_nil : storeReply l xid b sz = [] ↔ l = [] := List.map_eq_nil_iff

theorem isOld_storeReply : isOld (storeReply l xid b sz) x = isOld l x := by
  cases l with
  | nil => rfl
  | cons a l =>
    simp only [isOld, storeReply, List.map_cons, List.head?_cons]
    split_ifs <;> rfl

theorem age_storeReply (h : Sorted l) :
    (∀ x, age l x ≤ age (storeReply l xid b sz) x) ∧
      (1 ≤ age l xid → 2 ≤ age (storeReply l xid b sz) xid) := by
  have hs : Sorted (storeReply l xid b sz) := sorted_storeReply h
  have hout : ∀ x, (∀ r ∈ l, r.xid ≠ x) → age (storeReply l xid b sz) x = age l x := by
    intro x hx
    rw [age_of_not_mem hx, age_of_not_mem, isOld_storeReply]
    intro r hr
    obtain ⟨a, ha, -, rfl⟩ | ⟨hr, -⟩ := mem_storeReply.mp hr
    · exact hx a ha
    · exact hx r hr
  have hin : ∀ a ∈ l, a.xid = xid → age (storeReply l xid b sz) a.xid = 2 := fun a ha hx =>
    age_of_mem hs (mem_storeReply.mpr (Or.inl ⟨a, ha, hx, rfl⟩))
  constructor
  · intro x
    by_cases hx : ∃ r ∈ l, r.xid = x
    · obtain ⟨r, hr, rfl⟩ := hx
      by_cases hrx : r.xid = xid
      · rw [hin r hr hrx, age_of_mem h hr]
        split_ifs <;> decide
      · rw [age_of_mem h hr, age_of_mem hs (mem_storeReply.mpr (Or.inr ⟨hr, hrx⟩))]
    · exact le_of_eq (hout x fun r hr he => hx ⟨r, hr, he⟩).symm
  · intro h1
    by_cases hx : ∃ r ∈ l, r.xid = xid
    · obtain ⟨r, hr, hrx⟩ := hx
      have h2 := hin r hr hrx
      rw [hrx] at h2
      exact le_of_eq h2.symm
    · have hx : ∀ r ∈ l, r.xid ≠ xid := fun r hr he => hx ⟨r, hr, he⟩
      rw [hout xid hx]
      rw [age_of_not_mem hx] at h1 ⊢
      split_ifs at h1 ⊢
      · decide
      · exact absurd h1 (by decide)

end List

end Yfs.Rpc
