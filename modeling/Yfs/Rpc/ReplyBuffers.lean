import Yfs.Rpc.Progress
import Mathlib.Data.List.Nodup

/-! The buffers of the replies: which are allocated, to which the reply windows and the dispatches
point, and which have been freed. -/
namespace Yfs.Rpc
open Effect

section Map

variable {β γ : Type}

/-- The reply with what its buffer holds. -/
def Reply.map (f : β → γ) (r : Reply β) : Reply γ := ⟨r.xid, r.cbPresent, r.buf.map f, r.sz⟩

def Verdict.map (f : β → γ) : Verdict β → Verdict γ
  | .new => .new
  | .inProgress => .inProgress
  | .done buf sz => .done (buf.map f) sz
  | .forgotten => .forgotten

/-- The buffer that comes with it. -/
def Verdict.buffer : Verdict β → Option β
  | .done buf _ => buf
  | _ => none

variable (f : β → γ) {l : List (Reply β)} {xid xidRep : UInt32}

theorem isOld_map (l : List (Reply β)) (xid : UInt32) :
    isOld (l.map (Reply.map f)) xid = isOld l xid := by
  cases l <;> rfl

theorem insertReply_map (l : List (Reply β)) (r : Reply β) :
    insertReply (l.map (Reply.map f)) (r.map f) = (insertReply l r).map (Reply.map f) := by
  induction l with
  | nil => rfl
  | cons a l ih =>
    rw [List.map_cons]
    unfold insertReply
    rw [ih]
    change (if a.xid > r.xid then _ else _) = _
    split_ifs <;> rfl

theorem checkList_map (l : List (Reply β)) (xid xidRep : UInt32) :
    checkList (l.map (Reply.map f)) xid xidRep =
      ((checkList l xid xidRep).1.map f, (checkList l xid xidRep).2.map (Reply.map f)) := by
  have hfind : (l.map (Reply.map f)).find? (fun r => r.xid = xid) =
      (l.find? fun r => r.xid = xid).map (Reply.map f) := List.find?_map ..
  have hnew : (Reply.ofXid xid : Reply γ) = (Reply.ofXid xid : Reply β).map f := rfl
  unfold checkList
  rw [hfind, isOld_map]
  cases l.find? fun r => r.xid = xid with
  | some r => by_cases hc : r.cbPresent = true <;> simp [Reply.map, Verdict.map, hc]
  | none =>
    dsimp only [Option.map_none]
    split_ifs
    · rfl
    · rw [hnew, insertReply_map, List.dropWhile_map]
      rfl

theorem storeReply_map (l : List (Reply β)) (xid : UInt32) (b : β) (sz : Int32) :
    storeReply (l.map (Reply.map f)) xid (f b) sz = (storeReply l xid b sz).map (Reply.map f) := by
  unfold storeReply
  rw [List.map_map, List.map_map]
  refine List.map_congr_left fun r _ => ?_
  change (if r.xid = xid then _ else _) = Reply.map f (if r.xid = xid then _ else _)
  split_ifs <;> rfl

end Map

section Pointers

variable {l : List (Reply ℕ)} {r : Reply ℕ} {b : ℕ} {xid xidRep : UInt32} {sz : Int32}

/-- A reply without a buffer is put in. -/
theorem filterMap_insertReply (hr : r.buf = none) :
    (insertReply l r).filterMap Reply.buf = l.filterMap Reply.buf := by
  induction l with
  | nil => simp [insertReply, hr]
  | cons a l ih =>
    unfold insertReply
    split_ifs
    · rw [List.filterMap_cons_none hr]
    · rw [List.filterMap_cons, List.filterMap_cons, ih]

/-- A check adds no pointer. -/
theorem buffers_checkList : List.Sublist ((checkList l xid xidRep).2.filterMap Reply.buf)
    (l.filterMap Reply.buf) := by
  unfold checkList
  split
  · exact List.Sublist.refl _
  · split_ifs
    · exact List.Sublist.refl _
    · rw [← filterMap_insertReply (l := l) (r := .ofXid xid) rfl]
      exact (List.dropWhile_sublist _).filterMap _

/-- A buffer that is handed out is one of the window. -/
theorem mem_of_buffer (h : (checkList l xid xidRep).1.buffer = some b) :
    b ∈ l.filterMap Reply.buf := by
  unfold checkList at h
  split at h
  · next a ha =>
    dsimp only at h
    split_ifs at h
    · exact List.mem_filterMap.mpr ⟨a, List.mem_of_find?_eq_some ha, h⟩
    · cases h
  · split_ifs at h <;> cases h

theorem storeReply_of_lt (h : ∀ a ∈ l, xid < a.xid) : storeReply l xid b sz = l := by
  unfold storeReply
  exact (List.map_congr_left fun a ha => if_neg (ne_of_gt (h a ha))).trans (List.map_id l)

theorem mem_stored {b' : ℕ} (h : b' ∈ (storeReply l xid b sz).filterMap Reply.buf) :
    b' = b ∨ b' ∈ l.filterMap Reply.buf := by
  obtain ⟨r, hr, hb⟩ := List.mem_filterMap.mp h
  obtain ⟨a, -, -, rfl⟩ | ⟨hr, -⟩ := mem_storeReply.mp hr
  · exact Or.inl (Option.some.inj hb).symm
  · exact Or.inr (List.mem_filterMap.mpr ⟨r, hr, hb⟩)

/-- One pointer at most becomes another one. -/
theorem nodup_storeReply (hs : Sorted l) (hl : (l.filterMap Reply.buf).Nodup)
    (hb : b ∉ l.filterMap Reply.buf) : ((storeReply l xid b sz).filterMap Reply.buf).Nodup := by
  induction l with
  | nil => exact List.nodup_nil
  | cons a l ih =>
    obtain ⟨ha, hs⟩ := List.pairwise_cons.mp hs
    have hsub : List.Sublist (l.filterMap Reply.buf) ((a :: l).filterMap Reply.buf) :=
      (List.sublist_cons_self a l).filterMap _
    have hbl : b ∉ l.filterMap Reply.buf := fun h => hb (hsub.subset h)
    rw [storeReply, List.map_cons, ← storeReply]
    by_cases hx : a.xid = xid
    · rw [if_pos hx, storeReply_of_lt (hx ▸ ha), List.filterMap_cons]
      exact List.nodup_cons.mpr ⟨hbl, hl.sublist hsub⟩
    · rw [if_neg hx]
      cases hbuf : a.buf with
      | none =>
        rw [List.filterMap_cons_none hbuf]
        exact ih hs (hl.sublist hsub) hbl
      | some c =>
        rw [List.filterMap_cons_some hbuf] at hl hb ⊢
        obtain ⟨hc, hl⟩ := List.nodup_cons.mp hl
        refine List.nodup_cons.mpr ⟨fun hmem => ?_, ih hs hl hbl⟩
        obtain rfl | hmem := mem_stored hmem
        · exact hb List.mem_cons_self
        · exact hc hmem

end Pointers

/-- The server with its reply windows as they are in memory, where a reply points to a buffer. The
buffer `b < made` has been allocated for a reply to the client `owner b`, and it holds `bytes b`.
`clients` are the keys of `reply_window_`, `b1` is the pointer that a dispatch is to send. -/
structure Buffers where
  rpcs : Rpcs
  window : ReplyWindow ℕ
  clients : List UInt32
  made : ℕ
  bytes : ℕ → Int32 × List UInt8
  owner : ℕ → UInt32
  b1 : Worker → Option ℕ
  freed : List ℕ
  destroyed : Bool

/-- What the server does, or `~rpcs` after its threads have been joined. -/
inductive BufferEvent where
  | server (e : RpcsEvent)
  | destroy

namespace Buffers

def init (sum : Bool) (nonce : UInt32) (procs : List Int32) : Buffers where
  rpcs := .init sum nonce procs
  window _ := []
  clients := []
  made := 0
  bytes _ := (0, [])
  owner _ := 0
  b1 _ := none
  freed := []
  destroyed := false

/-- `operator[]` of `reply_window_` makes an entry when there is none. -/
def touch (s : Buffers) (nonce : UInt32) : Buffers :=
  { s with clients := if s.clients.contains nonce then s.clients else s.clients ++ [nonce] }

def setB1 (s : Buffers) (i : Worker) (b : Option ℕ) : Buffers :=
  { s with b1 := Function.update s.b1 i b }

/-- `checkduplicate_and_update` hands out the buffer of a reply that is there. It takes replies out
of the window, and frees none of their buffers. -/
def check (s : Buffers) (i : Worker) (h : ReqHeader) : Buffers :=
  let r := checkduplicateAndUpdate s.window h.cltNonce h.xid.toUInt32 h.xidRep.toUInt32
  { (s.touch h.cltNonce).setB1 i r.1.buffer with window := r.2 }

/-- `take_buf` and `add_reply` after the handler. -/
def handle (s : Buffers) (i : Worker) (h : ReqHeader) (ret : Int32) (body : List UInt8) : Buffers :=
  let b := s.made
  let s := { s.setB1 i (some b) with
    made := s.made + 1
    bytes := Function.update s.bytes b (ret, body)
    owner := Function.update s.owner b h.cltNonce }
  if h.cltNonce > 0 then
    { s.touch h.cltNonce with
      window := addReply s.window h.cltNonce h.xid.toUInt32 b (Int32.ofNat body.length) }
  else s

/-- After `send`, a reply that is in no window is freed. -/
def sent (s : Buffers) (i : Worker) (h : ReqHeader) : Buffers :=
  if h.cltNonce = 0 then { s.setB1 i none with freed := s.freed ++ (s.b1 i).toList }
  else s.setB1 i none

/-- What a step of a dispatch does with the buffers. -/
def dispatch (s : Buffers) (i : Worker) (d : Dispatch) (ret : Int32) (body : List UInt8) :
    Buffers :=
  match d.stage with
  | .record => s.touch d.header.cltNonce
  | .check => s.check i d.header
  | .handle => s.handle i d.header ret body
  | .reply => s.sent i d.header
  | _ => s

/-- The buffers to which the window of a client points. -/
def buffers (w : ReplyWindow ℕ) (nonce : UInt32) : List ℕ := (w nonce).filterMap Reply.buf

def freeReplyWindow (s : Buffers) : Buffers :=
  { s with
    freed := s.freed ++ s.clients.flatMap (buffers s.window)
    window := fun _ => []
    clients := [] }

/-- The buffers after an event of the server. -/
def account (s : Buffers) : RpcsEvent → Buffers
  | .go i ret body => (s.rpcs.active i).elim s fun d => s.dispatch i d ret body
  | _ => s

def step (s : Buffers) : BufferEvent → Option Buffers
  | .server e =>
    if s.destroyed then none else (s.rpcs.step e).map fun r => { s.account e with rpcs := r }
  | .destroy =>
    if s.destroyed = false ∧ s.rpcs.queue = [] ∧ ∀ i, (s.rpcs.active i).isNone then
      some { s.freeReplyWindow with destroyed := true }
    else none

/-- A pointer that a dispatch is to send: the buffer holds its reply. -/
structure Points (s : Buffers) (i : Worker) (b : ℕ) (d : Dispatch) : Prop where
  active : s.rpcs.active i = some d
  stage : d.stage = .choose ∨ d.stage = .reply
  rep : d.rep = some (s.bytes b)
  owner : s.owner b = d.header.cltNonce

/-- What the windows point to. -/
structure Windows (s : Buffers) : Prop where
  mirror : ∀ n, s.rpcs.window n = (s.window n).map (Reply.map s.bytes)
  sorted : ∀ n, Sorted (s.window n)
  keys : s.clients.Nodup
  known : ∀ n, n ∉ s.clients → s.window n = []
  once : ∀ n, (buffers s.window n).Nodup
  held : ∀ n, ∀ b ∈ buffers s.window n, b < s.made ∧ s.owner b = n ∧ n ≠ 0

/-- Until the server is destroyed only buffers of clients without a nonce are freed, each of them
by the one dispatch that has it. -/
structure Pointers (s : Buffers) : Prop where
  freed : ∀ b ∈ s.freed, b < s.made ∧ s.owner b = 0
  once : s.freed.Nodup
  points : ∀ i b, s.b1 i = some b → b < s.made ∧ b ∉ s.freed ∧ ∃ d, s.Points i b d
  alone : ∀ i j b, s.owner b = 0 → s.b1 i = some b → s.b1 j = some b → i = j
  kept : ∀ b < s.made, s.owner b = 0 → b ∈ s.freed ∨ ∃ i, s.b1 i = some b

variable {s : Buffers} {r : Rpcs} {i : Worker} {d : Dispatch} {o : Option Dispatch} {ret : Int32}
  {body : List UInt8}

theorem Windows.init (sum : Bool) (nonce : UInt32) (procs : List Int32) :
    (Buffers.init sum nonce procs).Windows where
  mirror _ := rfl
  sorted _ := List.Pairwise.nil
  keys := List.nodup_nil
  known _ _ := rfl
  once _ := List.nodup_nil
  held _ b hb := by cases hb

theorem Pointers.init (sum : Bool) (nonce : UInt32) (procs : List Int32) :
    (Buffers.init sum nonce procs).Pointers where
  freed b hb := by cases hb
  once := List.nodup_nil
  points i b hb := by cases hb
  alone i j b _ hb := by cases hb
  kept b hb := absurd hb (Nat.not_lt_zero b)

theorem mem_touch (s : Buffers) (n : UInt32) : n ∈ (s.touch n).clients := by
  unfold touch
  dsimp only
  split_ifs with hn
  · exact List.contains_iff_mem.mp hn
  · exact List.mem_append_right _ (List.mem_singleton_self n)

theorem Windows.touch (h : s.Windows) (n : UInt32) : (s.touch n).Windows := by
  refine ⟨h.mirror, h.sorted, ?_, fun m hm => h.known m fun hmem => hm ?_, h.once, h.held⟩
  · unfold Buffers.touch
    dsimp only
    split_ifs with hn
    · exact h.keys
    · exact List.Nodup.append h.keys (List.nodup_singleton n)
        (List.disjoint_singleton.mpr fun hmem => hn (List.contains_iff_mem.mpr hmem))
  · unfold Buffers.touch
    dsimp only
    split_ifs
    · exact hmem
    · exact List.mem_append_left _ hmem

theorem Windows.setB1 (h : s.Windows) (i : Worker) (p : Option ℕ) : (s.setB1 i p).Windows :=
  ⟨h.mirror, h.sorted, h.keys, h.known, h.once, h.held⟩

/-- The window of one client that the server knows changes. -/
theorem Windows.update (h : s.Windows) {n : UInt32} (hn : n ∈ s.clients) {l : List (Reply ℕ)}
    (hw : r.window = Function.update s.rpcs.window n (l.map (Reply.map s.bytes)))
    (hs : Sorted l) (hone : (l.filterMap Reply.buf).Nodup)
    (hheld : ∀ b ∈ l.filterMap Reply.buf, b < s.made ∧ s.owner b = n ∧ n ≠ 0) :
    ({ s with rpcs := r, window := Function.update s.window n l } : Buffers).Windows := by
  have hlist : ∀ m, Function.update s.window n l m = if m = n then l else s.window m :=
    fun m => Function.update_apply ..
  refine ⟨fun m => ?_, fun m => ?_, h.keys, fun m hm => ?_, fun m => ?_, fun m b hb => ?_⟩
  · dsimp only
    rw [hw, Function.update_apply, hlist]
    split_ifs
    · rfl
    · exact h.mirror m
  · dsimp only
    rw [hlist]
    split_ifs
    · exact hs
    · exact h.sorted m
  · dsimp only
    rw [hlist, if_neg fun he : m = n => hm (he ▸ hn)]
    exact h.known m hm
  · unfold buffers
    dsimp only
    rw [hlist]
    split_ifs
    · exact hone
    · exact h.once m
  · unfold buffers at hb
    dsimp only at hb
    rw [hlist] at hb
    split_ifs at hb with hm
    · exact hm ▸ hheld b hb
    · exact h.held m b hb

/-- Nothing but the server changes. -/
theorem Windows.same (h : s.Windows) (hw : r.window = s.rpcs.window) :
    ({ s with rpcs := r } : Buffers).Windows :=
  ⟨fun n => by rw [hw]; exact h.mirror n, h.sorted, h.keys, h.known, h.once, h.held⟩

/-- A dispatch has a pointer only when it is about to send. -/
theorem Pointers.b1_none (h : s.Pointers) (hd : s.rpcs.active i = some d) (hc : d.stage ≠ .choose)
    (hr : d.stage ≠ .reply) : s.b1 i = none := by
  rw [Option.eq_none_iff_forall_ne_some]
  intro b hb
  obtain ⟨-, -, d', hp⟩ := h.points i b hb
  obtain rfl := Option.some.inj (hd.symm.trans hp.active)
  exact hp.stage.elim hc hr

/-- One dispatch goes on, with the pointer `p`. -/
theorem Pointers.goes (h : s.Pointers) (hact : r.active = Function.update s.rpcs.active i o)
    {p : Option ℕ} (hp : ∀ b, p = some b → b < s.made ∧ b ∉ s.freed ∧
      ∃ d', o = some d' ∧ (d'.stage = .choose ∨ d'.stage = .reply) ∧ d'.rep = some (s.bytes b) ∧
        s.owner b = d'.header.cltNonce)
    (halone : ∀ b, p = some b → s.owner b = 0 → s.b1 i = some b)
    (hkept : ∀ b, s.b1 i = some b → s.owner b = 0 → p = some b) (w : ReplyWindow ℕ)
    (clients : List UInt32) :
    ({ s.setB1 i p with rpcs := r, window := w, clients := clients } : Buffers).Pointers := by
  have hb1 : ∀ j, Function.update s.b1 i p j = if j = i then p else s.b1 j :=
    fun j => Function.update_apply ..
  have hold : ∀ j b, Function.update s.b1 i p j = some b → s.owner b = 0 → s.b1 j = some b := by
    intro j b hb hzero
    rw [hb1] at hb
    split_ifs at hb with hj
    · exact hj ▸ halone b hb hzero
    · exact hb
  refine ⟨h.freed, h.once, fun j b hb => ?_, fun j k b hzero hj hk => ?_, fun b hlt hzero => ?_⟩
  · simp only [setB1, hb1] at hb
    split_ifs at hb with hj
    · obtain ⟨hlt, hfree, d', hd', hst, hrep, howner⟩ := hp b hb
      refine ⟨hlt, hfree, d', ?_, hst, hrep, howner⟩
      dsimp only
      rw [hact, hj, Function.update_self, hd']
    · obtain ⟨hlt, hfree, d', hpt⟩ := h.points j b hb
      refine ⟨hlt, hfree, d', ?_, hpt.stage, hpt.rep, hpt.owner⟩
      dsimp only
      rw [hact, Function.update_of_ne hj]
      exact hpt.active
  · exact h.alone j k b hzero (hold j b hj hzero) (hold k b hk hzero)
  · obtain hfree | ⟨j, hj⟩ := h.kept b hlt hzero
    · exact Or.inl hfree
    · refine Or.inr ⟨j, ?_⟩
      simp only [setB1, hb1]
      split_ifs with hji
      · exact hkept b (hji ▸ hj) hzero
      · exact hj

/-- One dispatch goes on without a pointer. -/
theorem Pointers.passes (h : s.Pointers) (hact : r.active = Function.update s.rpcs.active i o)
    (hnone : s.b1 i = none) (w : ReplyWindow ℕ) (clients : List UInt32) :
    ({ s with rpcs := r, window := w, clients := clients } : Buffers).Pointers := by
  have hb1 : s.setB1 i none = s := by
    unfold setB1
    rw [← hnone, Function.update_eq_self]
  have hgoes := h.goes hact (p := none) (fun b hb => by cases hb) (fun b hb => by cases hb)
    (fun b hb => by rw [hnone] at hb; cases hb) w clients
  rw [hb1] at hgoes
  exact hgoes

theorem windowAfter_eq (hc : d.stage ≠ .check) (hh : d.stage ≠ .handle) :
    s.rpcs.windowAfter d ret body = s.rpcs.window := by
  unfold Rpcs.windowAfter
  split
  · next h => exact absurd h hc
  · next h => exact absurd h hh
  · rfl

/-- The reply that a verdict comes with is in its buffer. -/
theorem verdictReply_buffer {v : Verdict ℕ} {b : ℕ} (hv : v.buffer = some b) :
    Rpcs.verdictReply (v.map s.bytes) = some (s.bytes b) ∧
      Rpcs.verdictStage (v.map s.bytes) = .reply := by
  cases v with
  | done buf sz =>
    change buf = some b at hv
    subst hv
    exact ⟨rfl, rfl⟩
  | new => cases hv
  | inProgress => cases hv
  | forgotten => cases hv

theorem check_spec (hw : s.Windows) (h : s.Pointers) (hd : s.rpcs.active i = some d)
    (hst : d.stage = .check) (ho : d.Outcome s.rpcs r i ret body o) (hsome : o.isSome) :
    ({ s.check i d.header with rpcs := r } : Buffers).Windows ∧
      ({ s.check i d.header with rpcs := r } : Buffers).Pointers := by
  set n := d.header.cltNonce with hn
  set xid := d.header.xid.toUInt32 with hxid
  set xidRep := d.header.xidRep.toUInt32 with hrep
  have hverdict : s.rpcs.verdict d = ((checkList (s.window n) xid xidRep).1.map s.bytes,
      Function.update s.rpcs.window n
        ((checkList (s.window n) xid xidRep).2.map (Reply.map s.bytes))) := by
    unfold Rpcs.verdict checkduplicateAndUpdate
    rw [← hn, hw.mirror, ← hxid, ← hrep, checkList_map]
  have hrw : r.window = (s.rpcs.verdict d).2 := by
    rw [ho.window, Rpcs.windowAfter, hst]
  have hsub : List.Sublist ((checkList (s.window n) xid xidRep).2.filterMap Reply.buf)
      (buffers s.window n) := buffers_checkList
  constructor
  · refine ((hw.touch n).setB1 i _).update (mem_touch s n) ?_ (sorted_checkList (hw.sorted n))
      ((hw.once n).sublist hsub) fun b hb => hw.held n b (hsub.subset hb)
    rw [hrw, hverdict]
    rfl
  · obtain ⟨d', rfl⟩ := Option.isSome_iff_exists.mp hsome
    have hgoes := ho.goes d' rfl
    have hnonce : ∀ b, (checkList (s.window n) xid xidRep).1.buffer = some b → s.owner b ≠ 0 := by
      intro b hb
      obtain ⟨-, howner, hne⟩ := hw.held n b (mem_of_buffer hb)
      rwa [howner]
    refine h.goes ho.active (fun b hb => ?_) (fun b hb hzero => absurd hzero (hnonce b hb))
      (fun b hb => ?_) _ _
    · obtain ⟨hlt, howner, -⟩ := hw.held n b (mem_of_buffer hb)
      obtain ⟨hreply, hstage⟩ := verdictReply_buffer (s := s) hb
      refine ⟨hlt, fun hfree => hnonce b hb (h.freed b hfree).2, d', rfl, Or.inr ?_, ?_, ?_⟩
      · rw [hgoes.judged hst, hverdict]
        exact hstage
      · rw [hgoes.rep, Rpcs.replyAfter, hst]
        dsimp only
        rw [hverdict]
        exact hreply
      · rw [howner, hgoes.kept.1]
    · rw [h.b1_none hd (by rw [hst]; decide) (by rw [hst]; decide)] at hb
      cases hb

/-- The server with a buffer more, for a reply to the client `n`. -/
def alloc (s : Buffers) (n : UInt32) (v : Int32 × List UInt8) : Buffers :=
  { s with
    made := s.made + 1
    bytes := Function.update s.bytes s.made v
    owner := Function.update s.owner s.made n }

theorem Windows.alloc (h : s.Windows) (n : UInt32) (v : Int32 × List UInt8) :
    (s.alloc n v).Windows := by
  refine ⟨fun m => ?_, h.sorted, h.keys, h.known, h.once, fun m b hb => ?_⟩
  · rw [show (s.alloc n v).rpcs.window m = s.rpcs.window m from rfl, h.mirror]
    refine List.map_congr_left fun a ha => ?_
    unfold Reply.map
    congr 1
    cases hbuf : a.buf with
    | none => rfl
    | some b =>
      have hlt := (h.held m b (List.mem_filterMap.mpr ⟨a, ha, hbuf⟩)).1
      exact congrArg some (Function.update_of_ne (Nat.ne_of_lt hlt) ..).symm
  · obtain ⟨hlt, howner, hne⟩ := h.held m b hb
    refine ⟨Nat.lt_succ_of_lt hlt, ?_, hne⟩
    exact (Function.update_of_ne (Nat.ne_of_lt hlt) ..).trans howner

/-- The new buffer is the one that the dispatch is to send. -/
theorem Pointers.alloc (h : s.Pointers) {n : UInt32} {v : Int32 × List UInt8}
    (hact : r.active = Function.update s.rpcs.active i (some d)) (hnone : s.b1 i = none)
    (hst : d.stage = .choose) (hrep : d.rep = some v) (hn : n = d.header.cltNonce)
    (w : ReplyWindow ℕ) (clients : List UInt32) :
    ({ (s.alloc n v).setB1 i (some s.made) with
      rpcs := r, window := w, clients := clients } : Buffers).Pointers := by
  have hb1 : ∀ j, Function.update s.b1 i (some s.made) j = if j = i then some s.made else s.b1 j :=
    fun j => Function.update_apply ..
  have howner : ∀ b < s.made, Function.update s.owner s.made n b = s.owner b :=
    fun b hb => Function.update_of_ne (Nat.ne_of_lt hb) ..
  have hlt : ∀ {j b}, s.b1 j = some b → b < s.made := fun hb => (h.points _ _ hb).1
  have hself : ∀ {j}, (if j = i then some s.made else s.b1 j) = some s.made → j = i := by
    intro j hj
    by_contra hne
    rw [if_neg hne] at hj
    exact absurd (hlt hj) (lt_irrefl _)
  refine ⟨fun b hb => ?_, h.once, fun j b hb => ?_, fun j k b hzero hj hk => ?_,
    fun b hb hzero => ?_⟩
  · obtain ⟨hb, hzero⟩ := h.freed b hb
    exact ⟨Nat.lt_succ_of_lt hb, (howner b hb).trans hzero⟩
  · simp only [Buffers.alloc, Buffers.setB1, hb1] at hb
    split_ifs at hb with hj
    · obtain rfl := Option.some.inj hb
      refine ⟨Nat.lt_succ_self _, fun hfree => absurd (h.freed _ hfree).1 (lt_irrefl _), d, ?_,
        Or.inl hst, ?_, ?_⟩
      · dsimp only
        rw [hact, hj, Function.update_self]
      · rw [hrep]
        exact congrArg some (Function.update_self s.made v s.bytes).symm
      · exact (Function.update_self ..).trans hn
    · obtain ⟨hb', hfree, d', hp⟩ := h.points j b hb
      refine ⟨Nat.lt_succ_of_lt hb', hfree, d', ?_, hp.stage, ?_, (howner b hb').trans hp.owner⟩
      · dsimp only
        rw [hact, Function.update_of_ne hj]
        exact hp.active
      · exact hp.rep.trans
          (congrArg some (Function.update_of_ne (Nat.ne_of_lt hb') ..).symm)
  · simp only [Buffers.alloc, Buffers.setB1, hb1] at hj hk hzero
    by_cases hb : b = s.made
    · subst hb
      rw [hself hj, hself hk]
    · have hold : ∀ {x}, (if x = i then some s.made else s.b1 x) = some b → s.b1 x = some b := by
        intro x hx
        split_ifs at hx with hxi
        · exact absurd (Option.some.inj hx).symm hb
        · exact hx
      rw [Function.update_of_ne hb] at hzero
      exact h.alone j k b hzero (hold hj) (hold hk)
  · simp only [Buffers.alloc, Buffers.setB1, hb1] at hb hzero ⊢
    obtain hb | rfl := Nat.lt_succ_iff_lt_or_eq.mp hb
    · rw [howner b hb] at hzero
      obtain hfree | ⟨j, hj⟩ := h.kept b hb hzero
      · exact Or.inl hfree
      · refine Or.inr ⟨j, ?_⟩
        rw [if_neg, hj]
        rintro rfl
        rw [hnone] at hj
        cases hj
    · exact Or.inr ⟨i, if_pos rfl⟩

theorem handle_spec (hw : s.Windows) (h : s.Pointers) (hd : s.rpcs.active i = some d)
    (hst : d.stage = .handle) (ho : d.Outcome s.rpcs r i ret body o) (hsome : o.isSome) :
    ({ s.handle i d.header ret body with rpcs := r } : Buffers).Windows ∧
      ({ s.handle i d.header ret body with rpcs := r } : Buffers).Pointers := by
  set n := d.header.cltNonce with hn
  obtain ⟨d', rfl⟩ := Option.isSome_iff_exists.mp hsome
  have hgoes := ho.goes d' rfl
  have hnone := h.b1_none hd (by rw [hst]; decide) (by rw [hst]; decide)
  have hst' : d'.stage = .choose := by
    have hmem := hgoes.stage
    rw [hst] at hmem
    exact List.mem_singleton.mp hmem
  have hrep : d'.rep = some (ret, body) := by
    rw [hgoes.rep, Rpcs.replyAfter, hst]
  have hp := h.alloc ho.active hnone hst' hrep (n := n) (by rw [hgoes.kept.1])
  have hwin : r.window = if n > 0 then addReply s.rpcs.window n d.header.xid.toUInt32 (ret, body)
      (Int32.ofNat body.length) else s.rpcs.window := by
    rw [ho.window, Rpcs.windowAfter, hst]
  have hw' := (hw.alloc n (ret, body)).setB1 i (some s.made)
  unfold Buffers.handle
  dsimp only
  rw [← hn]
  split_ifs with hpos
  · refine ⟨(hw'.touch n).update (mem_touch _ n) ?_ ?_ ?_ ?_, hp _ _⟩
    · have hmirror : s.rpcs.window n =
          (s.window n).map (Reply.map (s.alloc n (ret, body)).bytes) :=
        (hw.alloc n (ret, body)).mirror n
      have hbytes : (s.alloc n (ret, body)).bytes s.made = (ret, body) := Function.update_self ..
      have hstore := storeReply_map (s.alloc n (ret, body)).bytes (s.window n)
        d.header.xid.toUInt32 s.made (Int32.ofNat body.length)
      rw [hbytes] at hstore
      rw [hwin, if_pos hpos, addReply, hmirror, hstore]
      rfl
    · exact sorted_storeReply (hw.sorted n)
    · exact nodup_storeReply (hw.sorted n) (hw.once n)
        fun hb => absurd (hw.held n _ hb).1 (lt_irrefl _)
    · intro b hb
      obtain rfl | hb := mem_stored hb
      · refine ⟨Nat.lt_succ_self _, Function.update_self .., fun hzero => ?_⟩
        rw [hzero] at hpos
        exact absurd hpos (by decide)
      · exact (hw.alloc n (ret, body)).held n b hb
  · exact ⟨hw'.same (by rw [hwin, if_neg hpos]; rfl), hp _ _⟩

/-- The dispatch frees its buffer. -/
theorem Pointers.free (h : s.Pointers) (hact : r.active = Function.update s.rpcs.active i o) {b : ℕ}
    (hb : s.b1 i = some b) (hzero : s.owner b = 0) :
    ({ s.setB1 i none with rpcs := r, freed := s.freed ++ [b] } : Buffers).Pointers := by
  have hb1 : ∀ j, Function.update s.b1 i none j = if j = i then none else s.b1 j :=
    fun j => Function.update_apply ..
  have hold : ∀ {j c}, Function.update s.b1 i none j = some c → j ≠ i ∧ s.b1 j = some c := by
    intro j c hc
    rw [hb1] at hc
    split_ifs at hc with hj
    exact ⟨hj, hc⟩
  obtain ⟨hlt, hfree, -⟩ := h.points i b hb
  refine ⟨fun c hc => ?_, ?_, fun j c hc => ?_, fun j k c hz hj hk => ?_, fun c hc hz => ?_⟩
  · obtain hc | hc := List.mem_append.mp hc
    · exact h.freed c hc
    · rw [List.mem_singleton.mp hc]
      exact ⟨hlt, hzero⟩
  · exact List.Nodup.append h.once (List.nodup_singleton b) (List.disjoint_singleton.mpr hfree)
  · obtain ⟨hj, hpt⟩ := hold hc
    obtain ⟨hclt, hcfree, d', hp⟩ := h.points j c hpt
    refine ⟨hclt, fun hmem => ?_, d', ?_, hp.stage, hp.rep, hp.owner⟩
    · obtain hmem | hmem := List.mem_append.mp hmem
      · exact hcfree hmem
      · obtain rfl := List.mem_singleton.mp hmem
        exact hj (h.alone j i c hzero hpt hb)
    · dsimp only
      rw [hact, Function.update_of_ne hj]
      exact hp.active
  · exact h.alone j k c hz (hold hj).2 (hold hk).2
  · obtain hmem | ⟨j, hj⟩ := h.kept c hc hz
    · exact Or.inl (List.mem_append_left _ hmem)
    · by_cases hji : j = i
      · rw [hji, hb] at hj
        rw [← Option.some.inj hj]
        exact Or.inl (List.mem_append_right _ (List.mem_singleton_self b))
      · refine Or.inr ⟨j, ?_⟩
        simp only [setB1, hb1, if_neg hji]
        exact hj

/-- A reply that has been sent. -/
theorem sent_spec (hw : s.Windows) (h : s.Pointers) (hd : s.rpcs.active i = some d)
    (hst : d.stage = .reply) (ho : d.Outcome s.rpcs r i ret body o) :
    ({ s.sent i d.header with rpcs := r } : Buffers).Windows ∧
      ({ s.sent i d.header with rpcs := r } : Buffers).Pointers := by
  have hrw : r.window = s.rpcs.window := by
    rw [ho.window, windowAfter_eq (by rw [hst]; decide) (by rw [hst]; decide)]
  have hown : ∀ b, s.b1 i = some b → s.owner b = d.header.cltNonce := by
    intro b hb
    obtain ⟨-, -, d', hp⟩ := h.points i b hb
    obtain rfl := Option.some.inj (hd.symm.trans hp.active)
    exact hp.owner
  have hw' := (hw.setB1 i none).same hrw
  unfold Buffers.sent
  split_ifs with hzero
  · refine ⟨⟨hw'.mirror, hw'.sorted, hw'.keys, hw'.known, hw'.once, hw'.held⟩, ?_⟩
    cases hb : s.b1 i with
    | none =>
      rw [Option.toList_none, List.append_nil]
      exact h.goes ho.active (fun b hb' => by cases hb') (fun b hb' => by cases hb')
        (fun b hb' => by rw [hb] at hb'; cases hb') _ _
    | some b => exact h.free ho.active hb ((hown b hb).trans hzero)
  · refine ⟨hw', h.goes ho.active (fun b hb => by cases hb) (fun b hb => by cases hb)
      (fun b hb hz => ?_) _ _⟩
    exact absurd ((hown b hb).symm.trans hz) hzero

/-- A dispatch that checks, handles or chooses goes on. -/
theorem dispatch_stays (hs : s.rpcs.dispatch i d ret body = some r)
    (hst : d.stage = .check ∨ d.stage = .handle ∨ d.stage = .choose) : (r.active i).isSome := by
  have henter : ∀ (s' : Rpcs) (d' : Dispatch) (stage : Stage),
      ((s'.enter i d' stage).active i).isSome := fun s' d' stage => by
    simp [Rpcs.enter, Rpcs.setActive]
  unfold Rpcs.dispatch at hs
  obtain hst | hst | hst := hst
  · rw [hst] at hs
    rw [← Option.some.inj hs]
    exact henter ..
  · rw [hst] at hs
    dsimp only at hs
    split_ifs at hs
    · rw [← Option.some.inj hs]
      exact henter ..
    · rw [← Option.some.inj hs]
      exact henter ..
  · rw [hst] at hs
    obtain ⟨c, -, hs⟩ := Option.bind_eq_some_iff.mp hs
    obtain ⟨x, -, rfl⟩ := Option.map_eq_some_iff.mp hs
    exact henter ..

/-- A step of a dispatch keeps both. -/
theorem dispatch_spec (hw : s.Windows) (h : s.Pointers) (hd : s.rpcs.active i = some d)
    (hs : s.rpcs.dispatch i d ret body = some r) :
    ({ s.dispatch i d ret body with rpcs := r } : Buffers).Windows ∧
      ({ s.dispatch i d ret body with rpcs := r } : Buffers).Pointers := by
  obtain ⟨o, ho⟩ := dispatch_outcome hs
  have hactive : r.active i = o := by
    rw [ho.active, Function.update_self]
  have hpass : d.stage ≠ .check → d.stage ≠ .handle → d.stage ≠ .choose → d.stage ≠ .reply →
      ∀ clients, ({ s with clients := clients } : Buffers).Windows →
      ({ s with rpcs := r, clients := clients } : Buffers).Windows ∧
        ({ s with rpcs := r, clients := clients } : Buffers).Pointers := by
    intro hck hh hch hre clients hwc
    refine ⟨hwc.same (by rw [ho.window, windowAfter_eq hck hh]), ?_⟩
    exact h.passes ho.active (h.b1_none hd hch hre) s.window clients
  unfold Buffers.dispatch
  cases hst : d.stage with
  | header => exact hpass (by simp [hst]) (by simp [hst]) (by simp [hst]) (by simp [hst]) _ hw
  | oldServer => exact hpass (by simp [hst]) (by simp [hst]) (by simp [hst]) (by simp [hst]) _ hw
  | record =>
    exact hpass (by simp [hst]) (by simp [hst]) (by simp [hst]) (by simp [hst]) _
      (hw.touch d.header.cltNonce)
  | check =>
    exact check_spec hw h hd hst ho (hactive ▸ dispatch_stays hs (Or.inl hst))
  | handle =>
    exact handle_spec hw h hd hst ho (hactive ▸ dispatch_stays hs (Or.inr (Or.inl hst)))
  | choose =>
    have hsome := hactive ▸ dispatch_stays hs (Or.inr (Or.inr hst))
    obtain ⟨d', rfl⟩ := Option.isSome_iff_exists.mp hsome
    have hgoes := ho.goes d' rfl
    refine ⟨hw.same (by rw [ho.window, windowAfter_eq (by simp [hst]) (by simp [hst])]), ?_⟩
    have hp := h.goes ho.active (p := s.b1 i) (fun b hb => ?_) (fun b hb _ => hb)
      (fun b hb _ => hb) s.window s.clients
    · have hself : s.setB1 i (s.b1 i) = s := by
        unfold setB1
        rw [Function.update_eq_self]
      rw [hself] at hp
      exact hp
    · obtain ⟨hlt, hfree, d₀, hpt⟩ := h.points i b hb
      obtain rfl := Option.some.inj (hd.symm.trans hpt.active)
      have hmem := hgoes.stage
      rw [hst] at hmem
      refine ⟨hlt, hfree, d', rfl, Or.inr (List.mem_singleton.mp hmem), ?_, ?_⟩
      · rw [hgoes.rep, Rpcs.replyAfter, hst]
        exact hpt.rep
      · rw [hpt.owner, hgoes.kept.1]
  | reply => exact sent_spec hw h hd hst ho
  | release => exact hpass (by simp [hst]) (by simp [hst]) (by simp [hst]) (by simp [hst]) _ hw

/-- And so does any other event of the server. -/
theorem outside_spec (hw : s.Windows) (h : s.Pointers) {e : RpcsEvent} (ho : s.rpcs.Outside e r) :
    ({ s with rpcs := r } : Buffers).Windows ∧ ({ s with rpcs := r } : Buffers).Pointers := by
  refine ⟨hw.same ho.window, h.freed, h.once, fun i b hb => ?_, h.alone, h.kept⟩
  obtain ⟨hlt, hfree, d, hp⟩ := h.points i b hb
  refine ⟨hlt, hfree, d, ?_, hp.stage, hp.rep, hp.owner⟩
  have hsame : r.active = s.rpcs.active → r.active i = some d := fun heq => by
    rw [heq]
    exact hp.active
  obtain ⟨-, hact⟩ | ⟨c, buf, sz, -, -, -, hact⟩ | ⟨j, job, q, -, hnone, -, -, hact⟩ := ho.queue
  · exact hsame hact
  · exact hsame hact
  · have hij : i ≠ j := by
      rintro rfl
      exact absurd (hp.active.symm.trans hnone) (by simp)
    change r.active i = some d
    rw [hact, Function.update_of_ne hij]
    exact hp.active

/-- What holds of a server until it is destroyed, and what is left to say of it then. -/
def Safe (s : Buffers) : Prop :=
  (∀ b ∈ s.freed, b < s.made) ∧ s.freed.Nodup ∧
    if s.destroyed then ∀ i, s.b1 i = none else s.Windows ∧ s.Pointers

variable {s' : Buffers}

theorem destroy_eq_some (hs : s.step .destroy = some s') :
    s.destroyed = false ∧ (∀ i, s.rpcs.active i = none) ∧
      s' = { s.freeReplyWindow with destroyed := true } := by
  simp only [Buffers.step] at hs
  split_ifs at hs with hidle
  refine ⟨hidle.1, fun i => ?_, (Option.some.inj hs).symm⟩
  exact Option.isNone_iff_eq_none.mp (hidle.2.2 i)

theorem mem_freeReplyWindow (hw : s.Windows) {b : ℕ} :
    b ∈ s.freeReplyWindow.freed ↔ b ∈ s.freed ∨ ∃ n, b ∈ buffers s.window n := by
  unfold freeReplyWindow
  dsimp only
  rw [List.mem_append, List.mem_flatMap]
  constructor
  · exact Or.imp_right fun ⟨n, h⟩ => ⟨n, h.2⟩
  · refine Or.imp_right fun ⟨n, hb⟩ => ⟨n, ?_, hb⟩
    by_contra hn
    unfold buffers at hb
    rw [hw.known n hn] at hb
    cases hb

/-- A reply is in one window, so that it is freed once. -/
theorem freeReplyWindow_nodup (hw : s.Windows) (h : s.Pointers) :
    s.freeReplyWindow.freed.Nodup := by
  refine List.Nodup.append h.once (List.nodup_flatMap.mpr ⟨fun n _ => hw.once n, ?_⟩) ?_
  · refine hw.keys.imp fun {n m} hne b hb hb' => hne ?_
    rw [← (hw.held n b hb).2.1, (hw.held m b hb').2.1]
  · intro b hfree hmem
    obtain ⟨n, -, hb⟩ := List.mem_flatMap.mp hmem
    obtain ⟨-, howner, hne⟩ := hw.held n b hb
    exact hne (howner.symm.trans (h.freed b hfree).2)

theorem Pointers.idle (h : s.Pointers) (hidle : ∀ i, s.rpcs.active i = none) (i : Worker) :
    s.b1 i = none := by
  rw [Option.eq_none_iff_forall_ne_some]
  intro b hb
  obtain ⟨-, -, d, hp⟩ := h.points i b hb
  exact absurd ((hidle i).symm.trans hp.active) (by simp)

theorem Safe.of_spec (hdes : s.destroyed = false) (h : s.Windows ∧ s.Pointers) : s.Safe := by
  refine ⟨fun b hb => (h.2.freed b hb).1, h.2.once, ?_⟩
  rw [hdes]
  exact h

theorem Safe.init (sum : Bool) (nonce : UInt32) (procs : List Int32) :
    (Buffers.init sum nonce procs).Safe :=
  .of_spec rfl ⟨Windows.init sum nonce procs, Pointers.init sum nonce procs⟩

theorem server_eq_some {e : RpcsEvent} (hs : s.step (.server e) = some s') :
    s.destroyed = false ∧ ∃ r, s.rpcs.step e = some r ∧ s' = { s.account e with rpcs := r } := by
  simp only [Buffers.step] at hs
  split_ifs at hs with hdes
  obtain ⟨r, hr, rfl⟩ := Option.map_eq_some_iff.mp hs
  exact ⟨by simpa using hdes, r, hr, rfl⟩

/-- No event of the server destroys it. -/
theorem destroyed_account (s : Buffers) (e : RpcsEvent) :
    (s.account e).destroyed = s.destroyed := by
  cases e with
  | go i ret body =>
    unfold account
    dsimp only
    cases s.rpcs.active i with
    | none => rfl
    | some d =>
      change (s.dispatch i d ret body).destroyed = s.destroyed
      unfold Buffers.dispatch Buffers.handle Buffers.sent
      split
      · rfl
      · rfl
      · dsimp only
        split_ifs <;> rfl
      · split_ifs <;> rfl
      · rfl
  | _ => rfl

theorem Safe.step (h : s.Safe) {e : BufferEvent} (hs : s.step e = some s') : s'.Safe := by
  obtain ⟨hlt, hnodup, hspec⟩ := h
  cases e with
  | server e =>
    obtain ⟨hdes, r, hr, rfl⟩ := server_eq_some hs
    rw [hdes] at hspec
    obtain ⟨hw, hp⟩ := hspec
    refine .of_spec ((s.destroyed_account e).trans hdes) ?_
    by_cases hgo : ∃ i ret body, e = .go i ret body
    · obtain ⟨i, ret, body, rfl⟩ := hgo
      obtain ⟨d, hd, hr⟩ := Option.bind_eq_some_iff.mp hr
      unfold account
      dsimp only
      rw [hd]
      exact dispatch_spec hw hp hd hr
    · have ho := step_outside (fun i ret body he => hgo ⟨i, ret, body, he⟩) hr
      have hacc : s.account e = s := by
        cases e with
        | go i ret body => exact absurd ⟨i, ret, body, rfl⟩ hgo
        | _ => rfl
      rw [hacc]
      exact outside_spec hw hp ho
  | destroy =>
    obtain ⟨hdes, hidle, rfl⟩ := destroy_eq_some hs
    rw [hdes] at hspec
    obtain ⟨hw, hp⟩ := hspec
    refine ⟨fun b hb => ?_, freeReplyWindow_nodup hw hp, hp.idle hidle⟩
    obtain hb | ⟨n, hb⟩ := (mem_freeReplyWindow hw).mp hb
    · exact hlt b hb
    · exact (hw.held n b hb).1

/-- A buffer that is there keeps its owner, and no window gets a pointer to it. -/
structure Frame (s s' : Buffers) (b : ℕ) : Prop where
  made : b < s'.made
  owner : s'.owner b = s.owner b
  buffers : ∀ n, b ∈ buffers s'.window n → b ∈ buffers s.window n

theorem buffers_update {w : ReplyWindow ℕ} {n m : UInt32} {l : List (Reply ℕ)} {b : ℕ}
    (hl : b ∈ l.filterMap Reply.buf → b ∈ buffers w n)
    (hb : b ∈ buffers (Function.update w n l) m) : b ∈ buffers w m := by
  unfold buffers at hb
  rw [Function.update_apply] at hb
  split_ifs at hb with hm
  · exact hm ▸ hl hb
  · exact hb

theorem frame_handle (s : Buffers) (i : Worker) (h : ReqHeader) (ret : Int32) (body : List UInt8)
    {b : ℕ} (hb : b < s.made) : s.Frame (s.handle i h ret body) b := by
  have howner : Function.update s.owner s.made h.cltNonce b = s.owner b :=
    Function.update_of_ne (Nat.ne_of_lt hb) ..
  unfold handle
  dsimp only
  split_ifs
  · refine ⟨Nat.lt_succ_of_lt hb, howner, fun n hn => buffers_update (fun hmem => ?_) hn⟩
    exact (mem_stored hmem).resolve_left (Nat.ne_of_lt hb)
  · exact ⟨Nat.lt_succ_of_lt hb, howner, fun _ hn => hn⟩

theorem frame_account (s : Buffers) (e : RpcsEvent) {b : ℕ} (hb : b < s.made) :
    s.Frame (s.account e) b := by
  have hsame : s.Frame s b := ⟨hb, rfl, fun _ hn => hn⟩
  cases e with
  | go i ret body =>
    unfold account
    dsimp only
    cases s.rpcs.active i with
    | none => exact hsame
    | some d =>
      change s.Frame (s.dispatch i d ret body) b
      unfold Buffers.dispatch
      split
      · exact ⟨hb, rfl, fun _ hn => hn⟩
      · exact ⟨hb, rfl, fun n hn => buffers_update (fun hmem => buffers_checkList.subset hmem) hn⟩
      · exact frame_handle s i d.header ret body hb
      · unfold Buffers.sent
        split_ifs <;> exact ⟨hb, rfl, fun _ hn => hn⟩
      · exact hsame
  | _ => exact hsame

/-- A buffer of a client with a nonce that no window holds. -/
structure Lost (s : Buffers) (b : ℕ) : Prop where
  made : b < s.made
  owner : s.owner b ≠ 0
  unfreed : b ∉ s.freed
  dropped : ∀ n, b ∉ buffers s.window n

/-- A buffer that is there keeps its owner. -/
theorem owner_step {b : ℕ} (hb : b < s.made) {e : BufferEvent} (hs : s.step e = some s') :
    b < s'.made ∧ s'.owner b = s.owner b := by
  cases e with
  | server e =>
    obtain ⟨-, r, -, rfl⟩ := server_eq_some hs
    exact ⟨(s.frame_account e hb).made, (s.frame_account e hb).owner⟩
  | destroy =>
    obtain ⟨-, -, rfl⟩ := destroy_eq_some hs
    exact ⟨hb, rfl⟩

theorem not_destroyed {e : BufferEvent} (hs : s.step e = some s') : s.destroyed = false := by
  cases e with
  | server e => exact (server_eq_some hs).1
  | destroy => exact (destroy_eq_some hs).1

theorem Lost.step {b : ℕ} (hb : s.Lost b) (h : s.Safe) {e : BufferEvent}
    (hs : s.step e = some s') : s'.Lost b := by
  have h' := h.step hs
  cases e with
  | server e =>
    obtain ⟨hdes, r, hr, rfl⟩ := server_eq_some hs
    have hframe := s.frame_account e hb.made
    have hspec := h'.2.2
    rw [if_neg (by simp [destroyed_account, hdes])] at hspec
    have howner : (s.account e).owner b ≠ 0 := by
      rw [hframe.owner]
      exact hb.owner
    exact ⟨hframe.made, howner, fun hfree => howner (hspec.2.freed b hfree).2,
      fun n hn => hb.dropped n (hframe.buffers n hn)⟩
  | destroy =>
    obtain ⟨hdes, -, rfl⟩ := destroy_eq_some hs
    have hspec := h.2.2
    rw [if_neg (by simp [hdes])] at hspec
    refine ⟨hb.made, hb.owner, fun hfree => ?_, fun n hn => by cases hn⟩
    obtain hfree | ⟨n, hn⟩ := (mem_freeReplyWindow hspec.1).mp hfree
    · exact hb.unfreed hfree
    · exact hb.dropped n hn

end Buffers

section Runs

variable {s s' : Buffers} {events more rest : List BufferEvent}

/-- The server sends no reply from a buffer that has been freed, or that holds another reply, and
it frees no buffer twice, whatever requests arrive and however its threads take turns. As long as
it is there, its reply windows hold what the replies are, in buffers that are allocated. -/
theorem reply_buffers_safe (sum : Bool) (nonce : UInt32) (procs : List Int32)
    (hrun : runs Buffers.step events (.init sum nonce procs) = some s) :
    s.freed.Nodup ∧ (∀ b ∈ s.freed, b < s.made) ∧
      (∀ i b, s.b1 i = some b → b ∉ s.freed ∧
        ∃ d, s.rpcs.active i = some d ∧ d.rep = some (s.bytes b)) ∧
      (s.destroyed = false → ∀ n, s.rpcs.window n = (s.window n).map (Reply.map s.bytes) ∧
        ∀ b ∈ Buffers.buffers s.window n, b ∉ s.freed) := by
  have h := runs_invariant Buffers.step (fun _ _ _ h hs => Buffers.Safe.step h hs)
    (Buffers.Safe.init sum nonce procs) hrun
  obtain ⟨hlt, hnodup, hspec⟩ := h
  refine ⟨hnodup, hlt, fun i b hb => ?_, fun hdes n => ?_⟩
  · split_ifs at hspec
    · exact absurd ((hspec i).symm.trans hb) (by simp)
    · obtain ⟨-, hfree, d, hp⟩ := hspec.2.points i b hb
      exact ⟨hfree, d, hp.active, hp.rep⟩
  · rw [if_neg (by simp [hdes])] at hspec
    refine ⟨hspec.1.mirror n, fun b hb hfree => ?_⟩
    obtain ⟨-, howner, hne⟩ := hspec.1.held n b hb
    exact hne (howner.symm.trans (hspec.2.freed b hfree).2)

/-- When the server has been destroyed, the replies that are still allocated are the ones for
clients with a nonce that no reply window held any more. -/
theorem reply_buffers_leaked (sum : Bool) (nonce : UInt32) (procs : List Int32)
    (hrun : runs Buffers.step events (.init sum nonce procs) = some s)
    (hs : s.step .destroy = some s') {b : ℕ} (hb : b < s'.made) :
    b ∉ s'.freed ↔ s.owner b ≠ 0 ∧ ∀ n, b ∉ Buffers.buffers s.window n := by
  have h := runs_invariant Buffers.step (fun _ _ _ h hs => Buffers.Safe.step h hs)
    (Buffers.Safe.init sum nonce procs) hrun
  obtain ⟨hdes, hidle, rfl⟩ := Buffers.destroy_eq_some hs
  have hspec := h.2.2
  rw [if_neg (by simp [hdes])] at hspec
  obtain ⟨hw, hp⟩ := hspec
  have hmem : b ∈ s.freeReplyWindow.freed ↔ b ∈ s.freed ∨ ∃ n, b ∈ Buffers.buffers s.window n :=
    Buffers.mem_freeReplyWindow hw
  change b ∉ s.freeReplyWindow.freed ↔ _
  rw [hmem, not_or, not_exists]
  refine and_congr_left fun _ => ⟨fun hfree hzero => ?_, fun hne hfree => hne (hp.freed b hfree).2⟩
  obtain hmem | ⟨i, hi⟩ := hp.kept b hb hzero
  · exact hfree hmem
  · rw [hp.idle hidle i] at hi
    cases hi

/-- A reply that has been taken out of its window is never freed, neither then nor by `~rpcs`: the
check, which is to free it, does not. -/
theorem trimmed_leaks (sum : Bool) (nonce : UInt32) (procs : List Int32)
    (hrun : runs Buffers.step events (.init sum nonce procs) = some s)
    {n : UInt32} {b : ℕ} (hb : b ∈ Buffers.buffers s.window n)
    (hmore : runs Buffers.step more s = some s') (hdes : s'.destroyed = false)
    (hout : b ∉ Buffers.buffers s'.window n) {s'' : Buffers}
    (hrest : runs Buffers.step rest s' = some s'') : b ∉ s''.freed := by
  have hsafe := fun {m : Buffers} {es : List BufferEvent} {m' : Buffers} (h : m.Safe)
      (hr : runs Buffers.step es m = some m') =>
    runs_invariant Buffers.step (fun _ _ _ h hs => Buffers.Safe.step h hs) h hr
  have h := hsafe (.init sum nonce procs) hrun
  have h' := hsafe h hmore
  have hdes₀ : s.destroyed = false := by
    cases more with
    | nil =>
      cases hmore
      exact hdes
    | cons e more =>
      obtain ⟨m, hs, -⟩ := (runs_cons_eq_some Buffers.step).mp hmore
      exact Buffers.not_destroyed hs
  have hspec := h.2.2
  have hspec' := h'.2.2
  rw [if_neg (by simp [hdes₀])] at hspec
  rw [if_neg (by simp [hdes])] at hspec'
  obtain ⟨hlt, howner, hne⟩ := hspec.1.held n b hb
  have hkept : b < s'.made ∧ s'.owner b = n :=
    runs_invariant (I := fun m : Buffers => b < m.made ∧ m.owner b = n) Buffers.step
      (fun m e m' hm hs => ⟨(Buffers.owner_step hm.1 hs).1,
        (Buffers.owner_step hm.1 hs).2.trans hm.2⟩) ⟨hlt, howner⟩ hmore
  have hzero : s'.owner b ≠ 0 := by
    rw [hkept.2]
    exact hne
  have hlost : s'.Lost b := by
    refine ⟨hkept.1, hzero, fun hfree => hzero (hspec'.2.freed b hfree).2, fun m hm => ?_⟩
    obtain rfl := (hspec'.1.held m b hm).2.1.symm.trans hkept.2
    exact hout hm
  exact (runs_invariant (I := fun m : Buffers => m.Safe ∧ m.Lost b) Buffers.step
    (fun _ _ _ hm hs => ⟨hm.1.step hs, hm.2.step hm.1 hs⟩) ⟨h', hlost⟩ hrest).2.unfreed

end Runs

/-- The bytes of a request of the client 1. -/
def callBytes (xid xidRep : UInt8) (i : ℕ) : UInt8 :=
  if i = 7 then xid else if i = 15 then 1 else if i = 23 then xidRep else 0

/-- A request comes to a worker, which takes so many steps. -/
def called (xid xidRep : UInt8) (steps : ℕ) : List BufferEvent :=
  [.server (.gotPdu 0 (callBytes xid xidRep) 24 true), .server .returned, .server (.take 0)] ++
    .replicate steps (.server (.go 0 0 []))

/-- A client connects, and its first call is answered. -/
def answered : List BufferEvent := [.server (.accept 3 0), .server .insert] ++ called 1 0 7

theorem reply_buffers_safe_example :
    ∃ s, runs Buffers.step (answered ++ called 3 2 5) (.init false 9 [0]) = some s ∧
      s.b1 0 = some 1 ∧ 1 ∉ s.freed := by
  have hrun : ((runs Buffers.step (answered ++ called 3 2 5) (.init false 9 [0])).any fun s =>
      s.b1 0 = some 1) = true := by decide +kernel
  obtain ⟨s, hs, hb⟩ := (Option.any_eq_true ..).mp hrun
  have hb := of_decide_eq_true hb
  exact ⟨s, hs, hb, ((reply_buffers_safe false 9 [0] hs).2.2.1 0 1 hb).1⟩

theorem reply_buffers_leaked_example :
    ∃ s s', runs Buffers.step (answered ++ called 3 2 7) (.init false 9 [0]) = some s ∧
      s.step .destroy = some s' ∧ s'.freed = [1] ∧ s.owner 0 ≠ 0 := by
  have hrun : ((runs Buffers.step (answered ++ called 3 2 7) (.init false 9 [0])).any fun s =>
      (s.step .destroy).any fun s' => s'.freed = [1] ∧ s'.made = 2) = true := by decide +kernel
  obtain ⟨s, hs, hany⟩ := (Option.any_eq_true ..).mp hrun
  obtain ⟨s', hs', hend⟩ := (Option.any_eq_true ..).mp hany
  obtain ⟨hfreed, hmade⟩ := of_decide_eq_true hend
  have hleak : 0 ∉ s'.freed := by
    rw [hfreed]
    decide
  refine ⟨s, s', hs, hs', hfreed, ?_⟩
  exact ((reply_buffers_leaked false 9 [0] hs hs' (b := 0) (hmade ▸ Nat.two_pos)).mp hleak).1

theorem trimmed_leaks_example :
    ∃ s, runs Buffers.step (answered ++ called 3 2 7 ++ [.destroy]) (.init false 9 [0]) = some s ∧
      s.destroyed = true ∧ 0 ∉ s.freed := by
  have hrun : ((runs Buffers.step answered (.init false 9 [0])).any fun s =>
      0 ∈ Buffers.buffers s.window 1 ∧ (runs Buffers.step (called 3 2 7) s).any fun s' =>
        0 ∉ Buffers.buffers s'.window 1 ∧ s'.destroyed = false ∧
          (s'.step .destroy).any fun s'' => s''.destroyed) = true := by decide +kernel
  obtain ⟨s, hs, hany⟩ := (Option.any_eq_true ..).mp hrun
  obtain ⟨hb, hany⟩ := of_decide_eq_true hany
  obtain ⟨s', hs', hany⟩ := (Option.any_eq_true ..).mp hany
  obtain ⟨hout, hdes, hany⟩ := of_decide_eq_true hany
  obtain ⟨s'', hs'', hend⟩ := (Option.any_eq_true ..).mp hany
  have hdestroy : runs Buffers.step [.destroy] s' = some s'' := by
    rw [runs_singleton]
    exact hs''
  refine ⟨s'', ?_, hend, trimmed_leaks false 9 [0] hs hb hs' hdes hout hdestroy⟩
  exact (runs_append_eq_some _).mpr ⟨s', (runs_append_eq_some _).mpr ⟨s, hs, hs'⟩, hdestroy⟩

end Yfs.Rpc
