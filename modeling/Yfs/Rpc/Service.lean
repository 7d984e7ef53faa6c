import Yfs.Rpc.Requests

/-! What holds of the server, as long as its clients pack lawful headers. -/
namespace Yfs.Rpc
open Effect

variable {sum : Bool}

/-- What the clients promise: `made` are the headers that each has packed. -/
structure Ledger (made : UInt32 → List ReqHeader) (known : List UInt32) : Prop where
  lawful : ∀ n, ∀ h ∈ made n, h.Lawful n known
  unique : ∀ n, ∀ a ∈ made n, ∀ b ∈ made n, a.xid = b.xid → a = b

/-- A running dispatch has a request of the client whose connection it uses. -/
structure Dispatch.Sound (made : UInt32 → List ReqHeader) (h : Host sum) (d : Dispatch) : Prop where
  ok : d.ok = true
  made : d.header ∈ made d.header.cltNonce
  conn : ∀ c, d.conn = some c → c < h.rpcs.made ∧ h.owner c = d.header.cltNonce
  current : d.stage ≠ .header → d.stage ≠ .oldServer → h.rpcs.isOldServer d.header = false
  rep : ∀ v, d.rep = some v → 0 ≤ v.1 → (h.task d, v) ∈ h.executed
  handling : d.stage = .handle → h.task d ∈ h.begun ∧
    (h.task d).key ∉ h.executed.map fun e => e.1.key

/-- The reply windows know what the instance has begun, and hold what it has executed. -/
structure Host.Remembers (h : Host sum) : Prop where
  sorted : ∀ n, Sorted (h.rpcs.window n)
  known : ∀ t ∈ h.begun, t.srv = h.rpcs.nonce → 1 ≤ age (h.rpcs.window t.clt) t.xid
  kept : ∀ n, ∀ r ∈ h.rpcs.window n, r.cbPresent = true →
    ∃ proc v, r.buf = some v ∧ (⟨h.rpcs.nonce, n, r.xid, proc⟩, v) ∈ h.executed

/-- What the instances have begun and executed, each once. -/
structure Host.Books (made : UInt32 → List ReqHeader) (h : Host sum) : Prop where
  begun : ∀ t ∈ h.begun, t.srv ∈ h.instances ∧ ∃ hd ∈ made t.clt, hd.xid.toUInt32 = t.xid ∧
    hd.proc = t.proc ∧ (hd.srvNonce = 0 ∨ hd.srvNonce = t.srv)
  executed : ∀ e ∈ h.executed, e.1 ∈ h.begun ∧
    (e.1.proc = bindProc → e.2 = (0, netBytes e.1.srv))
  begunOnce : (h.begun.map Task.key).Nodup
  executedOnce : (h.executed.map fun e => e.1.key).Nodup

structure Host.Sound (made : UInt32 → List ReqHeader) (h : Host sum) : Prop where
  format : h.rpcs.sum = sum
  nonce : h.rpcs.nonce ∈ h.instances
  nonzero : ∀ n ∈ h.instances, n ≠ 0
  arriving : ∀ p ∈ h.sent, p.1 < h.rpcs.made ∧ p.2.header ∈ made (h.owner p.1)
  queued : ∀ j ∈ h.rpcs.queue, j.conn < h.rpcs.made ∧ ∃ r : Request sum, j.buf = r.buf ∧
    j.sz = r.sz ∧ r.header ∈ made (h.owner j.conn)
  recorded : ∀ n c, h.rpcs.conns.find n = some (some c) → c < h.rpcs.made ∧ h.owner c = n
  running : ∀ i d, h.rpcs.active i = some d → d.Sound made h
  distinct : ∀ i j d d', h.rpcs.active i = some d → h.rpcs.active j = some d' →
    d.stage = .handle → d'.stage = .handle → (h.task d).key = (h.task d').key → i = j
  remembers : h.Remembers
  books : h.Books made

section Window

variable {β : Type} {w : ReplyWindow β} {n xid xidRep : UInt32}

/-- What a check does to the windows. -/
theorem checkduplicate_window (hs : ∀ n, Sorted (w n)) (hrep : xidRep ≤ xid) :
    (∀ m, Sorted ((checkduplicateAndUpdate w n xid xidRep).2 m)) ∧
      (∀ m x, age (w m) x ≤ age ((checkduplicateAndUpdate w n xid xidRep).2 m) x) ∧
      1 ≤ age ((checkduplicateAndUpdate w n xid xidRep).2 n) xid ∧
      ∀ m, ∀ r ∈ (checkduplicateAndUpdate w n xid xidRep).2 m, r.cbPresent = true → r ∈ w m := by
  unfold checkduplicateAndUpdate
  dsimp only
  refine ⟨fun m => ?_, fun m x => ?_, ?_, fun m r hr hc => ?_⟩
  · by_cases hm : m = n
    · rw [hm, Function.update_self]
      exact sorted_checkList (hs n)
    · rw [Function.update_of_ne hm]
      exact hs m
  · by_cases hm : m = n
    · rw [hm, Function.update_self]
      exact (age_checkList (hs n) hrep).1 x
    · rw [Function.update_of_ne hm]
  · rw [Function.update_self]
    exact (age_checkList (hs n) hrep).2
  · by_cases hm : m = n
    · rw [hm, Function.update_self] at hr
      rw [hm]
      rcases checkList_cases (hs n) xid xidRep with ⟨a, -, -, -, he⟩ | ⟨a, -, -, -, he⟩ |
        ⟨-, -, he⟩ | ⟨hne, -, he⟩
      · rwa [he] at hr
      · rwa [he] at hr
      · rwa [he] at hr
      · rw [he] at hr
        obtain ⟨rfl | hr, -⟩ := (mem_new (hs n) hne).mp hr
        · cases hc
        · exact hr
    · rwa [Function.update_of_ne hm] at hr

theorem addReply_window (hs : ∀ n, Sorted (w n)) (n xid : UInt32) (b : β) (sz : Int32) :
    (∀ m, Sorted (addReply w n xid b sz m)) ∧
      (∀ m x, age (w m) x ≤ age (addReply w n xid b sz m) x) ∧
      ∀ m, ∀ r ∈ addReply w n xid b sz m, r.cbPresent = true →
        r ∈ w m ∨ m = n ∧ r.xid = xid ∧ r.buf = some b := by
  unfold addReply
  refine ⟨fun m => ?_, fun m x => ?_, fun m r hr _ => ?_⟩
  · by_cases hm : m = n
    · rw [hm, Function.update_self]
      exact sorted_storeReply (hs n)
    · rw [Function.update_of_ne hm]
      exact hs m
  · by_cases hm : m = n
    · rw [hm, Function.update_self]
      exact (age_storeReply (hs n)).1 x
    · rw [Function.update_of_ne hm]
  · by_cases hm : m = n
    · rw [hm, Function.update_self] at hr
      obtain ⟨a, -, hx, rfl⟩ | ⟨hr, -⟩ := mem_storeReply.mp hr
      · exact Or.inr ⟨hm, hx, rfl⟩
      · rw [hm]
        exact Or.inl hr
    · rw [Function.update_of_ne hm] at hr
      exact Or.inl hr

/-- A request that is new has not been seen, and a reply that is given back was stored. -/
theorem verdict_cases (hs : ∀ n, Sorted (w n)) (n xid xidRep : UInt32) :
    (∃ r ∈ w n, r.xid = xid ∧ r.cbPresent = true ∧
        (checkduplicateAndUpdate w n xid xidRep).1 = .done r.buf r.sz) ∨
      (checkduplicateAndUpdate w n xid xidRep).1 = .inProgress ∨
      (checkduplicateAndUpdate w n xid xidRep).1 = .forgotten ∨
      age (w n) xid = 0 ∧ (checkduplicateAndUpdate w n xid xidRep).1 = .new := by
  unfold checkduplicateAndUpdate
  dsimp only
  have hrank : (checkList (w n) xid xidRep).1.rank = age (w n) xid := rank_checkList
  rcases checkList_cases (hs n) xid xidRep with ⟨r, hr, hx, hc, he⟩ | ⟨r, -, -, -, he⟩ |
    ⟨-, -, he⟩ | ⟨-, -, he⟩
  · exact Or.inl ⟨r, hr, hx, hc, by rw [he]⟩
  · exact Or.inr (Or.inl (by rw [he]))
  · exact Or.inr (Or.inr (Or.inl (by rw [he])))
  · rw [he] at hrank ⊢
    exact Or.inr (Or.inr (Or.inr ⟨hrank.symm, rfl⟩))

end Window

/-- What a worker takes from the queue is the request that was packed. -/
theorem Request.start (r : Request sum) (c : ℕ) :
    Dispatch.start sum ⟨c, r.buf, r.sz⟩ = ⟨some c, c, none, r.header, true, none, .header⟩ := by
  obtain ⟨u, hu, -, -, hok, -⟩ := (Yields.reqHeader r.header).inHeader r.header.length_enc.le
    (u := Unmarshall.init r.buf r.sz) rfl r.low r.int r.packed
  have hunpack : Unmarshall.unpackReqHeader sum (Unmarshall.init r.buf r.sz) = (r.header, u) := hu
  unfold Dispatch.start
  rw [hunpack]
  dsimp only
  rw [hok]

namespace Host.Sound

variable {made made' : UInt32 → List ReqHeader} {h h' : Host sum}

theorem init {nonce : UInt32} (hn : nonce ≠ 0) (procs : List Int32) :
    (Host.init nonce procs : Host sum).Sound made where
  format := rfl
  nonce := List.mem_cons_self
  nonzero n h := by rwa [List.mem_singleton.mp h]
  arriving p hp := by cases hp
  queued j hj := by cases hj
  recorded n c hc := by cases hc
  running i d hd := by cases hd
  distinct i j d d' hd := by cases hd
  remembers :=
    { sorted := fun _ => List.Pairwise.nil
      known := fun t ht => by cases ht
      kept := fun n r hr => by cases hr }
  books :=
    { begun := fun t ht => by cases ht
      executed := fun e he => by cases he
      begunOnce := List.nodup_nil
      executedOnce := List.nodup_nil }

/-- Clients that pack more headers do not matter. -/
theorem mono (hs : h.Sound made) (hm : ∀ n, ∀ hd ∈ made n, hd ∈ made' n) : h.Sound made' where
  format := hs.format
  nonce := hs.nonce
  nonzero := hs.nonzero
  arriving p hp := ⟨(hs.arriving p hp).1, hm _ _ (hs.arriving p hp).2⟩
  queued j hj := by
    obtain ⟨hlt, r, hbuf, hsz, hr⟩ := hs.queued j hj
    exact ⟨hlt, r, hbuf, hsz, hm _ _ hr⟩
  recorded := hs.recorded
  running i d hd := by
    obtain ⟨hok, hmade, hconn, hcurrent, hrep, hhandling⟩ := hs.running i d hd
    exact ⟨hok, hm _ _ hmade, hconn, hcurrent, hrep, hhandling⟩
  distinct := hs.distinct
  remembers := hs.remembers
  books := by
    obtain ⟨hbegun, hexec, honce, honce'⟩ := hs.books
    refine ⟨fun t ht => ?_, hexec, honce, honce'⟩
    obtain ⟨hsrv, hd, hhd, hrest⟩ := hbegun t ht
    exact ⟨hsrv, hd, hm _ _ hhd, hrest⟩

/-- Requests that are put on a connection of their client, or lost. -/
theorem withSent (hs : h.Sound made) {sent : List (ℕ × Request sum)}
    (harr : ∀ p ∈ sent, p.1 < h.rpcs.made ∧ p.2.header ∈ made (h.owner p.1)) :
    ({ h with sent := sent } : Host sum).Sound made :=
  ⟨hs.format, hs.nonce, hs.nonzero, harr, hs.queued, hs.recorded,
    fun i d hd => ⟨(hs.running i d hd).ok, (hs.running i d hd).made, (hs.running i d hd).conn,
      (hs.running i d hd).current, (hs.running i d hd).rep, (hs.running i d hd).handling⟩,
    hs.distinct, ⟨hs.remembers.sorted, hs.remembers.known, hs.remembers.kept⟩,
    ⟨hs.books.begun, hs.books.executed, hs.books.begunOnce, hs.books.executedOnce⟩⟩

/-- Connections are never taken back. -/
theorem lt_made_of_outside {e : RpcsEvent} {r : Rpcs} (ho : h.rpcs.Outside e r) {c : ℕ}
    (hc : c < h.rpcs.made) : c < r.made := by
  obtain heq | ⟨-, heq⟩ := ho.made
  · rwa [heq]
  · rw [heq]
    exact Nat.lt_succ_of_lt hc

theorem task_of_outside {e : RpcsEvent} {r : Rpcs} (ho : h.rpcs.Outside e r) (owner : ℕ → UInt32)
    (d : Dispatch) : ({ h with rpcs := r, owner := owner } : Host sum).task d = h.task d := by
  unfold Host.task
  dsimp only
  rw [ho.nonce]

/-- A dispatch that runs has run before, or is that of a job in the queue. -/
theorem active_of_outside {e : RpcsEvent} {r : Rpcs} (ho : h.rpcs.Outside e r) {i : Worker}
    {d : Dispatch} (hd : r.active i = some d) :
    h.rpcs.active i = some d ∨ ∃ j ∈ h.rpcs.queue, d = .start h.rpcs.sum j := by
  obtain ⟨-, hactive⟩ | ⟨_, _, _, -, -, -, hactive⟩ | ⟨k, j, q, -, -, hq, -, hactive⟩ := ho.queue
  · exact Or.inl (hactive ▸ hd)
  · exact Or.inl (hactive ▸ hd)
  · rw [hactive] at hd
    by_cases hik : i = k
    · rw [hik, Function.update_self] at hd
      exact Or.inr ⟨j, hq ▸ List.mem_cons_self, (Option.some.inj hd).symm⟩
    · rw [Function.update_of_ne hik] at hd
      exact Or.inl hd

theorem running_outside {e : RpcsEvent} {r : Rpcs} (ho : h.rpcs.Outside e r) {owner : ℕ → UInt32}
    (howner : ∀ c < h.rpcs.made, owner c = h.owner c) {d : Dispatch} (hd : d.Sound made h) :
    d.Sound made ({ h with rpcs := r, owner := owner } : Host sum) := by
  have htask := task_of_outside ho owner d
  refine ⟨hd.ok, hd.made, fun c hc => ?_, fun h1 h2 => ?_, ?_, ?_⟩
  · obtain ⟨hlt, hown⟩ := hd.conn c hc
    exact ⟨lt_made_of_outside ho hlt, (howner c hlt).trans hown⟩
  · rw [← hd.current h1 h2]
    unfold Rpcs.isOldServer
    dsimp only
    rw [ho.nonce]
  · rw [htask]
    exact hd.rep
  · rw [htask]
    exact hd.handling

/-- A new dispatch has the header of a request that has arrived. -/
theorem started (hM : Ledger made h.instances) (hs : h.Sound made) {j : Job}
    (hj : j ∈ h.rpcs.queue) : (Dispatch.start h.rpcs.sum j).Sound made h := by
  obtain ⟨hlt, q, hbuf, hsz, hq⟩ := hs.queued j hj
  have hstart : Dispatch.start h.rpcs.sum j =
      ⟨some j.conn, j.conn, none, q.header, true, none, .header⟩ := by
    rw [hs.format, ← q.start, ← hbuf, ← hsz]
  have hclt := (hM.lawful _ _ hq).nonce
  rw [hstart]
  refine ⟨rfl, ?_, fun c hc => ?_, fun hne => absurd rfl hne, ?_, ?_⟩
  · dsimp only
    rwa [hclt]
  · obtain rfl := Option.some.inj hc
    exact ⟨hlt, hclt.symm⟩
  · intro v hv
    cases hv
  · intro hst
    cases hst

/-- An event of the server that is no step of a dispatch. -/
theorem outside (hM : Ledger made h.instances) (hs : h.Sound made) {e : RpcsEvent} {r : Rpcs}
    (ho : h.rpcs.Outside e r) {owner : ℕ → UInt32}
    (howner : ∀ c < h.rpcs.made, owner c = h.owner c)
    (hpdu : ∀ c buf sz, e = .gotPdu c buf sz true →
      ∃ q : Request sum, buf = q.buf ∧ sz = q.sz ∧ q.header ∈ made (h.owner c)) :
    ({ h with rpcs := r, owner := owner } : Host sum).Sound made := by
  have hmade : ∀ {c}, c < h.rpcs.made → c < r.made := lt_made_of_outside ho
  have hqueued : ∀ j ∈ h.rpcs.queue, j.conn < r.made ∧ ∃ q : Request sum, j.buf = q.buf ∧
      j.sz = q.sz ∧ q.header ∈ made (owner j.conn) := by
    intro j hj
    obtain ⟨hlt, q, hbuf, hsz, hq⟩ := hs.queued j hj
    exact ⟨hmade hlt, q, hbuf, hsz, (howner _ hlt).symm ▸ hq⟩
  refine ⟨ho.sum.trans hs.format, ho.nonce ▸ hs.nonce, hs.nonzero, fun p hp => ?_, ?_,
    fun n c hc => ?_, fun i d hd => ?_, ?_, ?_, hs.books.begun, hs.books.executed,
    hs.books.begunOnce, hs.books.executedOnce⟩
  · obtain ⟨hlt, hp⟩ := hs.arriving p hp
    refine ⟨hmade hlt, ?_⟩
    dsimp only
    rwa [howner _ hlt]
  · obtain ⟨hq, -⟩ | ⟨c, buf, sz, he, hc, hq, -⟩ | ⟨i, j, q, -, -, hq, hq', -⟩ := ho.queue
    · dsimp only
      rw [hq]
      exact hqueued
    · dsimp only
      rw [hq]
      intro j hj
      obtain hj | hj := List.mem_append.mp hj
      · exact hqueued j hj
      · rw [List.mem_singleton.mp hj]
        obtain ⟨q, hbuf, hsz, hq⟩ := hpdu c buf sz he
        exact ⟨hmade hc, q, hbuf, hsz, (howner _ hc).symm ▸ hq⟩
    · dsimp only
      rw [hq']
      exact fun j' hj' => hqueued j' (hq ▸ List.mem_cons_of_mem _ hj')
  · dsimp only at hc
    rw [ho.conns] at hc
    obtain ⟨hlt, hown⟩ := hs.recorded n c hc
    exact ⟨hmade hlt, (howner c hlt).trans hown⟩
  · obtain hd | ⟨j, hj, rfl⟩ := active_of_outside ho hd
    · exact running_outside ho howner (hs.running i d hd)
    · exact running_outside ho howner (hs.started hM hj)
  · intro i j d d' hd hd' hst hst' hkey
    rw [task_of_outside ho, task_of_outside ho] at hkey
    obtain hd | ⟨_, _, rfl⟩ := active_of_outside ho hd
    · obtain hd' | ⟨_, _, rfl⟩ := active_of_outside ho hd'
      · exact hs.distinct i j d d' hd hd' hst hst' hkey
      · cases hst'
    · cases hst
  · constructor
    · dsimp only
      rw [ho.window]
      exact hs.remembers.sorted
    · dsimp only
      rw [ho.window, ho.nonce]
      exact hs.remembers.known
    · dsimp only
      rw [ho.window, ho.nonce]
      exact hs.remembers.kept

/-- What a step of a dispatch does to the reply windows. -/
theorem windowAfter_spec (hM : Ledger made h.instances) (hs : h.Sound made) {i : Worker}
    {d : Dispatch} (hd : h.rpcs.active i = some d) (ret : Int32) (body : List UInt8) :
    (∀ m, Sorted (h.rpcs.windowAfter d ret body m)) ∧
      (∀ m x, age (h.rpcs.window m) x ≤ age (h.rpcs.windowAfter d ret body m) x) ∧
      (d.stage = .check →
        1 ≤ age (h.rpcs.windowAfter d ret body d.header.cltNonce) d.header.xid.toUInt32) ∧
      ∀ m, ∀ r ∈ h.rpcs.windowAfter d ret body m, r.cbPresent = true → r ∈ h.rpcs.window m ∨
        d.stage = .handle ∧ m = d.header.cltNonce ∧ r.xid = d.header.xid.toUInt32 ∧
          r.buf = some (ret, body) := by
  have hsorted := hs.remembers.sorted
  have hrep := (hM.lawful _ _ (hs.running i d hd).made).rep
  have hsame : (∀ m, Sorted (h.rpcs.window m)) ∧
      (∀ m x, age (h.rpcs.window m) x ≤ age (h.rpcs.window m) x) ∧
      ∀ m, ∀ r ∈ h.rpcs.window m, r.cbPresent = true → r ∈ h.rpcs.window m :=
    ⟨hsorted, fun _ _ => le_rfl, fun _ _ hr _ => hr⟩
  unfold Rpcs.windowAfter
  cases hst : d.stage with
  | check =>
    obtain ⟨hsorted', hage, hone, hkept⟩ := checkduplicate_window (n := d.header.cltNonce) hsorted
      (le_of_lt hrep)
    exact ⟨hsorted', hage, fun _ => hone, fun m r hr hc => Or.inl (hkept m r hr hc)⟩
  | handle =>
    dsimp only
    split_ifs
    · obtain ⟨hsorted', hage, hkept⟩ := addReply_window hsorted d.header.cltNonce
        d.header.xid.toUInt32 (ret, body) (Int32.ofNat body.length)
      refine ⟨hsorted', hage, (fun hne => by cases hne), fun m r hr hc => ?_⟩
      exact (hkept m r hr hc).imp id fun hnew => ⟨rfl, hnew⟩
    · exact ⟨hsame.1, hsame.2.1, (fun hne => by cases hne), fun m r hr hc => Or.inl hr⟩
  | _ => exact ⟨hsame.1, hsame.2.1, (fun hne => by cases hne), fun m r hr hc => Or.inl hr⟩

end Host.Sound

/-- The key of the dispatch's task is new when its request is. -/
theorem Host.Sound.fresh_of_new {made : UInt32 → List ReqHeader} {h : Host sum} (hs : h.Sound made)
    {d : Dispatch} (hage : age (h.rpcs.window d.header.cltNonce) d.header.xid.toUInt32 = 0) :
    (h.task d).key ∉ h.begun.map Task.key := by
  intro hmem
  obtain ⟨t, ht, hkey⟩ := List.mem_map.mp hmem
  obtain ⟨hsrv, hclt, hxid⟩ : t.srv = h.rpcs.nonce ∧ t.clt = d.header.cltNonce ∧
      t.xid = d.header.xid.toUInt32 := by
    unfold Task.key Host.task at hkey
    simpa using hkey
  have hone := hs.remembers.known t ht hsrv
  rw [hclt, hxid, hage] at hone
  exact absurd hone (by decide)

namespace Host.Sound

variable {made : UInt32 → List ReqHeader} {h h' : Host sum} {i : Worker} {d d' : Dispatch}
  {r : Rpcs} {ret : Int32} {body : List UInt8}

/-- A dispatch that comes to its handler has been checked, and its request was new. -/
theorem begins (hM : Ledger made h.instances) (hs : h.Sound made) (hd : h.rpcs.active i = some d)
    (hg : d.Goes h.rpcs r ret body d') (hst' : d'.stage = .handle) :
    d.stage = .check ∧ h.rpcs.isOldServer d.header = false ∧
      (h.task d).key ∉ h.begun.map Task.key := by
  have hsound := hs.running i d hd
  have hlawful := hM.lawful _ _ hsound.made
  have hnext := hg.stage
  rw [hst'] at hnext
  cases hst : d.stage with
  | header => exact absurd (hg.handed hst hst') hlawful.nonzero
  | check =>
    refine ⟨rfl, hsound.current (by rw [hst]; decide) (by rw [hst]; decide), ?_⟩
    have hjudged := hg.judged hst
    rw [hst'] at hjudged
    unfold Rpcs.verdict at hjudged
    obtain ⟨a, -, -, -, hv⟩ | hv | hv | ⟨hage, -⟩ := verdict_cases hs.remembers.sorted
      d.header.cltNonce d.header.xid.toUInt32 d.header.xidRep.toUInt32
    · rw [hv] at hjudged
      cases hjudged
    · rw [hv] at hjudged
      cases hjudged
    · rw [hv] at hjudged
      cases hjudged
    · exact hs.fresh_of_new hage
  | _ =>
    rw [hst] at hnext
    simp [Stage.next] at hnext

/-- What has been executed for the request of a dispatch is its task. -/
theorem task_of_executed (hM : Ledger made h.instances) (hs : h.Sound made)
    (hd : h.rpcs.active i = some d) {proc : Int32} {v : Int32 × List UInt8}
    (he : (⟨h.rpcs.nonce, d.header.cltNonce, d.header.xid.toUInt32, proc⟩, v) ∈ h.executed) :
    (h.task d, v) ∈ h.executed := by
  obtain ⟨-, hd', hhd', hxid, hproc, -⟩ := hs.books.begun _ (hs.books.executed _ he).1
  have heq := hM.unique _ _ (hs.running i d hd).made _ hhd' (int_of_word hxid.symm)
  have hproc' : proc = d.header.proc := by
    rw [heq]
    exact hproc.symm
  unfold Host.task
  rwa [← hproc']

/-- The reply of a dispatch after a step, when it is no failure, is what a handler has given. -/
theorem replyAfter_executed (hM : Ledger made h.instances) (hs : h.Sound made)
    (hd : h.rpcs.active i = some d) {st : Stage} {v : Int32 × List UInt8}
    (hv : h.rpcs.replyAfter d ret body st = some v) (hret : 0 ≤ v.1) :
    d.stage = .handle ∧ v = (ret, body) ∨ (h.task d, v) ∈ h.executed := by
  have hrep : d.rep = some v → (h.task d, v) ∈ h.executed :=
    fun heq => (hs.running i d hd).rep v heq hret
  unfold Rpcs.replyAfter at hv
  cases hst : d.stage with
  | header =>
    rw [hst] at hv
    dsimp only at hv
    split_ifs at hv
    · rw [← Option.some.inj hv] at hret
      exact absurd hret (by decide)
    · exact Or.inr (hrep hv)
  | check =>
    rw [hst] at hv
    dsimp only at hv
    unfold Rpcs.verdict at hv
    obtain ⟨a, ha, hx, hc, he⟩ | he | he | ⟨-, he⟩ := verdict_cases hs.remembers.sorted
      d.header.cltNonce d.header.xid.toUInt32 d.header.xidRep.toUInt32
    · rw [he] at hv
      obtain ⟨proc, u, hbuf, hu⟩ := hs.remembers.kept _ a ha hc
      have hbuf' : a.buf = some v := hv
      rw [hbuf] at hbuf'
      obtain rfl := Option.some.inj hbuf'
      rw [hx] at hu
      exact Or.inr (hs.task_of_executed hM hd hu)
    · rw [he] at hv
      cases hv
    · rw [he] at hv
      rw [← Option.some.inj hv] at hret
      exact absurd hret (by decide)
    · rw [he] at hv
      cases hv
  | handle =>
    rw [hst] at hv
    exact Or.inl ⟨rfl, (Option.some.inj hv).symm⟩
  | _ =>
    rw [hst] at hv
    exact Or.inr (hrep hv)

end Host.Sound

/-- What is written down at a step of a dispatch, which makes `res` of it. -/
def Host.after (h : Host sum) (r : Rpcs) (d : Dispatch) (res : Option Dispatch) (ret : Int32)
    (body : List UInt8) : Host sum :=
  { h with
    rpcs := r
    begun := if res.map Dispatch.stage = some .handle then h.begun ++ [h.task d] else h.begun
    executed := if d.stage = .handle then h.executed ++ [(h.task d, ret, body)] else h.executed
    received := if d.stage = .check then
        h.received ++ [(d.header.cltNonce, d.header.xidRep.toUInt32)]
      else h.received }

namespace Host.Sound

variable {made : UInt32 → List ReqHeader} {h h' : Host sum} {i : Worker} {d d' : Dispatch}
  {res : Option Dispatch} {r : Rpcs} {ret : Int32} {body : List UInt8}

theorem go_cases (hd : h.rpcs.active i = some d) (hgo : h.go i d ret body = some h') :
    ∃ r res, d.Outcome h.rpcs r i ret body res ∧ h' = h.after r d res ret body ∧
      (d.stage = .handle → d.header.proc = bindProc →
        ret = 0 ∧ body = netBytes h.rpcs.nonce) := by
  unfold Host.go at hgo
  by_cases hbind : d.stage = .handle ∧ d.header.proc = bindProc ∧
      ¬ (ret = 0 ∧ body = netBytes h.rpcs.nonce)
  · rw [if_pos hbind] at hgo
    cases hgo
  · rw [if_neg hbind] at hgo
    obtain ⟨r, hr, rfl⟩ := Option.map_eq_some_iff.mp hgo
    have hdisp : h.rpcs.dispatch i d ret body = some r := by
      unfold Rpcs.step at hr
      dsimp only at hr
      rwa [hd] at hr
    obtain ⟨res, ho⟩ := dispatch_outcome hdisp
    have hres : r.active i = res := by
      rw [ho.active, Function.update_self]
    refine ⟨r, res, ho, ?_, fun hst hp => ?_⟩
    · unfold Host.after
      rw [hres]
    · by_contra hne
      exact hbind ⟨hst, hp, hne⟩

theorem after_begun (h : Host sum) (r : Rpcs) (d : Dispatch) (res : Option Dispatch) (ret : Int32)
    (body : List UInt8) :
    (h.after r d res ret body).begun = h.begun ∧
      (∀ d', res = some d' → d'.stage ≠ .handle) ∨
    (h.after r d res ret body).begun = h.begun ++ [h.task d] ∧
      ∃ d', res = some d' ∧ d'.stage = .handle := by
  unfold Host.after
  dsimp only
  split_ifs with hst
  · exact Or.inr ⟨rfl, Option.map_eq_some_iff.mp hst⟩
  · refine Or.inl ⟨rfl, fun d' hd' hst' => hst ?_⟩
    rw [hd', Option.map_some, hst']

theorem after_executed (h : Host sum) (r : Rpcs) (d : Dispatch) (res : Option Dispatch) (ret : Int32)
    (body : List UInt8) :
    (h.after r d res ret body).executed = h.executed ∧ d.stage ≠ .handle ∨
    (h.after r d res ret body).executed = h.executed ++ [(h.task d, ret, body)] ∧
      d.stage = .handle := by
  unfold Host.after
  dsimp only
  split_ifs with hst
  · exact Or.inr ⟨rfl, hst⟩
  · exact Or.inl ⟨rfl, hst⟩

theorem mem_begun_after {t : Task} (ht : t ∈ h.begun) : t ∈ (h.after r d res ret body).begun := by
  obtain ⟨heq, -⟩ | ⟨heq, -⟩ := after_begun h r d res ret body
  · rwa [heq]
  · rw [heq]
    exact List.mem_append_left _ ht

theorem mem_executed_after {e : Task × Int32 × List UInt8} (he : e ∈ h.executed) :
    e ∈ (h.after r d res ret body).executed := by
  obtain ⟨heq, -⟩ | ⟨heq, -⟩ := after_executed h r d res ret body
  · rwa [heq]
  · rw [heq]
    exact List.mem_append_left _ he

variable (hM : Ledger made h.instances) (hs : h.Sound made) (hd : h.rpcs.active i = some d)
  (ho : d.Outcome h.rpcs r i ret body res)

include hM hs hd ho

theorem books_after
    (hbind : d.stage = .handle → d.header.proc = bindProc →
      ret = 0 ∧ body = netBytes h.rpcs.nonce) :
    (h.after r d res ret body).Books made := by
  have hbooks := hs.books
  have hsound := hs.running i d hd
  constructor
  · intro t ht
    obtain ⟨heq, -⟩ | ⟨heq, d', hd', hst'⟩ := after_begun h r d res ret body
    · rw [heq] at ht
      exact hbooks.begun t ht
    · rw [heq] at ht
      obtain ht | ht := List.mem_append.mp ht
      · exact hbooks.begun t ht
      · rw [List.mem_singleton.mp ht]
        obtain ⟨-, hold, -⟩ := hs.begins hM hd (ho.goes d' hd') hst'
        refine ⟨hs.nonce, d.header, hsound.made, rfl, rfl, ?_⟩
        unfold Rpcs.isOldServer at hold
        rw [Bool.and_eq_false_iff] at hold
        have hnonce : (h.task d).srv = h.rpcs.nonce := rfl
        rw [hnonce]
        exact hold.imp (fun hz => by simpa using hz) (fun hz => by simpa using hz)
  · intro e he
    obtain ⟨heq, -⟩ | ⟨heq, hst⟩ := after_executed h r d res ret body
    · rw [heq] at he
      obtain ⟨hmem, hb⟩ := hbooks.executed e he
      exact ⟨mem_begun_after hmem, hb⟩
    · rw [heq] at he
      obtain he | he := List.mem_append.mp he
      · obtain ⟨hmem, hb⟩ := hbooks.executed e he
        exact ⟨mem_begun_after hmem, hb⟩
      · rw [List.mem_singleton.mp he]
        refine ⟨mem_begun_after (hsound.handling hst).1, fun hp => ?_⟩
        obtain ⟨rfl, rfl⟩ := hbind hst hp
        rfl
  · obtain ⟨heq, -⟩ | ⟨heq, d', hd', hst'⟩ := after_begun h r d res ret body
    · rw [heq]
      exact hbooks.begunOnce
    · rw [heq, List.map_append, List.map_singleton]
      obtain ⟨-, -, hfresh⟩ := hs.begins hM hd (ho.goes d' hd') hst'
      exact List.nodup_append.mpr ⟨hbooks.begunOnce, List.pairwise_singleton _ _, fun a ha b hb hab =>
        hfresh (List.mem_singleton.mp hb ▸ hab ▸ ha)⟩
  · obtain ⟨heq, -⟩ | ⟨heq, hst⟩ := after_executed h r d res ret body
    · rw [heq]
      exact hbooks.executedOnce
    · rw [heq, List.map_append, List.map_singleton]
      obtain ⟨-, hfresh⟩ := hsound.handling hst
      exact List.nodup_append.mpr ⟨hbooks.executedOnce, List.pairwise_singleton _ _, fun a ha b hb hab =>
        hfresh (List.mem_singleton.mp hb ▸ hab ▸ ha)⟩

theorem remembers_after : (h.after r d res ret body).Remembers := by
  obtain ⟨hsorted, hage, hone, hkept⟩ := hs.windowAfter_spec hM hd ret body
  have hwindow : (h.after r d res ret body).rpcs.window = h.rpcs.windowAfter d ret body := ho.window
  have hnonce : (h.after r d res ret body).rpcs.nonce = h.rpcs.nonce := ho.nonce
  constructor
  · rw [hwindow]
    exact hsorted
  · intro t ht hsrv
    rw [hwindow]
    rw [hnonce] at hsrv
    obtain ⟨heq, -⟩ | ⟨heq, d', hd', hst'⟩ := after_begun h r d res ret body
    · rw [heq] at ht
      exact (hs.remembers.known t ht hsrv).trans (hage _ _)
    · rw [heq] at ht
      obtain ht | ht := List.mem_append.mp ht
      · exact (hs.remembers.known t ht hsrv).trans (hage _ _)
      · rw [List.mem_singleton.mp ht]
        exact hone (hs.begins hM hd (ho.goes d' hd') hst').1
  · intro n a ha hc
    rw [hwindow] at ha
    rw [hnonce]
    obtain hold | ⟨hst, rfl, hx, hbuf⟩ := hkept n a ha hc
    · obtain ⟨proc, v, hbuf, hv⟩ := hs.remembers.kept n a hold hc
      exact ⟨proc, v, hbuf, mem_executed_after hv⟩
    · refine ⟨d.header.proc, (ret, body), hbuf, ?_⟩
      obtain ⟨-, hne⟩ | ⟨heq, -⟩ := after_executed h r d res ret body
      · exact absurd hst hne
      · rw [heq, hx]
        exact List.mem_append_right _ List.mem_cons_self

omit hM in
theorem recorded_after : ∀ n c, r.conns.find n = some (some c) → c < r.made ∧ h.owner c = n := by
  intro n c hc
  rw [ho.made]
  obtain heq | ⟨-, c', hc', heq⟩ | ⟨-, heq⟩ := ho.conns
  · rw [heq] at hc
    exact hs.recorded n c hc
  · rw [heq, SortedMap.find_assign] at hc
    split_ifs at hc with hn
    · obtain rfl := Option.some.inj (Option.some.inj hc)
      rw [← hn]
      exact (hs.running i d hd).conn c' hc'
    · exact hs.recorded n c hc
  · rw [heq] at hc
    obtain hsame | ⟨-, hnull⟩ := touch_find (s := h.rpcs) (n := d.header.cltNonce) n
    · rw [hsame] at hc
      exact hs.recorded n c hc
    · rw [hnull] at hc
      cases hc

/-- The dispatch that a step makes. -/
theorem running_after (hd' : res = some d') : d'.Sound made (h.after r d res ret body) := by
  have hg := ho.goes d' hd'
  have hsound := hs.running i d hd
  have hnonce : (h.after r d res ret body).rpcs.nonce = h.rpcs.nonce := ho.nonce
  have hmade : (h.after r d res ret body).rpcs.made = h.rpcs.made := ho.made
  obtain ⟨hheader, harrived, hok⟩ := hg.kept
  have htask : (h.after r d res ret body).task d' = h.task d := by
    unfold Host.task
    rw [hnonce, hheader]
  constructor
  · rw [hok]
    exact hsound.ok
  · rw [hheader]
    exact hsound.made
  · intro c hc
    rw [hheader, hmade]
    by_cases hst : d.stage = .choose
    · obtain ⟨hfound, hkept | ⟨hother, -⟩⟩ := hg.chosen hst
      · rw [hkept] at hc
        exact hsound.conn c hc
      · rw [hother, hfound] at hc
        have hrec := recorded_after hs hd ho _ c (Option.join_eq_some_iff.mp hc)
        rwa [ho.made] at hrec
    · rw [(hg.same hst).1] at hc
      exact hsound.conn c hc
  · intro h1 h2
    unfold Rpcs.isOldServer
    rw [hnonce, hheader]
    by_cases hst : d.stage = .header
    · have hold := (hg.old hst).2.not.mp h2
      rwa [Bool.not_eq_true] at hold
    · apply hsound.current hst
      intro hst'
      have hnext := hg.stage
      rw [hst'] at hnext
      cases hnext
  · intro v hv hret
    rw [htask]
    rw [hg.rep] at hv
    obtain ⟨hst, rfl⟩ | hexec := hs.replyAfter_executed hM hd hv hret
    · obtain ⟨-, hne⟩ | ⟨heq, -⟩ := after_executed h r d res ret body
      · exact absurd hst hne
      · rw [heq]
        exact List.mem_append_right _ List.mem_cons_self
    · exact mem_executed_after hexec
  · intro hst'
    rw [htask]
    obtain ⟨hst, -, hfresh⟩ := hs.begins hM hd hg hst'
    constructor
    · obtain ⟨-, hne⟩ | ⟨heq, -⟩ := after_begun h r d res ret body
      · exact absurd hst' (hne d' hd')
      · rw [heq]
        exact List.mem_append_right _ List.mem_cons_self
    · obtain ⟨heq, -⟩ | ⟨-, hst''⟩ := after_executed h r d res ret body
      · rw [heq]
        intro hmem
        obtain ⟨e, he, hkey⟩ := List.mem_map.mp hmem
        apply hfresh
        rw [← hkey]
        exact List.mem_map_of_mem (hs.books.executed e he).1
      · rw [hst] at hst''
        cases hst''

omit hM in
/-- A dispatch of another worker. -/
theorem others_after {j : Worker} {e : Dispatch} (hj : j ≠ i) (he : h.rpcs.active j = some e) :
    e.Sound made (h.after r d res ret body) := by
  have hsound := hs.running j e he
  have hnonce : (h.after r d res ret body).rpcs.nonce = h.rpcs.nonce := ho.nonce
  have hmade : (h.after r d res ret body).rpcs.made = h.rpcs.made := ho.made
  have htask : (h.after r d res ret body).task e = h.task e := by
    unfold Host.task
    rw [hnonce]
  refine ⟨hsound.ok, hsound.made, fun c hc => ?_, fun h1 h2 => ?_, fun v hv hret => ?_,
    fun hst => ?_⟩
  · rw [hmade]
    exact hsound.conn c hc
  · rw [← hsound.current h1 h2]
    unfold Rpcs.isOldServer
    rw [hnonce]
  · rw [htask]
    exact mem_executed_after (hsound.rep v hv hret)
  · rw [htask]
    obtain ⟨hbegun, hnot⟩ := hsound.handling hst
    refine ⟨mem_begun_after hbegun, ?_⟩
    obtain ⟨heq, -⟩ | ⟨heq, hst'⟩ := after_executed h r d res ret body
    · rwa [heq]
    · rw [heq, List.map_append, List.mem_append, not_or]
      refine ⟨hnot, fun hmem => ?_⟩
      -- only one worker is at the handler for a task
      exact hj (hs.distinct j i e d he hd hst hst' (List.mem_singleton.mp hmem))

theorem after_sound
    (hbind : d.stage = .handle → d.header.proc = bindProc →
      ret = 0 ∧ body = netBytes h.rpcs.nonce) :
    (h.after r d res ret body).Sound made := by
  have hnonce : (h.after r d res ret body).rpcs.nonce = h.rpcs.nonce := ho.nonce
  have hmade : (h.after r d res ret body).rpcs.made = h.rpcs.made := ho.made
  have hactive : (h.after r d res ret body).rpcs.active = Function.update h.rpcs.active i res :=
    ho.active
  have hqueue : (h.after r d res ret body).rpcs.queue = h.rpcs.queue := ho.queue
  -- the dispatches of the new state
  have hcases : ∀ {j e}, (h.after r d res ret body).rpcs.active j = some e →
      (j = i ∧ res = some e) ∨ (j ≠ i ∧ h.rpcs.active j = some e) := by
    intro j e he
    rw [hactive] at he
    by_cases hj : j = i
    · rw [hj, Function.update_self] at he
      exact Or.inl ⟨hj, he⟩
    · rw [Function.update_of_ne hj] at he
      exact Or.inr ⟨hj, he⟩
  have hrunning : ∀ j e, (h.after r d res ret body).rpcs.active j = some e →
      e.Sound made (h.after r d res ret body) := by
    intro j e he
    obtain ⟨-, hres⟩ | ⟨hj, he⟩ := hcases he
    · exact running_after hM hs hd ho hres
    · exact others_after hs hd ho hj he
  have htask : ∀ e : Dispatch, (h.after r d res ret body).task e = h.task e := by
    intro e
    unfold Host.task
    rw [hnonce]
  have hrecorded := recorded_after hs hd ho
  refine ⟨ho.sum.trans hs.format, ?_, hs.nonzero, fun p hp => ?_, fun q hq => ?_,
    hrecorded, hrunning, ?_, remembers_after hM hs hd ho, books_after hM hs hd ho hbind⟩
  · rw [hnonce]
    exact hs.nonce
  · rw [hmade]
    exact hs.arriving p hp
  · rw [hqueue] at hq
    rw [hmade]
    exact hs.queued q hq
  · intro j k e e' he he' hst hst' hkey
    rw [htask, htask] at hkey
    -- a dispatch that comes to its handler has a task that no other has begun
    have hfresh : ∀ {k e e'}, res = some e → e.stage = .handle → h.rpcs.active k = some e' →
        e'.stage = .handle → (h.task e).key ≠ (h.task e').key := by
      intro k e e' hres hst hk hst' hkey
      have hg := ho.goes e hres
      obtain ⟨-, -, hnew⟩ := hs.begins hM hd hg hst
      have hsame : h.task e = h.task d := by
        unfold Host.task
        rw [hg.kept.1]
      apply hnew
      rw [← hsame, hkey]
      exact List.mem_map_of_mem ((hs.running k e' hk).handling hst').1
    obtain ⟨hj, hres⟩ | ⟨-, he⟩ := hcases he
    · obtain ⟨hk, -⟩ | ⟨-, he'⟩ := hcases he'
      · rw [hj, hk]
      · exact absurd hkey (hfresh hres hst he' hst')
    · obtain ⟨-, hres⟩ | ⟨-, he'⟩ := hcases he'
      · exact absurd hkey.symm (hfresh hres hst' he hst)
      · exact hs.distinct j k e e' he he' hst hst' hkey

omit hM ho in
/-- What a dispatch sends goes to the client of its request, with what was executed for it. -/
theorem answers_sound : ∀ q ∈ h.answers d, q.Sound (made q.clt) (h.after r d res ret body).executed := by
  intro q hq
  have hsound := hs.running i d hd
  unfold Host.answers at hq
  split_ifs at hq
  · cases hc : d.conn with
    | none =>
      rw [hc] at hq
      cases hq
    | some c =>
      cases hv : d.rep with
      | none =>
        rw [hc, hv] at hq
        cases hq
      | some v =>
        rw [hc, hv] at hq
        rw [List.mem_singleton.mp hq]
        have hown := (hsound.conn c hc).2
        refine ⟨d.header, ?_, rfl, fun hret => mem_executed_after ?_⟩
        · dsimp only
          rw [hown]
          exact hsound.made
        · dsimp only
          rw [hown]
          exact hsound.rep v hv hret
  · cases hq

end Host.Sound

end Yfs.Rpc
