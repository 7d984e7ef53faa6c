import Yfs.Rpc.Carries
import Yfs.Rpc.Remote

/-! Clients whose calls have types, and a server whose workers run the methods that are registered,
one command at a time, over a store that they share. -/
namespace Yfs.Rpc
open Effect

variable {M C S : Type} {R : C → Type} {sum : Bool}

/-- The methods with their numbers, what a command of theirs does, and the store that a new instance
of the server has. `reg1` does not take a number twice. -/
structure Service (M C : Type) (R : C → Type) (S : Type) where
  procs : List (Int32 × Proc M C R)
  nodup : (bindProc :: procs.map Prod.fst).Nodup
  exec : (c : C) → S → R c × S
  store : S

/-- A call of a method. -/
structure Op (v : Service M C R S) where
  k : Fin v.procs.length
  args : Vals (v.procs.get k).2.args

namespace Op

variable {v : Service M C R S}

def num (o : Op v) : Int32 := (v.procs.get o.k).1

def proc (o : Op v) : Proc M C R := (v.procs.get o.k).2

def prog (o : Op v) (mem : M) : Program C R (Int32 × List UInt8) := o.proc.prog mem o.args

end Op

/-- `rpcs::rpcbind` -/
def rpcbind (nonce : UInt32) : Proc M C R where
  args := [.arg .int]
  res := .arg .int
  meth _ _ := .pure (0, nonce.toInt32)

/-- What `rpcc::bind` calls it with. -/
def bindArgs : Vals [.arg .int] := ((0 : Int32), ())

namespace Service

variable (v : Service M C R S)

/-- The numbers in `procs_`. -/
def numbers : List Int32 := bindProc :: v.procs.map Prod.fst

/-- `procs_[proc]` -/
def handler (nonce : UInt32) (num : Int32) : Option (Proc M C R) :=
  if num = bindProc then some (rpcbind nonce)
  else (v.procs.find? fun p => p.1 = num).map Prod.snd

variable {v}

/-- The number of a call; one without a method is that of `bind`. -/
def num (o : Option (Op v)) : Int32 := o.elim bindProc Op.num

/-- Its arguments on the wire. -/
def enc (o : Option (Op v)) : List UInt8 := o.elim bindArgs.enc fun o => o.args.enc

/-- The marshalled arguments. -/
def args (sum : Bool) (heap : ℕ → ℕ → UInt8) (o : Option (Op v))
    (h : rpcHeaderSz sum + (enc o).length < 2 ^ 31) : Args sum :=
  match o, h with
  | none, h => bindArgs.args sum heap h
  | some o, h => o.args.args sum heap h

end Service

/-- A call that was made, with its header. `before` executions were complete then. -/
structure Asked (v : Service M C R S) where
  header : ReqHeader
  op : Option (Op v)
  before : ℕ

/-- `reqs` is what each worker has left of its request, `work` what its handler has still to do, and
`inside` tells which handlers have issued a command. -/
structure Site (v : Service M C R S) (sum : Bool) where
  sys : System sum
  reqs : Worker → Unmarshall
  work : Worker → Program C R (Int32 × List UInt8)
  inside : Worker → Bool
  store : S
  asked : List (Asked v)

/-- A worker goes on by one step of `dispatch` or one command of its handler, with `heap` and `mem`
in memory that nobody has written. -/
inductive SiteEvent (v : Service M C R S) (sum : Bool) where
  | sys (e : SystemEvent sum)
  | call (n : UInt32) (op : Option (Op v)) (heap : ℕ → ℕ → UInt8)
    (small : rpcHeaderSz sum + (Service.enc op).length < 2 ^ 31)
  | go (i : Worker) (heap : ℕ → ℕ → UInt8) (mem : M)
  | restart (nonce : UInt32)

/-- The events that have no form of their own here. -/
def SystemEvent.plain : SystemEvent sum → Bool
  | .call .. | .host (.go ..) | .host (.restart ..) => false
  | _ => true

namespace Site

variable {v : Service M C R S}

def init (v : Service M C R S) (nonce : UInt32) (lossytest : Bool) : Site v sum where
  sys := .init nonce v.numbers lossytest
  reqs _ := .init (fun _ => 0) 0
  work _ := .pure (0, [])
  inside _ := false
  store := v.store
  asked := []

/-- What is left of the requests when a worker takes a job. -/
def taken (s : Site v sum) : SystemEvent sum → Worker → Unmarshall
  | .host (.server (.take i)) =>
    match s.sys.host.rpcs.queue with
    | j :: _ => Function.update s.reqs i
        (Unmarshall.unpackReqHeader s.sys.host.rpcs.sum (Unmarshall.init j.buf j.sz)).2
    | [] => s.reqs
  | _ => s.reqs

/-- The calls that have been made once the client has packed these headers. -/
def ask (s : Site v sum) (op : Option (Op v)) (made : List ReqHeader) : List (Asked v) :=
  s.asked ++ made.map fun hd => ⟨hd, op, s.sys.host.executed.length⟩

/-- `f->fn(req, rep)` when the dispatch of a worker comes to it. -/
def enter (s : Site v sum) (t : System sum) (i : Worker) (d : Dispatch) (heap : ℕ → ℕ → UInt8)
    (mem : M) : Worker → Program C R (Int32 × List UInt8) :=
  if (t.host.rpcs.active i).map Dispatch.stage = some .handle then
    match v.handler s.sys.host.rpcs.nonce d.header.proc with
    | some p => Function.update s.work i (p.handle sum heap mem (s.reqs i))
    | none => s.work
  else s.work

/-- A step of the handler: a command, or its end. -/
def handle (s : Site v sum) (i : Worker) : Option (Site v sum) :=
  match s.work i with
  | .call c k => some { s with
      work := Function.update s.work i (k (v.exec c s.store).1)
      inside := Function.update s.inside i true
      store := (v.exec c s.store).2 }
  | .pure b => (s.sys.step (.host (.go i b.1 b.2))).map fun t =>
      { s with sys := t, inside := Function.update s.inside i false }

def step (s : Site v sum) : SiteEvent v sum → Option (Site v sum)
  | .sys e =>
    if e.plain then (s.sys.step e).map fun t => { s with sys := t, reqs := s.taken e } else none
  | .call n op heap small =>
    (s.sys.step (.call n (Service.num op) (Service.args sum heap op small))).map fun t =>
      { s with sys := t, asked := s.ask op ((t.made n).drop (s.sys.made n).length) }
  | .go i heap mem => (s.sys.host.rpcs.active i).bind fun d =>
    if d.stage = .handle then s.handle i
    else (s.sys.step (.host (.go i 0 []))).map fun t =>
      { s with sys := t, work := s.enter t i d heap mem }
  | .restart nonce => (s.sys.step (.host (.restart nonce v.numbers))).map fun t =>
    { s with sys := t, inside := fun _ => false, store := v.store }

/-- As for the events of the system. -/
def allowed (s : Site v sum) : SiteEvent v sum → Bool
  | .sys e => s.sys.allowed e
  | .call n op heap small => s.sys.allowed (.call n (Service.num op) (Service.args sum heap op small))
  | .go .. => true
  | .restart nonce => s.sys.allowed (.host (.restart nonce v.numbers))

/-- What an event does. -/
inductive Turn (s : Site v sum) : SiteEvent v sum → Site v sum → Prop where
  | plain {e : SystemEvent sum} {t : System sum} (he : e.plain = true) (hs : s.sys.step e = some t) :
    Turn s (.sys e) { s with sys := t, reqs := s.taken e }
  | call {n : UInt32} {op : Option (Op v)} {heap : ℕ → ℕ → UInt8}
    {small : rpcHeaderSz sum + (Service.enc op).length < 2 ^ 31} {t : System sum}
    (hs : s.sys.step (.call n (Service.num op) (Service.args sum heap op small)) = some t) :
    Turn s (.call n op heap small)
      { s with sys := t, asked := s.ask op ((t.made n).drop (s.sys.made n).length) }
  | command {i : Worker} {heap : ℕ → ℕ → UInt8} {mem : M} {d : Dispatch} {c : C}
    {k : R c → Program C R (Int32 × List UInt8)} (hd : s.sys.host.rpcs.active i = some d)
    (hst : d.stage = .handle) (hw : s.work i = .call c k) :
    Turn s (.go i heap mem) { s with
      work := Function.update s.work i (k (v.exec c s.store).1)
      inside := Function.update s.inside i true
      store := (v.exec c s.store).2 }
  | finish {i : Worker} {heap : ℕ → ℕ → UInt8} {mem : M} {d : Dispatch} {b : Int32 × List UInt8}
    {t : System sum} (hd : s.sys.host.rpcs.active i = some d) (hst : d.stage = .handle)
    (hw : s.work i = .pure b) (hs : s.sys.step (.host (.go i b.1 b.2)) = some t) :
    Turn s (.go i heap mem) { s with sys := t, inside := Function.update s.inside i false }
  | forward {i : Worker} {heap : ℕ → ℕ → UInt8} {mem : M} {d : Dispatch} {t : System sum}
    (hd : s.sys.host.rpcs.active i = some d) (hst : d.stage ≠ .handle)
    (hs : s.sys.step (.host (.go i 0 [])) = some t) :
    Turn s (.go i heap mem) { s with sys := t, work := s.enter t i d heap mem }
  | restart {nonce : UInt32} {t : System sum}
    (hs : s.sys.step (.host (.restart nonce v.numbers)) = some t) :
    Turn s (.restart nonce) { s with sys := t, inside := fun _ => false, store := v.store }

theorem turn_of_step {s s' : Site v sum} {e : SiteEvent v sum} (hs : s.step e = some s') :
    s.Turn e s' := by
  cases e with
  | sys e =>
    unfold step at hs
    dsimp only at hs
    split_ifs at hs with he
    obtain ⟨t, ht, rfl⟩ := Option.map_eq_some_iff.mp hs
    exact .plain he ht
  | call n op heap small =>
    obtain ⟨t, ht, rfl⟩ := Option.map_eq_some_iff.mp hs
    exact .call ht
  | go i heap mem =>
    obtain ⟨d, hd, hs⟩ := Option.bind_eq_some_iff.mp hs
    by_cases hst : d.stage = .handle
    · rw [if_pos hst] at hs
      unfold handle at hs
      cases hw : s.work i with
      | call c k =>
        rw [hw] at hs
        obtain rfl := Option.some.inj hs
        exact .command hd hst hw
      | pure b =>
        rw [hw] at hs
        obtain ⟨t, ht, rfl⟩ := Option.map_eq_some_iff.mp hs
        exact .finish hd hst hw ht
    · rw [if_neg hst] at hs
      obtain ⟨t, ht, rfl⟩ := Option.map_eq_some_iff.mp hs
      exact .forward hd hst ht
  | restart nonce =>
    unfold step at hs
    obtain ⟨t, ht, rfl⟩ := Option.map_eq_some_iff.mp hs
    exact .restart ht

/-- Every event is one of the system below, or a command that the system does not see. -/
theorem Turn.sys_step {s s' : Site v sum} {e : SiteEvent v sum} (h : s.Turn e s')
    (ha : s.allowed e = true) :
    s'.sys = s.sys ∨ ∃ e', s.sys.allowed e' = true ∧ s.sys.step e' = some s'.sys := by
  cases h with
  | plain he hs => exact Or.inr ⟨_, ha, hs⟩
  | @call n op heap small t hs =>
    exact Or.inr ⟨.call n (Service.num op) (Service.args sum heap op small), ha, hs⟩
  | command => exact Or.inl rfl
  | finish hd hst hw hs => exact Or.inr ⟨_, rfl, hs⟩
  | forward hd hst hs => exact Or.inr ⟨_, rfl, hs⟩
  | @restart nonce t hs => exact Or.inr ⟨.host (.restart nonce v.numbers), ha, hs⟩

theorem Turn.sys_sound {s s' : Site v sum} {e : SiteEvent v sum} (h : s.Turn e s')
    (ha : s.allowed e = true) (hs : s.sys.Sound) : s'.sys.Sound := by
  obtain heq | ⟨e', he', hstep⟩ := h.sys_step ha
  · rwa [heq]
  · exact hs.step he' hstep

end Site

end Yfs.Rpc
