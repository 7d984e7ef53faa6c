import Yfs.Store.Noninterference

/-! Several requests at once, on inums of their own. -/
namespace Yfs.Store
open Effect

/-- What a request makes of the file of its inum. -/
def Request.effect : Request → File → Option File
  | .put _ buf, f => some ⟨f.type, buf⟩
  | .remove _, _ => none
  | _, f => some f

/-- The blocks that a request has to allocate, counted on disk. -/
def Request.cost (s : BlockManager) : Request → ℕ
  | .put id buf => need (s.blocks (inumOf id)) (blocksOf buf.length)
  | _ => 0

/-- The request of a batch that is about a given inum. -/
def callOn (calls : List Call) (n : ℕ) : Option Call :=
  calls.find? fun c => c.request.inum = some n

/-- The threads that serve a batch, each named by the inum that it is about. -/
def pool (calls : List Call) (n : ℕ) : Prog Answer :=
  match callOn calls n with
  | some c => c.handler
  | none => .pure .ok

/-- Requests on pairwise distinct live inums, with enough free blocks for all of them. -/
structure Batch (calls : List Call) (s : BlockManager) : Prop where
  live : ∀ c ∈ calls, ∃ n, c.request.inum = some n ∧ s.Live n
  distinct : (calls.map fun c => c.request.inum).Nodup
  fits : ∀ c ∈ calls, c.request.Fits
  funded : (calls.map fun c => c.request.cost s).sum ≤ (freeBits s.blockBitmap).card

/-- The files once every request of a batch is done. -/
def Files.after (calls : List Call) (m : Files) : Files := fun n =>
  match callOn calls n with
  | some c => (m n).bind c.request.effect
  | none => m n

section Calls

variable {calls : List Call} {c : Call} {n k : ℕ} {m : Files}

theorem callOn_cons_self (hc : c.request.inum = some n) : callOn (c :: calls) n = some c := by
  rw [callOn, List.find?_cons_of_pos]
  exact decide_eq_true hc

theorem callOn_cons_of_ne (hc : c.request.inum = some n) (hk : k ≠ n) :
    callOn (c :: calls) k = callOn calls k := by
  rw [callOn, List.find?_cons_of_neg, callOn]
  rw [hc]
  simpa using hk.symm

theorem callOn_eq_none (h : some n ∉ calls.map fun c => c.request.inum) :
    callOn calls n = none := by
  apply List.find?_eq_none.mpr
  intro c hc hn
  exact h (List.mem_map.mpr ⟨c, hc, of_decide_eq_true hn⟩)

theorem mem_of_callOn (h : callOn calls n = some c) :
    c ∈ calls ∧ c.request.inum = some n := by
  have hn := List.find?_some (p := fun c : Call => decide (c.request.inum = some n)) h
  exact ⟨List.mem_of_find?_eq_some h, of_decide_eq_true hn⟩

theorem after_cons {f : File} (hc : c.request.inum = some n)
    (hd : some n ∉ calls.map fun c => c.request.inum) (hm : m n = some f) :
    Files.after (c :: calls) m =
      Files.after calls (Function.update m n (c.request.effect f)) := by
  funext k
  unfold Files.after
  obtain rfl | hk := eq_or_ne k n
  · rw [callOn_cons_self hc, callOn_eq_none hd, hm, Function.update_self]
    rfl
  · rw [callOn_cons_of_ne hc hk, Function.update_of_ne hk]

theorem demand_update {r : Request} {o : Option File} (hr : r.inum ≠ some n) :
    r.demand (Function.update m n o) = r.demand m := by
  cases r with
  | put id buf =>
    have hne : inumOf id ≠ n := fun he => hr (congrArg some he)
    rw [Request.demand, Request.demand, Function.update_of_ne hne]
  | _ => rfl

end Calls

section Requests

variable {ls : ℕ → Share} {m : Files} {s : BlockManager} {n : ℕ} {f : File} {c : Call}
  {calls : List Call}

/-- The specification of a request on an inum with a file. -/
theorem handler_wp {l : Share} (hc : c.request.inum = some n) (hn : n < inodeNum)
    (hm : m n = some f) (hst : Stores l f.type f.bytes) (hfits : c.request.Fits)
    (hcr : c.request.demand m ≤ l.credits) :
    c.handler.wp (Rule n) (fun _ l' => l'.Holds (c.request.effect f)) l := by
  obtain ⟨r, junk⟩ := c
  cases r with
  | create type => cases hc
  | put id buf =>
    obtain rfl : inumOf id = n := Option.some.inj hc
    obtain ⟨hcur, hsize⟩ := int_of_length (Nat.le_of_lt hfits)
    have hneed : need (blocksOf f.bytes.length) (blocksOf buf.length) ≤ l.credits := by
      simpa only [Request.demand, hm] using hcr
    refine Program.wp_seq _ (writeFile_wp hn hst hcur hsize (Nat.le_of_lt hfits)
      (fun k hk => cstr_getD junk hk) hneed) ?_
    intro _ l' hw
    exact (hw hfits).stores
  | get id =>
    obtain rfl : inumOf id = n := Option.some.inj hc
    refine Program.wp_seq _ (readFile_wp junk hn hst) ?_
    rintro (_ | x) l' ⟨-, rfl⟩
    · exact hst
    · dsimp only
      split_ifs <;> exact hst
  | getattr id =>
    obtain rfl : inumOf id = n := Option.some.inj hc
    refine Program.wp_seq _ (getattr_wp junk hn hst.idle) ?_
    rintro _ l' ⟨-, rfl⟩
    exact hst
  | remove id =>
    obtain rfl : inumOf id = n := Option.some.inj hc
    refine Program.wp_seq _ (removeFile_wp junk hn hst) ?_
    intro _ l' hr
    refine ⟨hr.idle, ?_⟩
    rw [hr.cell]
    rfl

theorem Represents.cost_eq (h : Represents ls m s) (hc : c.request.inum = some n)
    (hm : m n = some f) : c.request.cost s = c.request.demand m := by
  obtain ⟨r, junk⟩ := c
  cases r with
  | put id buf =>
    obtain rfl : inumOf id = n := Option.some.inj hc
    simp only [Request.cost, Request.demand, hm, h.blocks_eq hm]
  | _ => rfl

/-- A request that is served alone, and the clear bits that it leaves. -/
theorem Represents.serve_effect (h : Represents ls m s) (hc : c.request.inum = some n)
    (hm : m n = some f) (hfits : c.request.Fits) {spare : ℕ}
    (hfree : c.request.demand m + spare ≤ (freeBits s.blockBitmap).card) :
    (∃ ls', Represents ls' (Function.update m n (c.request.effect f)) (Store.serve c s).2) ∧
      spare ≤ (freeBits (Store.serve c s).2.blockBitmap).card := by
  have hn := h.lt hm
  have hst := (h.stores hm).setCredits (c.request.demand m)
  have hwp := handler_wp hc hn hm hst hfits le_rfl
  obtain ⟨l', hl, hv⟩ := h.run hwp (h.valid.always h.idle hn hwp (by omega))
  exact ⟨⟨_, h.set hv hl hn⟩, h.valid.reserve h.idle hn hwp hfree⟩

/-- The requests served one after the other. -/
theorem Represents.serveAll (h : Represents ls m s)
    (hlive : ∀ c ∈ calls, ∃ n, c.request.inum = some n ∧ m n ≠ none)
    (hd : (calls.map fun c => c.request.inum).Nodup) (hfits : ∀ c ∈ calls, c.request.Fits)
    (hfree : (calls.map fun c => c.request.demand m).sum ≤ (freeBits s.blockBitmap).card) :
    ∃ ls', Represents ls' (Files.after calls m) (Store.serveAll calls s) := by
  induction calls generalizing ls m s with
  | nil => exact ⟨ls, h⟩
  | cons c calls ih =>
    obtain ⟨n, hc, hn⟩ := hlive c List.mem_cons_self
    obtain ⟨f, hm⟩ := Option.ne_none_iff_exists'.mp hn
    rw [List.map_cons, List.nodup_cons, hc] at hd
    rw [List.map_cons, List.sum_cons] at hfree
    obtain ⟨⟨ls', h'⟩, hfree'⟩ := h.serve_effect hc hm (hfits c List.mem_cons_self) hfree
    have hother : ∀ c' ∈ calls, c'.request.inum ≠ some n := by
      intro c' hc' he
      exact hd.1 (List.mem_map.mpr ⟨c', hc', he⟩)
    rw [serveAll_cons, after_cons hc hd.1 hm]
    refine ih h' ?_ hd.2 (fun c' hc' => hfits c' (List.mem_cons_of_mem _ hc')) ?_
    · intro c' hc'
      obtain ⟨k, hk, hmk⟩ := hlive c' (List.mem_cons_of_mem _ hc')
      refine ⟨k, hk, ?_⟩
      rw [Function.update_of_ne]
      · exact hmk
      · rintro rfl
        exact hother c' hc' hk
    · rw [List.map_congr_left fun c' hc' => demand_update (hother c' hc')]
      exact hfree'

end Requests

section Concurrent

variable {ls : ℕ → Share} {m : Files} {s : BlockManager} {calls : List Call}

/-- The credits that a thread of a batch starts with. -/
def creditOf (calls : List Call) (m : Files) (n : ℕ) : ℕ :=
  match callOn calls n with
  | some c => c.request.demand m
  | none => 0

theorem sum_creditOf_le (hlive : ∀ c ∈ calls, ∃ n, c.request.inum = some n)
    (hd : (calls.map fun c => c.request.inum).Nodup) :
    ∑ n ∈ Finset.range inodeNum, creditOf calls m n ≤
      (calls.map fun c => c.request.demand m).sum := by
  induction calls with
  | nil =>
    have hzero : ∀ n ∈ Finset.range inodeNum, creditOf [] m n = 0 := fun _ _ => rfl
    rw [Finset.sum_eq_zero hzero]
    exact Nat.zero_le _
  | cons c calls ih =>
    obtain ⟨n, hc⟩ := hlive c List.mem_cons_self
    rw [List.map_cons, List.nodup_cons, hc] at hd
    have hsplit : ∀ k, creditOf (c :: calls) m k =
        (if k = n then c.request.demand m else 0) + creditOf calls m k := by
      intro k
      unfold creditOf
      split_ifs with hk
      · rw [hk, callOn_cons_self hc, callOn_eq_none hd.1]
        rfl
      · rw [callOn_cons_of_ne hc hk, Nat.zero_add]
    have hrest := ih (fun c' hc' => hlive c' (List.mem_cons_of_mem _ hc')) hd.2
    rw [List.map_cons, List.sum_cons, Finset.sum_congr rfl fun k _ => hsplit k,
      Finset.sum_add_distrib, Finset.sum_ite_eq']
    split_ifs <;> omega

/-- Funded threads find a clear bit whenever they look for one. -/
theorem funded_sound_always : Sound exec Rule Funded Share.Idle Compat fun _ _ => True :=
  ⟨fun hf hr hothers _ => funded_sound.step hf hr hothers (hf.findsClear hr)⟩

theorem Batch.files (hb : Batch calls s) (h : Represents ls m s) :
    ∀ c ∈ calls, ∃ n, c.request.inum = some n ∧ m n ≠ none := by
  intro c hc
  obtain ⟨n, hn, hl⟩ := hb.live c hc
  exact ⟨n, hn, h.live_iff.mp hl⟩

theorem Batch.demand_le (hb : Batch calls s) (h : Represents ls m s) :
    (calls.map fun c => c.request.demand m).sum ≤ (freeBits s.blockBitmap).card := by
  rw [← List.map_congr_left fun c hc => ?_]
  · exact hb.funded
  · obtain ⟨n, hn, hm⟩ := hb.files h c hc
    obtain ⟨f, hf⟩ := Option.ne_none_iff_exists'.mp hm
    exact h.cost_eq hn hf

/-- What the threads of a batch leave when all have finished. -/
theorem Represents.interleave (h : Represents ls m s) (hb : Batch calls s) {turns : List ℕ}
    (hturns : Admits exec Compat (fun _ _ => True) turns (pool calls, s))
    (hfin : Finished (Effect.interleave exec turns (pool calls, s)).1) :
    ∃ ls', Represents ls' (Files.after calls m)
      (Effect.interleave exec turns (pool calls, s)).2 := by
  have hsum : ∑ n ∈ Finset.range inodeNum, creditOf calls m n ≤ (freeBits s.blockBitmap).card :=
    (sum_creditOf_le (fun c hc => (hb.live c hc).imp fun _ h => h.1) hb.distinct).trans
      (hb.demand_le h)
  have hf := h.valid.fund h.idle hsum
  have hwp : ∀ n, (pool calls n).wp (Rule n) (fun _ l' => l'.Holds (Files.after calls m n))
      ((ls n).setCredits (creditOf calls m n)) := by
    intro n
    unfold pool Files.after creditOf
    cases hcall : callOn calls n with
    | none => exact (h.holds n).setCredits 0
    | some c =>
      obtain ⟨hc, hn⟩ := mem_of_callOn hcall
      obtain ⟨k, hk, hm⟩ := hb.files h c hc
      obtain rfl : n = k := Option.some.inj (hn.symm.trans hk)
      obtain ⟨f, hf⟩ := Option.ne_none_iff_exists'.mp hm
      dsimp only
      rw [hf]
      exact handler_wp hn (h.lt hf) hf ((h.stores hf).setCredits _) (hb.fits c hc) le_rfl
  obtain ⟨ls', hwp', hf'⟩ := funded_sound_always.after_turns
    (fun n _ l (hl : l.Holds (Files.after calls m n)) => hl.idle) hwp hf hturns
  refine ⟨ls', hf'.valid, fun n => ?_, fun n hn => ?_⟩
  · have hdone := hfin n
    have hw := hwp' n
    cases hp : (Effect.interleave exec turns (pool calls, s)).1 n with
    | pure a =>
      rw [hp] at hw
      exact hw
    | call c k =>
      rw [hp] at hdone
      cases hdone
  · apply h.bound n
    intro hm
    apply hn
    unfold Files.after
    rw [hm]
    split <;> rfl

end Concurrent

section Clash

variable {ls : ℕ → Share} {m : Files} {s : BlockManager}

end Clash

end Yfs.Store
