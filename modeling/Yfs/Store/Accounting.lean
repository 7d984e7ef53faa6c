import Yfs.Store.Refinement

/-! Which blocks are marked, and how a put that shrinks a file leaks some of them. -/
namespace Yfs.Store
open Effect

/-- The marked bits are the reserved blocks and the blocks of live inodes. -/
def BlockManager.Exact (s : BlockManager) : Prop :=
  ∀ b : BlockId, s.blockBitmap.test b = true ↔ b.toNat < firstData ∨ ∃ n, s.Owns n b

/-- Nothing is held outside the places in use. -/
def Tight (ls : ℕ → Share) (m : Files) : Prop :=
  ∀ n b, (ls n).held b ≠ none →
    ∃ f, m n = some f ∧ ∃ p : Pos, p.InUse (blocksOf f.bytes.length) ∧ (ls n).slotAt p = b

/-- A put does not give a live file fewer blocks than it has. -/
def Call.NoShrink (c : Call) (s : BlockManager) : Prop :=
  ∀ id buf, c.request = .put id buf → s.Live (inumOf id) →
    s.blocks (inumOf id) ≤ blocksOf buf.length

section Step

variable {ls ls' : ℕ → Share} {m m' : Files} {s : BlockManager} {r : Request} {a : Answer}

theorem Represents.exact (h : Represents ls m s) (ht : Tight ls m) : s.Exact := by
  intro b
  constructor
  · intro hb
    rcases h.valid.marked b hb with hlt | ⟨n, hn⟩
    · exact Or.inl hlt
    · exact Or.inr ⟨n, h.owns_iff.mpr (ht n b hn)⟩
  · intro hb
    rcases hb with hlt | ⟨n, hn⟩
    · exact h.valid.reserved b hlt
    · obtain ⟨f, hf, p, hp, rfl⟩ := h.owns_iff.mp hn
      obtain ⟨c, hc⟩ := Option.ne_none_iff_exists'.mp ((h.stores hf).inUse p hp)
      exact (h.valid.held n _ c hc).2.1

/-- Only the share of one inum changes, and that stays tight. -/
theorem Tight.update (ht : Tight ls m) {i : ℕ} {l' : Share} {o : Option File}
    (h : ∀ b, l'.held b ≠ none →
      ∃ f, o = some f ∧ ∃ p : Pos, p.InUse (blocksOf f.bytes.length) ∧ l'.slotAt p = b) :
    Tight (Function.update ls i l') (Function.update m i o) := by
  intro n b hb
  obtain rfl | hn := eq_or_ne n i
  · rw [Function.update_self] at hb ⊢
    rw [Function.update_self]
    exact h b hb
  · rw [Function.update_of_ne hn] at hb ⊢
    rw [Function.update_of_ne hn]
    exact ht n b hb

theorem Pos.InUse.mono {p : Pos} {n k : ℕ} (h : p.InUse n) (hnk : n ≤ k) : p.InUse k := by
  cases p with
  | data j => exact lt_of_lt_of_le h hnk
  | indirect => exact lt_of_lt_of_le h hnk

theorem Served.tight (hs : Served ls m r a ls' m') (ht : Tight ls m)
    (hgrow : ∀ id buf f, r = .put id buf → m (inumOf id) = some f →
      blocksOf f.bytes.length ≤ blocksOf buf.length) : Tight ls' m' := by
  cases hs with
  | create h0 hi hm hheld =>
    apply ht.update
    intro b hb
    rw [hheld] at hb
    obtain ⟨f, hf, -⟩ := ht _ b hb
    rw [hm] at hf
    cases hf
  | full => exact ht
  | @put id buf f l' hf hw =>
    have hle := hgrow id buf f rfl hf
    apply ht.update
    intro b hb
    refine ⟨_, rfl, ?_⟩
    rcases hw.onlyNew b hb with hold | hnew
    · obtain ⟨f', hf', p, hp, rfl⟩ := ht _ b hold
      obtain rfl : f = f' := Option.some.inj (hf.symm.trans hf')
      exact ⟨p, hp.mono hle, hw.kept p hp (hp.mono hle)⟩
    · exact hnew
  | get => exact ht
  | getattr => exact ht
  | @remove id f l' hf hr =>
    apply ht.update
    intro b hb
    exfalso
    by_cases hp : ∃ p : Pos, p.InUse (blocksOf f.bytes.length) ∧ (ls (inumOf id)).slotAt p = b
    · obtain ⟨p, hp, rfl⟩ := hp
      exact hb (hr.freed p hp)
    · have hrest := hr.rest b fun p hp' he => hp ⟨p, hp', he⟩
      rw [hrest] at hb
      obtain ⟨f', hf', p, hp', he⟩ := ht _ b hb
      obtain rfl : f = f' := Option.some.inj (hf.symm.trans hf')
      exact hp ⟨p, hp', he⟩
  | unbound => exact ht

theorem Represents.exact_run (h : Represents ls m s) (ht : Tight ls m) {calls : List Call}
    (hrun : Along (fun c s => c.request.Fits ∧ c.handler.Always exec FindsClear s ∧
      c.NoShrink s) calls s) : (serveAll calls s).Exact := by
  induction calls generalizing ls m s with
  | nil => exact h.exact ht
  | cons c calls ih =>
    obtain ⟨⟨hfits, hpre, hshrink⟩, hrest⟩ := hrun
    obtain ⟨ls', m', hserved, h'⟩ := h.serve c hfits fun _ _ _ => hpre
    refine ih h' (hserved.tight ht ?_) hrest
    intro id buf f hr hf
    have hlive : s.Live (inumOf id) := by
      rw [h.live_iff, hf]
      exact Option.some_ne_none f
    have hle := hshrink id buf hr hlive
    rwa [h.blocks_eq hf] at hle

end Step

/-- As long as no put shrinks a file, every marked block is reserved or owned. -/
theorem accounting_exact (junk : Junk) (calls : List Call)
    (hrun : Along (fun c s => c.request.Fits ∧ c.handler.Always exec FindsClear s ∧
      c.NoShrink s) calls (freshServer junk)) : (serveAll calls (freshServer junk)).Exact := by
  obtain ⟨ls, h, hheld⟩ := freshServer_represents junk
  exact h.exact_run (fun n b hb => absurd (hheld n b) hb) hrun

theorem accounting_exact_example :
    (serveAll [⟨.put 1 [7], noJunk⟩, ⟨.create tFile, noJunk⟩, ⟨.remove 1, noJunk⟩]
      (freshServer noJunk)).Exact := by
  apply accounting_exact
  obtain ⟨ls, h, -⟩ := freshServer_represents noJunk
  have hfits : blocksOf ([7] : List UInt8).length < maxFile := by decide
  obtain ⟨h₁, h₂, h₃, -⟩ := safe_put_cons noJunk 1
    [⟨.create tFile, noJunk⟩, ⟨.remove 1, noJunk⟩] hfits (by
      intro c hc
      simp only [List.mem_cons, List.not_mem_nil, or_false] at hc
      rcases hc with rfl | rfl <;> simp)
  refine ⟨⟨h₁.2.1, h₁.2.2, ?_⟩, ⟨h₂.2.1, h₂.2.2, ?_⟩, ⟨h₃.2.1, h₃.2.2, ?_⟩, trivial⟩
  · intro id buf hr _
    cases hr
    have hf : rootOnly (inumOf 1) = some ⟨1, []⟩ := rfl
    rw [h.blocks_eq hf]
    exact Nat.zero_le _
  · intro id buf hr
    cases hr
  · intro id buf hr
    cases hr

/-- The second put gives the file no block, and frees none. -/
def leakRun : List Call := [⟨.put 1 [7], noJunk⟩, ⟨.put 1 [], noJunk⟩]

theorem accounting_leak :
    Along (fun c s => c.request.Fits ∧ c.handler.Always exec FindsClear s) leakRun
      (freshServer noJunk) ∧ ¬ (serveAll leakRun (freshServer noJunk)).Exact := by
  obtain ⟨ls, h, hheld⟩ := freshServer_represents noJunk
  have hfits : blocksOf ([7] : List UInt8).length < maxFile := by decide
  have hfits' : blocksOf ([] : List UInt8).length < maxFile := by decide
  have hone : inumOf 1 = 1 := by decide
  have hdemand := (Request.demand_le (r := .put 1 [7]) hfits.le rootOnly).trans
    (show maxFile + 1 ≤ 32415 by decide)
  have hpre := h.always ⟨.put 1 [7], noJunk⟩ hfits.le (hdemand.trans (h.valid.free_of_idle hheld))
  have hf : rootOnly (inumOf 1) = some ⟨1, []⟩ := rfl
  obtain ⟨-, l₁, hw₁, h₁⟩ := h.put hf hfits hpre
  rw [hone] at h₁ hw₁
  have hf₁ : Function.update rootOnly 1 (some ⟨1, [7]⟩) (inumOf 1) = some ⟨1, [7]⟩ := by
    rw [hone, Function.update_self]
  have hpre₁ := h₁.always ⟨.put 1 [], noJunk⟩ hfits'.le (by
    rw [Request.demand, hf₁]
    exact Nat.zero_le _)
  obtain ⟨-, l₂, hw₂, h₂⟩ := h₁.put hf₁ hfits' hpre₁
  rw [hone, Function.update_self] at hw₂
  rw [hone, Function.update_idem] at h₂
  refine ⟨⟨⟨hfits, hpre⟩, ⟨hfits', hpre₁⟩, trivial⟩, fun hexact => ?_⟩
  -- the block of the first put is still held after the second one
  have hin : (Pos.data 0).InUse (blocksOf [(7 : UInt8)].length) := by
    change 0 < blocksOf 1
    decide
  have hheld₂ := hw₂.grows _ (hw₁.stores.inUse _ hin)
  have hshare : (Function.update ls 1 l₂ 1).held (l₁.slotAt (.data 0)) ≠ none := by
    rwa [Function.update_self]
  rw [Function.update_idem] at h₂
  obtain ⟨c, hc⟩ := Option.ne_none_iff_exists'.mp hshare
  obtain ⟨hdata, hmarked, -⟩ := h₂.valid.held 1 _ c hc
  rcases (hexact _).mp hmarked with hlt | ⟨n, hn⟩
  · have h353 := hdata.1
    omega
  · obtain ⟨f, hf, p, hp, -⟩ := h₂.owns_iff.mp hn
    obtain rfl | hne := eq_or_ne n 1
    · rw [Function.update_self] at hf
      obtain rfl : (⟨1, []⟩ : File) = f := Option.some.inj hf
      cases p with
      | data j => exact absurd hp (Nat.not_lt_zero j)
      | indirect => exact absurd hp (Nat.not_lt_zero nDirect)
    · rw [Function.update_of_ne hne, rootOnly, if_neg hne] at hf
      cases hf

end Yfs.Store
