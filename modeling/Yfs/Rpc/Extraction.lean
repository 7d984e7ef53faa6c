import Yfs.Rpc.Parser
import Mathlib.Data.List.Iterate

/-! What `operator>>` makes of a variable that holds something, and how long the loops of the
containers run. -/
namespace Yfs.Rpc
open Effect

/-! The old value. -/

theorem Keeps.loop {σ : Type} {body : σ → Get σ} (h : ∀ s, Keeps (body s)) (n : ℕ) (s : σ) :
    Keeps (Unmarshall.loop body n s) := by
  induction n generalizing s with
  | zero => exact Keeps.pure s
  | succ n ih =>
    apply (h s).bind
    intro s'
    exact ih s'

/-- No extractor takes a failure back. -/
theorem Ty.keeps (t : Ty) (d : t.codec.Val) : Keeps (t.codec.get d) := by
  induction t with
  | arg a =>
    cases a with
    | uchar => exact (Takes.rawbyte.map _).toKeeps
    | char => exact ((Takes.rawbyte.map _).map _).toKeeps
    | ushort => exact Takes.getUshort.toKeeps
    | short => exact (Takes.getUshort.map _).toKeeps
    | uint => exact Takes.word.toKeeps
    | int => exact (Takes.word.map _).toKeeps
    | ulonglong => exact Takes.getUlonglong.toKeeps
    | string => exact getString_keeps d
  | bool => exact (Takes.rawbyte.map _).toKeeps
  | attr =>
    exact (Takes.word.bind fun _ => Takes.word.bind fun _ => Takes.word.bind fun _ =>
      Takes.word.bind fun _ => Takes.word.map _).toKeeps
  | vector t ih =>
    apply Takes.word.toKeeps.bind
    intro n
    apply Keeps.loop
    intro v
    exact (ih _).bind fun x => Keeps.pure _
  | map k v ihk ihv =>
    apply Takes.word.toKeeps.bind
    intro n
    apply Keeps.loop
    intro s
    exact (ihk _).bind fun a => (ihv _).bind fun b => Keeps.pure _

/-- The destination is no vector, or an empty one. -/
def Ty.Clean : (t : Ty) → t.codec.Val → Prop
  | .vector t, d => d = ([] : List t.codec.Val)
  | .arg _, _ => True
  | .bool, _ => True
  | .attr, _ => True
  | .map _ _, _ => True

/-- A vector goes behind what is there, everything else replaces it. -/
def Ty.onto : (t : Ty) → t.codec.Val → t.codec.Val → t.codec.Val
  | .vector t, d, v => (show List t.codec.Val from d) ++ (show List t.codec.Val from v)
  | .arg _, _, v => v
  | .bool, _, v => v
  | .attr, _, v => v
  | .map _ _, _, v => v

theorem Ty.yields_onto (t : Ty) (d v : t.codec.Val) :
    Yields (t.codec.get d) (t.codec.enc v) (t.onto d v) := by
  cases t with
  | arg a =>
    cases a with
    | uchar => exact Codec.uchar.yields v
    | char => exact Codec.char.yields v
    | ushort => exact Codec.ushort.yields v
    | short => exact Codec.short.yields v
    | uint => exact Codec.uint.yields v
    | int => exact Codec.int.yields v
    | ulonglong => exact Codec.ulonglong.yields v
    | string => exact Yields.getString d v
  | bool => exact Codec.bool.yields v
  | attr => exact Codec.attr.yields v
  | vector t => exact Yields.getVector t.codec.yields t.codec.pos d v
  | map k w => exact (Ty.map k w).codec.yields v

theorem Ty.onto_eq_iff (t : Ty) (d v : t.codec.Val) : t.onto d v = v ↔ t.Clean d := by
  cases t with
  | vector t => exact List.append_left_eq_self
  | arg a => exact iff_of_true rfl trivial
  | bool => exact iff_of_true rfl trivial
  | attr => exact iff_of_true rfl trivial
  | map k w => exact iff_of_true rfl trivial

/-- Where the bytes of a value come next, the variable gets this value unless it is a vector that
holds something. -/
theorem extraction_overwrites (t : Ty) (v d : t.codec.Val) {u : Unmarshall} {l : List UInt8}
    (hle : u.ind ≤ u.sz) (hsz : u.sz < 2 ^ 31) (hrest : u.rest = t.codec.enc v ++ l)
    (hok : (t.codec.get d u).2.ok = true) : (t.codec.get d u).1 = v ↔ t.Clean d := by
  obtain ⟨u', hrun, -⟩ := t.yields_onto d v u l hle hsz ((t.keeps d).ok u hok) hrest
  rw [hrun]
  exact t.onto_eq_iff d v

theorem extraction_overwrites_example :
    ((Ty.vector (.arg .uchar)).codec.get ([] : List UInt8)
      (.init (fun i => [0, 0, 0, 1, 9].getD i 0) 5)).1 = ([9] : List UInt8) :=
  (extraction_overwrites (.vector (.arg .uchar)) ([9] : List UInt8) ([] : List UInt8) (l := [])
    (by decide) (by decide) (by decide) (by decide)).mpr rfl

/-- A vector that is extracted a second time holds both. -/
theorem vector_keeps_old :
    ¬ ∀ (t : Ty) (v d : t.codec.Val) (u : Unmarshall) (l : List UInt8), u.ind ≤ u.sz →
      u.sz < 2 ^ 31 → u.rest = t.codec.enc v ++ l → (t.codec.get d u).2.ok = true →
      (t.codec.get d u).1 = v := by
  intro h
  have hrun := h (.vector (.arg .uchar)) ([9] : List UInt8) ([7] : List UInt8)
    (.init (fun i => [0, 0, 0, 1, 9].getD i 0) 5) [] (by decide) (by decide) (by decide) (by decide)
  have hboth : ((Ty.vector (.arg .uchar)).codec.get ([7] : List UInt8)
      (.init (fun i => [0, 0, 0, 1, 9].getD i 0) 5)).1 = ([7, 9] : List UInt8) := rfl
  have hne : ([7, 9] : List UInt8) ≠ [9] := by decide
  exact hne (hboth.symm.trans hrun)

/-! The count. -/

/-- The number at the cursor. Bytes that are not there count as zero. -/
def Unmarshall.count (u : Unmarshall) : UInt32 := netWord (u.rest ++ [0, 0, 0, 0])

/-- What the loop of a vector does for each element. -/
def vectorBody (c : Codec) (v : List c.Val) : Get (List c.Val) := return v ++ [← c.get c.fresh]

/-- What the loop of a map does for each element. -/
def mapBody (k w : Codec) (d : (Codec.map k w).Val) : Get (Codec.map k w).Val :=
  letI := k.order
  do
    let a ← k.get k.fresh
    let b ← w.get w.fresh
    return SortedMap.assign d a b

/-- The loops are those of the extractors. -/
theorem getVector_loop (c : Codec) (d : List c.Val) (u : Unmarshall) :
    (Codec.vector c).get d u = Unmarshall.loop (vectorBody c) (Unmarshall.getUint u).1.toNat d
      (Unmarshall.getUint u).2 := rfl

theorem getMap_loop (k w : Codec) (d : (Codec.map k w).Val) (u : Unmarshall) :
    (Codec.map k w).get d u = Unmarshall.loop (mapBody k w) (Unmarshall.getUint u).1.toNat
      (Codec.map k w).fresh (Unmarshall.getUint u).2 := rfl

/-- The buffer after one element, which goes into fresh variables. -/
def Ty.next : Ty → Unmarshall → Unmarshall
  | .vector t, u => (t.codec.get t.codec.fresh u).2
  | .map k w, u => (w.codec.get w.codec.fresh (k.codec.get k.codec.fresh u).2).2
  | .arg _, u => u
  | .bool, u => u
  | .attr, u => u

end Yfs.Rpc
