import Yfs.Store.Layout
import Mathlib.Order.MinMax

/-! What `read_file` and `getattr` return for a file. -/
namespace Yfs.Store
open Effect

/-- The first `j` blocks of a file of `size` bytes are in the output of `read_file`;
`P` says what byte belongs where. -/
structure Copied (size : ℕ) (P : ℕ → UInt8 → Prop) (j : ℕ) (x : ReadState) : Prop where
  readSize : x.readSize = j * blockSize
  out : ∀ k < j * blockSize, k < size → P k (x.out k)

namespace Copied

variable {size : ℕ} {P : ℕ → UInt8 → Prop} {j : ℕ} {x : ReadState}

theorem lt_iff (hx : Copied size P j x) : x.readSize < size ↔ j < blocksOf size := by
  rw [hx.readSize, lt_blocksOf_iff]

/-- The output with one more block appended. -/
theorem append (hx : Copied size P j x) {buf : Block}
    (hbuf : ∀ k < size, k / blockSize = j → P k (buf.byte (k % blockSize))) :
    Copied size P (j + 1) ⟨x.readSize + blockSize,
      memcpy x.out x.readSize buf (min blockSize (size - x.readSize)), buf⟩ := by
  constructor
  · simp only [hx.readSize, Nat.add_mul, Nat.one_mul]
  · intro k hk hk'
    simp only [blockSize] at hk
    simp only [memcpy, hx.readSize, blockSize]
    by_cases hlo : j * 512 ≤ k
    · have hdiv : k / 512 = j := by omega
      have hmod : k % 512 = k - j * 512 := by omega
      have hin : j * 512 ≤ k ∧ k < j * 512 + min 512 (size - j * 512) := by omega
      have hb := hbuf k hk' hdiv
      rw [if_pos hin, ← hmod]
      exact hb
    · rw [if_neg (fun hin => hlo hin.1)]
      exact hx.out k (Nat.not_le.mp hlo) hk'

end Copied

/-- The first `j` blocks of the file `bytes` are in the output. -/
abbrev CopiedBytes (bytes : List UInt8) : ℕ → ReadState → Prop :=
  Copied bytes.length fun k v => v = bytes.getD k 0

section ReadFile

variable {n : ℕ} {l : Share} {type : Int16} {bytes : List UInt8} {j : ℕ} {x : ReadState}

theorem Stores.readSize_lt (h : Stores l type bytes) (hx : CopiedBytes bytes j x) :
    x.readSize < l.cell.size.toNat ↔ j < blocksOf bytes.length := by
  rw [h.size_eq, hx.lt_iff]

theorem copyBlock_wp {id : BlockId} (h : Stores l type bytes)
    (hx : CopiedBytes bytes j x)
    (hj : j < blocksOf bytes.length) (hid : id = l.slotAt (.data j)) :
    (copyBlock l.cell.size.toNat id x).wp (Rule n)
      (fun x' l' => CopiedBytes bytes (j + 1) x' ∧ l' = l) l := by
  subst hid
  obtain ⟨c, hc⟩ := Option.ne_none_iff_exists'.mp (h.inUse (.data j) hj)
  rw [h.size_eq]
  refine Program.wp_bind _ (readBlock_wp h.idle hc ⟨hx.append ?_, rfl⟩)
  intro k hk hkj
  obtain ⟨c', hc', hb⟩ := h.content k hk
  have hkj' : k / 512 = j := hkj
  rw [hkj', hc] at hc'
  obtain rfl : c = c' := Option.some.inj hc'
  exact hb

theorem readDirect_wp (h : Stores l type bytes) (hx : CopiedBytes bytes 0 x) :
    (Program.loop (readDirect l.cell) nDirect 0 x).wp (Rule n)
      (fun x' l' => CopiedBytes bytes (min nDirect (blocksOf bytes.length)) x' ∧
        l' = l) l := by
  apply Program.wp_loop _
    (fun i x' l' => CopiedBytes bytes i x' ∧ i ≤ blocksOf bytes.length ∧ l' = l)
  · exact ⟨hx, Nat.zero_le _, rfl⟩
  · rintro i x' l' - hi ⟨hx', hle, rfl⟩
    unfold readDirect
    split_ifs with hs
    · have hn : ¬ i < blocksOf bytes.length := by
        rw [← h.readSize_lt hx']
        omega
      have hm : min nDirect (blocksOf bytes.length) = i := by omega
      exact ⟨by rwa [hm], rfl⟩
    · have hlt := (h.readSize_lt hx').mp (by omega)
      have hslot : l'.cell.slot i = l'.slotAt (.data i) := by
        rw [Share.slotAt, slotOf, if_pos (by omega)]
      refine Program.wp_seq _ (copyBlock_wp h hx' hlt hslot) ?_
      rintro x'' _ ⟨hx'', rfl⟩
      exact ⟨hx'', hlt, rfl⟩
  · rintro x' _ ⟨hx', hle, rfl⟩
    have hm : min nDirect (blocksOf bytes.length) = 0 + nDirect := by omega
    exact ⟨by rwa [hm], rfl⟩

theorem readIndirect_wp (h : Stores l type bytes) (hn : nDirect < blocksOf bytes.length)
    (hx : CopiedBytes bytes nDirect x) :
    (Program.loop (readIndirect l.cell l.ind) nIndirect 0 x).wp (Rule n)
      (fun x' l' => CopiedBytes bytes (blocksOf bytes.length) x' ∧ l' = l) l := by
  apply Program.wp_loop _ fun i x' l' =>
    CopiedBytes bytes (nDirect + i) x' ∧ nDirect + i < blocksOf bytes.length ∧ l' = l
  · exact ⟨hx, hn, rfl⟩
  · rintro i x' l' - - ⟨hx', hlt, rfl⟩
    have hslot : l'.ind.entry i = l'.slotAt (.data (nDirect + i)) := by
      rw [Share.slotAt, slotOf, if_neg (by omega), Nat.add_sub_cancel_left]
    unfold readIndirect
    refine Program.wp_seq _ (copyBlock_wp h hx' hlt hslot) ?_
    rintro x'' _ ⟨hx'', rfl⟩
    split_ifs with hs
    · exact ⟨hx'', (h.readSize_lt hx'').mp hs, rfl⟩
    · have hm : blocksOf bytes.length = nDirect + i + 1 := by
        rw [h.readSize_lt hx''] at hs
        omega
      exact ⟨by rwa [hm], rfl⟩
  · rintro x' _ ⟨-, hlt, -⟩
    have hs := h.small
    simp only [maxFile] at hs
    omega

/-- `read_file` on a live inum. -/
theorem readFile_wp (junk : Junk) (hn : n < inodeNum) (h : Stores l type bytes) :
    (readFile junk n).wp (Rule n)
      (fun r l' => (∃ buf, r = some ⟨buf, l.cell.size.toInt32⟩ ∧
        ∀ k < bytes.length, buf k = bytes.getD k 0) ∧ l' = l) l := by
  have hinode : l.inode = some l.cell := if_neg h.type_ne
  have hend : ∀ x : ReadState, CopiedBytes bytes (blocksOf bytes.length) x →
      ¬ x.readSize < l.cell.size.toNat := by
    intro x hx
    rw [h.readSize_lt hx]
    omega
  have hout : ∀ x : ReadState, CopiedBytes bytes (blocksOf bytes.length) x →
      ∀ k < bytes.length, Function.update x.out l.cell.size.toNat 0 k = bytes.getD k 0 := by
    intro x hx k hk
    rw [h.size_eq, Function.update_of_ne (by omega)]
    apply hx.out
    · simp only [blocksOf, blockSize]
      omega
    · exact hk
  unfold readFile
  refine Program.wp_bind _ (getInode_wp hn h.idle ?_)
  simp only [hinode]
  refine Program.wp_seq _ (readDirect_wp h ⟨rfl, fun k hk => by omega⟩) ?_
  rintro x l' ⟨hx, rfl⟩
  by_cases hbig : nDirect < blocksOf bytes.length
  · rw [min_eq_left hbig.le] at hx
    obtain ⟨c, hc⟩ := Option.ne_none_iff_exists'.mp (h.inUse .indirect hbig)
    have hc' : l'.held (l'.cell.slot nDirect) = some c := hc
    have hind : l'.ind = c := by rw [Share.ind, hc', Option.getD_some]
    simp only [if_pos ((h.readSize_lt hx).mpr hbig)]
    refine Program.wp_bind _ (readBlock_wp h.idle hc' ?_)
    rw [← hind]
    refine Program.wp_seq _ (readIndirect_wp h hbig hx) ?_
    rintro x' _ ⟨hx', rfl⟩
    rw [if_neg (hend x' hx')]
    exact ⟨⟨_, rfl, hout x' hx'⟩, rfl⟩
  · rw [min_eq_right (by omega)] at hx
    simp only [if_neg (hend x hx), Program.pure_def, Program.pure_bind]
    exact ⟨⟨_, rfl, hout x hx⟩, rfl⟩

/-- The attributes of an inode, as `getattr` gives them out. -/
def Inode.attr (ino : Inode) : Attr where
  type := ino.type.toInt32.toUInt32
  atime := ino.atime
  mtime := ino.mtime
  ctime := ino.ctime
  size := ino.size

theorem getattr_wp (junk : Junk) {a : Attr} (hn : n < inodeNum) (hl : l.Idle) :
    (getattr junk n a).wp (Rule n)
      (fun r l' => r = (l.inode.map Inode.attr).getD a ∧ l' = l) l := by
  unfold getattr
  refine Program.wp_bind _ (getInode_wp hn hl ?_)
  cases l.inode with
  | none => exact ⟨rfl, rfl⟩
  | some ino => exact ⟨rfl, rfl⟩

end ReadFile

end Yfs.Store
