import ZeptOS.Param
import Mathlib.Data.Nat.Bitwise

/-!
# What the blocks of the file system hold

`kernel/fs.h`: the superblock, inodes, the free map, indirect blocks and directory entries, each as
it is read from the bytes of a block and written to them. The functions of `fs.c` use these, and
above this file nothing is known of them but that what is written is read back and the rest of the
block is left alone.
-/

namespace ZeptOS.Fs

open Lib Function

variable {j n o : Nat} {d : Dinode} {a : Nat → Nat} {de : Dirent}

structure Superblock where
  size : Nat
  nblocks : Nat
  ninodes : Nat
  nlog : Nat
  logstart : Nat
  inodestart : Nat
  bmapstart : Nat
  deriving DecidableEq

def Superblock.iblock (sb : Superblock) (i : Nat) : Nat := i / IPB + sb.inodestart

def Superblock.bblock (sb : Superblock) (b : Nat) : Nat := b / BPB + sb.bmapstart

/-! ## Inodes -/

/-- `struct dinode`. The 16-bit fields are `short`: see `short`. -/
@[ext] structure Dinode where
  type : Nat
  major : Nat
  minor : Nat
  nlink : Nat
  size : Nat
  addrs : Nat → Nat

def short (n : Nat) : Int := if n < 2 ^ 15 then n else n - 2 ^ 16

/-- The fields have their widths, and there are no more than `NDIRECT + 1` addresses. -/
structure Dinode.Fits (d : Dinode) : Prop where
  type : d.type < 2 ^ 16
  major : d.major < 2 ^ 16
  minor : d.minor < 2 ^ 16
  nlink : d.nlink < 2 ^ 16
  size : d.size < 2 ^ 32
  addrs : ∀ k, d.addrs k < 2 ^ 32
  zero : ∀ k, NDIRECT < k → d.addrs k = 0

def Dinode.zero : Dinode := ⟨0, 0, 0, 0, 0, fun _ => 0⟩

theorem Dinode.zero_fits : Dinode.zero.Fits := by
  constructor <;> simp [Dinode.zero]

def Dinode.load (b : Block) (k : Nat) : Dinode where
  type := b.ld (256 * k) 2
  major := b.ld (256 * k + 2) 2
  minor := b.ld (256 * k + 4) 2
  nlink := b.ld (256 * k + 6) 2
  size := b.ld (256 * k + 8) 4
  addrs j := if j ≤ NDIRECT then b.ld (256 * k + 12 + 4 * j) 4 else 0

/-- `memmove(dip->addrs, ip->addrs, sizeof(ip->addrs))`, the first `n` words. -/
def storeAddrs (b : Block) (o : Nat) (a : Nat → Nat) : Nat → Block
  | 0 => b
  | n + 1 => (storeAddrs b o a n).st (o + 4 * n) 4 (a n)

def Dinode.store (b : Block) (k : Nat) (d : Dinode) : Block :=
  storeAddrs (((((b.st (256 * k) 2 d.type).st (256 * k + 2) 2 d.major).st (256 * k + 4) 2
    d.minor).st (256 * k + 6) 2 d.nlink).st (256 * k + 8) 4 d.size) (256 * k + 12) d.addrs
    (NDIRECT + 1)

theorem Dinode.load_fits (b : Block) (k : Nat) : (Dinode.load b k).Fits where
  type := b.ld_lt 2 _
  major := b.ld_lt 2 _
  minor := b.ld_lt 2 _
  nlink := b.ld_lt 2 _
  size := b.ld_lt 4 _
  addrs j := by
    simp only [Dinode.load]
    split
    · exact b.ld_lt 4 _
    · decide
  zero j hj := if_neg (by omega)

variable {b : Block}

theorem ld_storeAddrs_disj {o' w : Nat} (n : Nat) (h : o' + w ≤ o ∨ o + 4 * n ≤ o') :
    (storeAddrs b o a n).ld o' w = b.ld o' w := by
  induction n with
  | zero => rfl
  | succ n ih =>
    rw [storeAddrs, Bytes.ld_st_disj (by omega)]
    exact ih (by omega)

theorem ld_storeAddrs_self (hj : j < n) : (storeAddrs b o a n).ld (o + 4 * j) 4 = a j % 2 ^ 32 := by
  induction n with
  | zero => omega
  | succ n ih =>
    rw [storeAddrs]
    rcases Nat.lt_succ_iff_lt_or_eq.mp hj with hlt | rfl
    · rw [Bytes.ld_st_disj (by omega)]
      exact ih hlt
    · rw [Bytes.ld_st_self]
      rfl

theorem Dinode.load_store_self (h : d.Fits) (b : Block) (k : Nat) :
    Dinode.load (Dinode.store b k d) k = d := by
  have hmod : ∀ {n : Nat} (w : Nat), n < 256 ^ w → n % 256 ^ w = n := fun w => Nat.mod_eq_of_lt
  refine Dinode.ext ?_ ?_ ?_ ?_ ?_ (funext fun j => ?_)
  · simp only [Dinode.load, Dinode.store]
    rw [ld_storeAddrs_disj _ (by omega)]
    iterate 4 rw [Bytes.ld_st_disj (by omega)]
    rw [Bytes.ld_st_self]
    exact hmod 2 h.type
  · simp only [Dinode.load, Dinode.store]
    rw [ld_storeAddrs_disj _ (by omega)]
    iterate 3 rw [Bytes.ld_st_disj (by omega)]
    rw [Bytes.ld_st_self]
    exact hmod 2 h.major
  · simp only [Dinode.load, Dinode.store]
    rw [ld_storeAddrs_disj _ (by omega)]
    iterate 2 rw [Bytes.ld_st_disj (by omega)]
    rw [Bytes.ld_st_self]
    exact hmod 2 h.minor
  · simp only [Dinode.load, Dinode.store]
    rw [ld_storeAddrs_disj _ (by omega), Bytes.ld_st_disj (by omega), Bytes.ld_st_self]
    exact hmod 2 h.nlink
  · simp only [Dinode.load, Dinode.store]
    rw [ld_storeAddrs_disj _ (by omega), Bytes.ld_st_self]
    exact hmod 4 h.size
  · simp only [Dinode.load, Dinode.store]
    split
    · rw [ld_storeAddrs_self (by omega), Nat.mod_eq_of_lt (h.addrs j)]
    · rw [h.zero j (by omega)]

theorem Dinode.ld_store_disj {k w : Nat} (h : o + w ≤ 256 * k ∨ 256 * k + 256 ≤ o) :
    (Dinode.store b k d).ld o w = b.ld o w := by
  have ho : o + w ≤ 256 * k + 12 ∨ 256 * k + 12 + 4 * (NDIRECT + 1) ≤ o := by
    show o + w ≤ 256 * k + 12 ∨ 256 * k + 12 + 4 * 61 ≤ o
    omega
  simp only [Dinode.store]
  rw [ld_storeAddrs_disj _ ho]
  iterate 5 rw [Bytes.ld_st_disj (by omega)]

theorem Dinode.load_store_of_ne {k k' : Nat} (h : k' ≠ k) :
    Dinode.load (Dinode.store b k d) k' = Dinode.load b k' := by
  refine Dinode.ext ?_ ?_ ?_ ?_ ?_ (funext fun j => ?_)
  all_goals simp only [Dinode.load]
  · exact Dinode.ld_store_disj (by omega)
  · exact Dinode.ld_store_disj (by omega)
  · exact Dinode.ld_store_disj (by omega)
  · exact Dinode.ld_store_disj (by omega)
  · exact Dinode.ld_store_disj (by omega)
  · split
    · rename_i hj
      have hj' : j ≤ 60 := hj
      exact Dinode.ld_store_disj (by omega)
    · rfl

/-! ## The free map -/

/-- `data[i/8] & (1 << (i % 8))` -/
def bit (b : Block) (i : Nat) : Bool := (b (i / 8)).toNat.testBit (i % 8)

/-- `data[i/8] |= m` -/
def setBit (b : Block) (i : Nat) : Block :=
  Function.update b (i / 8) (b (i / 8) ||| UInt8.ofNat (2 ^ (i % 8)))

/-- `data[i/8] &= ~m` -/
def clearBit (b : Block) (i : Nat) : Block :=
  Function.update b (i / 8) (b (i / 8) &&& ~~~ UInt8.ofNat (2 ^ (i % 8)))

theorem toNat_mask (k : Nat) : (UInt8.ofNat (2 ^ (k % 8))).toNat = 2 ^ (k % 8) := by
  have hk : k % 8 < 8 := Nat.mod_lt _ (by decide)
  rw [UInt8.toNat_ofNat', Nat.mod_eq_of_lt]
  exact Nat.pow_lt_pow_right (by decide) hk

theorem bit_setBit (b : Block) (i j : Nat) : bit (setBit b i) j = (decide (j = i) || bit b j) := by
  unfold bit setBit
  by_cases hb : j / 8 = i / 8
  · rw [hb, update_self, UInt8.toNat_or, toNat_mask, Nat.testBit_or, Nat.testBit_two_pow,
      Bool.or_comm]
    congr 1
    refine decide_eq_decide.mpr ⟨fun h => ?_, fun h => by rw [h]⟩
    omega
  · rw [update_of_ne hb, decide_eq_false (by rintro rfl; exact hb rfl), Bool.false_or]

theorem testBit_not_mask : ∀ j k : Fin 8,
    (~~~ UInt8.ofNat (2 ^ k.val)).toNat.testBit j.val = !decide (j = k) := by
  decide

theorem bit_clearBit (b : Block) (i j : Nat) :
    bit (clearBit b i) j = (!decide (j = i) && bit b j) := by
  unfold bit clearBit
  by_cases hb : j / 8 = i / 8
  · have hm := testBit_not_mask ⟨j % 8, Nat.mod_lt _ (by decide)⟩ ⟨i % 8, Nat.mod_lt _ (by decide)⟩
    rw [hb, update_self, UInt8.toNat_and, Nat.testBit_and, Bool.and_comm, hm]
    congr 2
    refine decide_eq_decide.mpr ⟨fun h => ?_, fun h => by simp only [h]⟩
    have := congrArg Fin.val h
    simp only at this
    omega
  · rw [update_of_ne hb, decide_eq_false (by rintro rfl; exact hb rfl)]
    rfl

/-! ## Indirect blocks -/

/-- The `j`-th word of a block, as `a[j]` with `a = (uint*)bp->data`. -/
def word (b : Block) (j : Nat) : Nat := b.ld (4 * j) 4

/-- `a[j] = v` -/
def setWord (b : Block) (j v : Nat) : Block := b.st (4 * j) 4 v

theorem word_setWord_self {v : Nat} (h : v < 2 ^ 32) : word (setWord b j v) j = v := by
  rw [word, setWord, Bytes.ld_st_self]
  exact Nat.mod_eq_of_lt h

theorem word_setWord_of_ne {i v : Nat} (h : j ≠ i) :
    word (setWord b i v) j = word b j := Bytes.ld_st_disj (by omega)

theorem word_zero (j : Nat) : word (Bytes.fill 0) j = 0 := Bytes.ld_zero 4 _

/-! ## Directory entries and names -/

@[ext] structure Dirent where
  inum : Nat
  name : List UInt8
  deriving DecidableEq

def Dirent.decode (bs : List UInt8) : Dirent where
  inum := (bs.getD 0 0).toNat + 256 * (bs.getD 1 0).toNat
  name := (bs.drop 2).take DIRSIZ

def Dirent.encode (de : Dirent) : List UInt8 :=
  UInt8.ofNat de.inum :: UInt8.ofNat (de.inum / 256) :: de.name

theorem Dirent.decode_encode (hi : de.inum < 2 ^ 16) (hn : de.name.length = DIRSIZ) :
    Dirent.decode de.encode = de := by
  refine Dirent.ext ?_ ?_
  · simp only [Dirent.decode, Dirent.encode, List.getD_cons_zero, List.getD_cons_succ]
    rw [UInt8.toNat_ofNat', UInt8.toNat_ofNat']
    omega
  · simp only [Dirent.decode, Dirent.encode, List.drop_succ_cons, List.drop_zero]
    exact List.take_of_length_le hn.le

theorem Dirent.length_encode (hn : de.name.length = DIRSIZ) : de.encode.length = 16 := by
  simp [Dirent.encode, hn]

def strncmp : Nat → List UInt8 → List UInt8 → Int
  | 0, _, _ => 0
  | n + 1, p, q =>
    if p.headD 0 ≠ 0 ∧ p.headD 0 = q.headD 0 then strncmp n p.tail q.tail
    else (p.headD 0).toNat - (q.headD 0).toNat

/-- `strncpy(s, t, n)`: what it leaves in `s`. -/
def strncpy : List UInt8 → Nat → List UInt8
  | _, 0 => []
  | [], n + 1 => 0 :: strncpy [] n
  | c :: t, n + 1 => c :: if c = 0 then List.replicate n 0 else strncpy t n

def namecmp (s t : List UInt8) : Int := strncmp DIRSIZ s t

/-- The part of a string that `strncmp` with length `n` looks at. -/
def cut : Nat → List UInt8 → List UInt8
  | 0, _ => []
  | _ + 1, [] => []
  | n + 1, c :: s => if c = 0 then [] else c :: cut n s

theorem strncmp_eq_zero {p q : List UInt8} : strncmp n p q = 0 ↔ cut n p = cut n q := by
  induction n generalizing p q with
  | zero => simp [strncmp, cut]
  | succ n ih =>
    have hsub : ∀ c d : UInt8, (c.toNat : Int) - d.toNat = 0 ↔ c = d := fun c d => by
      rw [← UInt8.toNat_inj]
      omega
    have hz : ∀ c : UInt8, c.toNat = 0 ↔ c = 0 := fun c => UInt8.toNat_inj (b := 0)
    cases p with
    | nil =>
      cases q with
      | nil => simp [strncmp, cut]
      | cons d q => by_cases hd : d = 0 <;> simp [strncmp, cut, hd, hz]
    | cons c p =>
      cases q with
      | nil => by_cases hc : c = 0 <;> simp [strncmp, cut, hc, hz]
      | cons d q =>
        by_cases hc : c = 0
        · subst hc
          by_cases hd : d = 0 <;> simp [strncmp, cut, hd, hz]
        · by_cases hcd : c = d
          · subst hcd
            simp [strncmp, cut, hc, ih]
          · by_cases hd : d = 0 <;> simp [strncmp, cut, hc, hd, hcd, hsub, hz]

theorem length_strncpy (t : List UInt8) (n : Nat) : (strncpy t n).length = n := by
  induction n generalizing t with
  | zero => cases t <;> rfl
  | succ n ih =>
    cases t with
    | nil => simp [strncpy, ih]
    | cons c t =>
      simp only [strncpy, List.length_cons]
      split
      · rw [List.length_replicate]
      · rw [ih]

theorem cut_strncpy (t : List UInt8) (n : Nat) : cut n (strncpy t n) = cut n t := by
  induction n generalizing t with
  | zero => rfl
  | succ n ih =>
    cases t with
    | nil => simp [strncpy, cut]
    | cons c t => by_cases hc : c = 0 <;> simp [strncpy, cut, hc, ih]

end ZeptOS.Fs
