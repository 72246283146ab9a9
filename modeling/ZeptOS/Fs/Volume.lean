import ZeptOS.Fs.Layout

/-!
# What a disk says

Between the blocks of the disk and the code stand three things: the table of inodes, the free map and
the blocks that an inode lists. This file reads them off a disk, and says what each of the ways the
code writes to the disk does to them. The areas of the disk are disjoint (`Superblock.Geometry`), so
that a write in one is not seen in the others.
-/

namespace ZeptOS.Fs

open Lib Function

variable {disk' : Disk}

abbrev Disk := Nat → Block

def Superblock.datastart (sb : Superblock) : Nat := sb.size - sb.nblocks

/-- The areas that `sb` describes follow one another, the counter of `balloc`, an `int`, gets to the end
of the disk, and inode numbers fit into the fields that hold them. -/
structure Superblock.Geometry (sb : Superblock) : Prop where
  inodes : ∀ i, i < sb.ninodes → sb.iblock i < sb.bmapstart
  bitmap : ∀ b, b < sb.size → sb.bblock b < sb.datastart
  pos : 0 < sb.datastart
  size : sb.size + BPB ≤ 2 ^ 31
  few : sb.ninodes ≤ 2 ^ 16

theorem Superblock.Geometry.size_lt {sb : Superblock} (h : sb.Geometry) : sb.size < 2 ^ 32 :=
  Nat.lt_of_le_of_lt (Nat.le_of_add_right_le h.size) (by decide)

section Views

variable (sb : Superblock) (disk : Disk)

def inode (i : Nat) : Dinode := Dinode.load (disk (sb.iblock i)) (i % IPB)

def used (b : Nat) : Bool := bit (disk (sb.bblock b)) (b % BPB)

def putInode (i : Nat) (d : Dinode) : Disk :=
  Function.update disk (sb.iblock i) (Dinode.store (disk (sb.iblock i)) (i % IPB) d)

def mark (b : Nat) : Disk :=
  Function.update disk (sb.bblock b) (setBit (disk (sb.bblock b)) (b % BPB))

def unmark (b : Nat) : Disk :=
  Function.update disk (sb.bblock b) (clearBit (disk (sb.bblock b)) (b % BPB))

end Views

section Areas

variable {sb : Superblock} {disk : Disk} {i j a b : Nat} {d : Dinode} {x : Block}

theorem Superblock.bmapstart_le (sb : Superblock) (b : Nat) : sb.bmapstart ≤ sb.bblock b :=
  Nat.le_add_left _ _

theorem Superblock.datastart_le (sb : Superblock) : sb.datastart ≤ sb.size := Nat.sub_le _ _

theorem bblock_eq_iff : (sb.bblock a = sb.bblock b ∧ a % BPB = b % BPB) ↔ a = b := by
  unfold Superblock.bblock
  constructor
  · rintro ⟨h₁, h₂⟩
    rw [← Nat.div_add_mod a BPB, ← Nat.div_add_mod b BPB, h₂, Nat.add_right_cancel h₁]
  · rintro rfl
    exact ⟨rfl, rfl⟩

theorem iblock_eq_iff : (sb.iblock i = sb.iblock j ∧ i % IPB = j % IPB) ↔ i = j := by
  unfold Superblock.iblock
  constructor
  · rintro ⟨h₁, h₂⟩
    rw [← Nat.div_add_mod i IPB, ← Nat.div_add_mod j IPB, h₂, Nat.add_right_cancel h₁]
  · rintro rfl
    exact ⟨rfl, rfl⟩

/-! ## The table of inodes -/

theorem inode_fits (sb : Superblock) (disk : Disk) (i : Nat) : (inode sb disk i).Fits :=
  Dinode.load_fits _ _

theorem inode_putInode_self (h : d.Fits) : inode sb (putInode sb disk i d) i = d := by
  rw [inode, putInode, update_self]
  exact Dinode.load_store_self h _ _

theorem inode_putInode_of_ne (h : j ≠ i) : inode sb (putInode sb disk i d) j = inode sb disk j := by
  unfold inode putInode
  by_cases hb : sb.iblock j = sb.iblock i
  · rw [hb, update_self]
    exact Dinode.load_store_of_ne fun hm => h (iblock_eq_iff.mp ⟨hb, hm⟩)
  · rw [update_of_ne hb]

theorem inode_putInode (h : d.Fits) :
    inode sb (putInode sb disk i d) = update (inode sb disk) i d := by
  funext j
  by_cases hj : j = i
  · subst hj
    rw [inode_putInode_self h, update_self]
  · rw [inode_putInode_of_ne hj, update_of_ne hj]

theorem inode_congr (hg : sb.Geometry) (hi : i < sb.ninodes)
    (h : ∀ b, b < sb.bmapstart → disk' b = disk b) : inode sb disk' i = inode sb disk i := by
  rw [inode, inode, h _ (hg.inodes i hi)]

/-! ## The free map -/

theorem used_mark : used sb (mark sb disk a) b = (decide (b = a) || used sb disk b) := by
  unfold used mark
  by_cases hb : sb.bblock b = sb.bblock a
  · rw [hb, update_self, bit_setBit]
    congr 1
    exact decide_eq_decide.mpr ⟨fun h => bblock_eq_iff.mp ⟨hb, h⟩, fun h => by rw [h]⟩
  · rw [update_of_ne hb, decide_eq_false (by rintro rfl; exact hb rfl), Bool.false_or]

theorem used_unmark : used sb (unmark sb disk a) b = (!decide (b = a) && used sb disk b) := by
  unfold used unmark
  by_cases hb : sb.bblock b = sb.bblock a
  · rw [hb, update_self, bit_clearBit]
    congr 2
    exact decide_eq_decide.mpr ⟨fun h => bblock_eq_iff.mp ⟨hb, h⟩, fun h => by rw [h]⟩
  · rw [update_of_ne hb, decide_eq_false (by rintro rfl; exact hb rfl)]
    rfl

theorem used_congr (hg : sb.Geometry) (hb : b < sb.size)
    (h : ∀ a, sb.bmapstart ≤ a → a < sb.datastart → disk' a = disk a) :
    used sb disk' b = used sb disk b := by
  rw [used, used, h _ (sb.bmapstart_le b) (hg.bitmap b hb)]

/-! ## Writes, seen from the other areas -/

theorem putInode_apply (hg : sb.Geometry) (hi : i < sb.ninodes) (hb : sb.bmapstart ≤ b) :
    putInode sb disk i d b = disk b := by
  have := hg.inodes i hi
  exact update_of_ne (by omega) _ _

theorem mark_apply (hg : sb.Geometry) (ha : a < sb.size)
    (hb : b < sb.bmapstart ∨ sb.datastart ≤ b) : mark sb disk a b = disk b := by
  have h₁ := hg.bitmap a ha
  have h₂ := sb.bmapstart_le a
  exact update_of_ne (by omega) _ _

theorem unmark_apply (hg : sb.Geometry) (ha : a < sb.size)
    (hb : b < sb.bmapstart ∨ sb.datastart ≤ b) : unmark sb disk a b = disk b := by
  have h₁ := hg.bitmap a ha
  have h₂ := sb.bmapstart_le a
  exact update_of_ne (by omega) _ _

theorem Superblock.Geometry.bmapstart_lt (hg : sb.Geometry) : sb.bmapstart < sb.datastart := by
  have hpos := hg.pos
  have hle := sb.datastart_le
  have h0 := hg.bitmap 0 (by omega)
  rwa [Superblock.bblock, Nat.zero_div, Nat.zero_add] at h0

end Areas

end ZeptOS.Fs
