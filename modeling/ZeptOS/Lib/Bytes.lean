import Mathlib.Tactic.Ring

/-!
# Byte memories and little-endian words

A page of RAM and a disk block are both arrays of bytes that C code reads back at
other widths: a page table is 512 words of 8 bytes, an indirect block 256 words of 4,
a log header 31. This file is the one place where a word becomes bytes and bytes a word.

`ld b o w` is the `w`-byte word at offset `o`, `st b o w v` the memory after storing
one. Everything above this file uses the two laws a memory has to have, `ld_st_self`
(a word reads back, cut to its width) and `ld_st_disj` (a store is invisible outside
its own bytes), and never unfolds either definition.
-/

namespace ZeptOS.Lib

open Function

variable {k n : Nat} {t : List UInt8}

abbrev Bytes := Nat → UInt8

namespace Bytes

/-- The region filled with one byte: what `memset` leaves. -/
def fill (c : UInt8) : Bytes := fun _ => c

def ld (b : Bytes) (o : Nat) : Nat → Nat
  | 0 => 0
  | w + 1 => (b o).toNat + 256 * ld b (o + 1) w

def st (b : Bytes) (o w v : Nat) : Bytes := fun k =>
  if o ≤ k ∧ k < o + w then UInt8.ofNat (v / 256 ^ (k - o)) else b k

/-- Overwrite the bytes from `o` on with a list: `memmove` into the region. -/
def blit (b : Bytes) (o : Nat) (bs : List UInt8) : Bytes := fun k =>
  if o ≤ k then (bs[k - o]?).getD (b k) else b k

def slice (b : Bytes) (o n : Nat) : List UInt8 := (List.range n).map fun i => b (o + i)

/-! ## The two laws -/

variable {b : Bytes}

variable {b' : Bytes}

theorem ld_congr : ∀ {w o : Nat}, (∀ k, o ≤ k → k < o + w → b k = b' k) → ld b o w = ld b' o w := by
  intro w
  induction w with
  | zero => intro o _; rfl
  | succ w ih =>
    intro o h
    simp only [ld]
    rw [h o (Nat.le_refl _) (by omega), ih fun k h1 h2 => h k (by omega) (by omega)]

theorem ld_of_digits : ∀ {w o v : Nat},
    (∀ k, k < w → b (o + k) = UInt8.ofNat (v / 256 ^ k)) → ld b o w = v % 256 ^ w := by
  intro w
  induction w with
  | zero => intro o v _; simp [ld, Nat.mod_one]
  | succ w ih =>
    intro o v h
    have hhead : (b o).toNat = v % 256 := by
      have := h 0 (by omega)
      simpa using congrArg UInt8.toNat this
    have htail : ld b (o + 1) w = (v / 256) % 256 ^ w := by
      refine ih fun k hk => ?_
      have := h (k + 1) (by omega)
      rw [show o + 1 + k = o + (k + 1) by omega, this, Nat.pow_succ, Nat.mul_comm,
        Nat.div_div_eq_div_mul]
    simp only [ld]
    rw [hhead, htail, Nat.pow_succ, Nat.mul_comm (256 ^ w) 256, Nat.mod_mul]

theorem ld_st_self (b : Bytes) (o w v : Nat) : ld (st b o w v) o w = v % 256 ^ w := by
  refine ld_of_digits fun k hk => ?_
  simp only [st]
  rw [if_pos ⟨by omega, by omega⟩, Nat.add_sub_cancel_left]

variable {o : Nat}

theorem ld_st_disj {w v o' w' : Nat} (h : o' + w' ≤ o ∨ o + w ≤ o') :
    ld (st b o w v) o' w' = ld b o' w' := by
  refine ld_congr fun k h1 h2 => ?_
  simp only [st]
  rw [if_neg (by omega)]

theorem ld_lt (b : Bytes) : ∀ (w o : Nat), ld b o w < 256 ^ w := by
  intro w
  induction w with
  | zero => intro o; simp [ld]
  | succ w ih =>
    intro o
    have h1 := ih (o + 1)
    have h2 := (b o).toNat_lt
    simp only [ld, Nat.pow_succ]
    omega

theorem ld_zero (w o : Nat) : ld (fill 0) o w = 0 := by
  have h := ld_of_digits (b := fill 0) (w := w) (o := o) (v := 0) (fun k _ => by simp [fill])
  simpa using h

theorem st_apply_of_not {w v : Nat} (h : ¬ (o ≤ k ∧ k < o + w)) : st b o w v k = b k := by
  simp only [st]
  rw [if_neg h]

/-! ## Slices -/

theorem length_slice (b : Bytes) (o n : Nat) : (slice b o n).length = n := by
  rw [slice, List.length_map, List.length_range]

theorem slice_congr {o' : Nat} (h : ∀ i, i < n → b (o + i) = b' (o' + i)) :
    slice b o n = slice b' o' n :=
  List.map_congr_left fun i hi => h i (List.mem_range.mp hi)

theorem slice_append (b : Bytes) (o m n : Nat) :
    slice b o m ++ slice b (o + m) n = slice b o (m + n) := by
  simp only [slice, List.range_add, List.map_append, List.map_map]
  congr 1
  exact List.map_congr_left fun i _ => congrArg b (Nat.add_assoc o m i)

theorem getElem?_slice {i : Nat} (h : i < n) : (slice b o n)[i]? = some (b (o + i)) := by
  rw [slice, List.getElem?_map, List.getElem?_range h, Option.map_some]

theorem blit_nil (b : Bytes) (o : Nat) : blit b o [] = b := by
  funext k
  unfold blit
  split <;> rfl

theorem blit_cons (b : Bytes) (o : Nat) (x : UInt8) (xs : List UInt8) :
    blit b o (x :: xs) = blit (update b o x) (o + 1) xs := by
  funext k
  unfold blit
  rcases Nat.lt_trichotomy k o with hk | rfl | hk
  · rw [if_neg (by omega), if_neg (by omega), update_of_ne (by omega)]
  · rw [if_pos le_rfl, if_neg (by omega), Nat.sub_self, update_self]
    rfl
  · rw [if_pos (by omega), if_pos (Nat.succ_le_of_lt hk), update_of_ne (by omega),
      show k - o = k - (o + 1) + 1 by omega, List.getElem?_cons_succ]

theorem blit_slice (b b' : Bytes) (o o' n k : Nat) :
    blit b o (slice b' o' n) k = if o ≤ k ∧ k < o + n then b' (o' + (k - o)) else b k := by
  unfold blit
  by_cases hk : o ≤ k
  · rw [if_pos hk]
    by_cases hn : k - o < n
    · rw [getElem?_slice hn, if_pos ⟨hk, by omega⟩]
      rfl
    · rw [List.getElem?_eq_none (by rw [length_slice]; omega), if_neg (by omega)]
      rfl
  · rw [if_neg hk, if_neg (by omega)]

theorem blit_of_not {bs : List UInt8} (h : k < o ∨ o + bs.length ≤ k) : blit b o bs k = b k := by
  unfold blit
  split
  · rw [List.getElem?_eq_none (by omega)]
    rfl
  · rfl

theorem slice_blit (b : Bytes) (o : Nat) (bs : List UInt8) : slice (blit b o bs) o bs.length = bs := by
  refine List.ext_getElem? fun i => ?_
  by_cases hi : i < bs.length
  · rw [getElem?_slice hi, blit, if_pos (Nat.le_add_right _ _), Nat.add_sub_cancel_left,
      List.getElem?_eq_getElem hi]
    rfl
  · rw [List.getElem?_eq_none (by rw [length_slice]; omega), List.getElem?_eq_none (by omega)]

/-- The C string at an address: these bytes, none of them zero, and a zero. -/
def Str (b : Bytes) : Nat → List UInt8 → Prop
  | a, [] => b a = 0
  | a, c :: s => b a = c ∧ c ≠ 0 ∧ Str b (a + 1) s

variable {s : List UInt8}

variable {a : Nat}

theorem Str.eq_zero_iff (h : Str b a s) : b a = 0 ↔ s = [] := by
  cases s with
  | nil => exact ⟨fun _ => rfl, fun _ => h⟩
  | cons c s => exact ⟨fun h0 => absurd (h.1 ▸ h0) h.2.1, nofun⟩

theorem Str.head {c : UInt8} (h : Str b a s) (hc : s.head? = some c) : b a = c := by
  cases s with
  | nil => exact nomatch hc
  | cons d s => exact h.1.trans (Option.some.inj hc)

theorem Str.of_append : ∀ {a : Nat}, Str b a (s ++ t) → Str b (a + s.length) t := by
  induction s with
  | nil => intro a h; exact h
  | cons c s ih =>
    intro a h
    rw [List.length_cons, Nat.add_comm s.length, ← Nat.add_assoc]
    exact ih h.2.2

theorem str_iff : ∀ {a : Nat},
    Str b a s ↔ 0 ∉ s ∧ slice b a s.length = s ∧ b (a + s.length) = 0 := by
  induction s with
  | nil => intro a; simp [Str, slice]
  | cons c s ih =>
    intro a
    rw [Str, ih, List.length_cons, Nat.add_comm s.length, ← slice_append, ← Nat.add_assoc]
    simp only [slice, List.range_one, List.map_cons, List.map_nil, List.cons_append, List.nil_append,
      List.cons.injEq, List.mem_cons, not_or, Nat.add_zero, ne_eq, eq_comm (a := (0 : UInt8)) (b := c)]
    tauto

theorem Str.slice_left (h : Str b a (s ++ t)) : slice b a s.length = s := by
  have hs := (str_iff.mp h).2.1
  rw [List.length_append, ← slice_append] at hs
  exact (List.append_inj hs (length_slice b a _)).1

theorem Str.congr (h : Str b a s)
    (hb : ∀ k, a ≤ k → k ≤ a + s.length → b' k = b k) : Str b' a s := by
  obtain ⟨h0, hs, hz⟩ := str_iff.mp h
  refine str_iff.mpr ⟨h0, (slice_congr fun i hi => ?_).trans hs, (hb _ (by omega) (by omega)).trans hz⟩
  exact hb _ (by omega) (by omega)

end Bytes
end ZeptOS.Lib
