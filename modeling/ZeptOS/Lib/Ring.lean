import Mathlib.Data.List.Basic
import Mathlib.Data.Nat.ModEq

/-!
# Rings

A ring of `N` cells with two counters that only go up. The counters are words that wrap, and a
cell is found by a counter modulo `N`, which divides the size of the word. What has been put in
and what has been taken out are kept as lists; the counters are their lengths.
-/

namespace ZeptOS.Lib

open Function

variable {α : Type} {N : Nat} [NeZero N] {data : Fin N → α} {put got : List α}

/-- The cells hold what has been put in and not taken out. -/
structure Ring (data : Fin N → α) (put got : List α) : Prop where
  fifo : got <+: put
  room : put.length ≤ got.length + N
  held : ∀ k (hk : k < put.length), got.length ≤ k → data (Fin.ofNat N k) = put[k]

theorem Ring.empty (data : Fin N → α) : Ring data [] [] where
  fifo := List.prefix_rfl
  room := Nat.zero_le _
  held _ hk := absurd hk (Nat.not_lt_zero _)

theorem ofNat_ne_of_lt {j k : Nat} (h : j < k) (hN : k < j + N) : Fin.ofNat N j ≠ Fin.ofNat N k := by
  intro he
  have hmod : j % N = k % N := congrArg Fin.val he
  have hdvd : N ∣ k - j := (Nat.modEq_iff_dvd' h.le).mp hmod
  exact absurd (Nat.le_of_dvd (by omega) hdvd) (by omega)

theorem Ring.write (r : Ring data put got) (hroom : put.length < got.length + N) (c : α) :
    Ring (update data (Fin.ofNat N put.length) c) put got where
  fifo := r.fifo
  room := r.room
  held k hk hle := by
    rw [update_of_ne (ofNat_ne_of_lt hk (by omega)), r.held k hk hle]

theorem Ring.publish (r : Ring data put got) (hroom : put.length < got.length + N) :
    Ring data (put ++ [data (Fin.ofNat N put.length)]) got where
  fifo := r.fifo.trans (List.prefix_append _ _)
  room := by
    rw [List.length_append, List.length_singleton]
    omega
  held k hk hle := by
    rw [List.length_append, List.length_singleton] at hk
    rcases Nat.lt_succ_iff_lt_or_eq.mp hk with hlt | rfl
    · rw [r.held k hlt hle, List.getElem_append_left hlt]
    · rw [List.getElem_append_right (Nat.le_refl _)]
      simp

theorem Ring.push (r : Ring data put got) (hroom : put.length < got.length + N) (c : α) :
    Ring (update data (Fin.ofNat N put.length) c) (put ++ [c]) got := by
  have h := (r.write hroom c).publish hroom
  rwa [update_self] at h

theorem Ring.pop (r : Ring data put got) (hne : got.length < put.length) :
    Ring data put (got ++ [data (Fin.ofNat N got.length)]) where
  fifo := by
    rw [r.held got.length hne (Nat.le_refl _)]
    obtain ⟨rest, rfl⟩ := r.fifo
    cases rest with
    | nil => simp at hne
    | cons c rest => exact ⟨rest, by simp⟩
  room := by
    have hroom := r.room
    rw [List.length_append, List.length_singleton]
    omega
  held k hk hle := by
    rw [List.length_append, List.length_singleton] at hle
    exact r.held k hk (by omega)

theorem sub_mod_of_le {W a r : Nat} (hr : r ≤ a) (hW : a - r < W) :
    (W - r % W + a % W) % W = a - r := by
  obtain ⟨d, rfl⟩ := Nat.exists_eq_add_of_le hr
  rw [Nat.add_sub_cancel_left] at hW ⊢
  have hlt : r % W < W := Nat.mod_lt _ (by omega)
  have hsum : W - r % W + (r + d) = d + W * (r / W + 1) := by
    have hdiv := Nat.div_add_mod r W
    rw [Nat.mul_add, Nat.mul_one]
    omega
  rw [Nat.add_mod_mod, hsum, Nat.add_mul_mod_self_left, Nat.mod_eq_of_lt hW]

theorem ofNat_mod_of_dvd {W : Nat} (hN : N ∣ W) (a : Nat) : Fin.ofNat N (a % W) = Fin.ofNat N a :=
  Fin.ext (Nat.mod_mod_of_dvd a hN)

/-! ## Windows

What lies in the cells from a counter on, for a ring whose end may also go back. -/

structure Window (data : Fin N → α) (a : Nat) (xs : List α) : Prop where
  room : xs.length ≤ N
  held : ∀ k (hk : k < xs.length), data (Fin.ofNat N (a + k)) = xs[k]

theorem Window.nil (data : Fin N → α) (a : Nat) : Window data a [] where
  room := Nat.zero_le _
  held _ hk := absurd hk (Nat.not_lt_zero _)

variable {a b : Nat} {x : α} {xs ys : List α}

theorem Window.of_mod (h : Window data a xs) (hab : a % N = b % N) : Window data b xs where
  room := h.room
  held k hk := by
    have hcell : Fin.ofNat N (b + k) = Fin.ofNat N (a + k) := by
      refine Fin.ext ?_
      show (b + k) % N = (a + k) % N
      rw [Nat.add_mod, ← hab, ← Nat.add_mod]
    rw [hcell, h.held k hk]

theorem Window.push (h : Window data a xs) (hroom : xs.length < N) (x : α) :
    Window (update data (Fin.ofNat N (a + xs.length)) x) a (xs ++ [x]) where
  room := by
    rw [List.length_append, List.length_singleton]
    exact hroom
  held k hk := by
    rw [List.length_append, List.length_singleton] at hk
    rcases Nat.lt_succ_iff_lt_or_eq.mp hk with hlt | rfl
    · rw [update_of_ne (ofNat_ne_of_lt (by omega) (by omega)), h.held k hlt,
        List.getElem_append_left hlt]
    · rw [update_self, List.getElem_concat_length rfl]

theorem Window.head (h : Window data a (x :: xs)) : data (Fin.ofNat N a) = x :=
  h.held 0 (Nat.succ_pos _)

theorem Window.tail (h : Window data a (x :: xs)) : Window data (a + 1) xs where
  room := (Nat.le_succ _).trans h.room
  held k hk := by
    have hcell : a + 1 + k = a + (k + 1) := by omega
    rw [hcell, h.held (k + 1) (Nat.succ_lt_succ hk), List.getElem_cons_succ]

theorem Window.left (h : Window data a (xs ++ ys)) : Window data a xs where
  room := (List.length_append ▸ Nat.le_add_right _ _).trans h.room
  held k hk := by
    have hk' : k < (xs ++ ys).length := by
      rw [List.length_append]
      omega
    rw [h.held k hk', List.getElem_append_left hk]

theorem Window.last (h : Window data a (xs ++ [x])) : data (Fin.ofNat N (a + xs.length)) = x := by
  rw [h.held xs.length (by simp), List.getElem_concat_length rfl]

end ZeptOS.Lib
