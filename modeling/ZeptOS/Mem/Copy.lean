import Mathlib.Data.List.TakeWhile
import ZeptOS.Mem.Refine
import ZeptOS.Mem.User

/-!
# Copies between the kernel and a user

`copyin`, `copyout` and `copyinstr` go page by page; a user thinks in bytes. This file
says what they do in bytes, for every page table, every 64-bit address and every length.
An address is `readable` or `writable` by its leaf word alone, `phys` is the byte of RAM
it leads to, and the addresses of a range are counted in `uint64`, so that a range may
wrap. Reading stops at the first address that is not readable (`copyin_eq`,
`copyinstr_eq`); writing puts one byte after the other up to the first that is not
writable (`copyout_spec_bytes`).

Writing looks up each page only when it comes to it. A table one of whose own pages is
mapped for writing can therefore change under the copy, and what was mapped when it
started need not be mapped when it gets there.
-/

namespace ZeptOS.Mem

open Lib Lib.Prog Function

variable {s s' : Vm} {a k n o q r va len max : Nat} {bs' src : List UInt8} {E : Panic → Prop}

namespace Vm

def readable (s : Vm) (r va : Nat) : Prop :=
  va < MAXVA ∧ isValid (s.leaf r (vpn va)) ∧ s.leaf r (vpn va) &&& PTE_U ≠ 0 ∧
    PTE2PA (s.leaf r (vpn va)) ≠ 0

def writable (s : Vm) (r va : Nat) : Prop :=
  va < MAXVA ∧ isValid (s.leaf r (vpn va)) ∧ s.leaf r (vpn va) &&& PTE_U ≠ 0 ∧
    s.leaf r (vpn va) &&& PTE_W ≠ 0

instance (s : Vm) (r va : Nat) : Decidable (s.readable r va) := inferInstanceAs (Decidable (_ ∧ _))
instance (s : Vm) (r va : Nat) : Decidable (s.writable r va) := inferInstanceAs (Decidable (_ ∧ _))

/-- The physical page and the offset in it that an address leads to. -/
def phys (s : Vm) (r va : Nat) : Nat × Nat := (PTE2PA (s.leaf r (vpn va)), va % PGSIZE)

def byte (s : Vm) (r va : Nat) : UInt8 := s.mem (s.phys r va).1 (s.phys r va).2

def poke (s : Vm) (x : (Nat × Nat) × UInt8) : Vm :=
  s.put x.1.1 (Function.update (s.mem x.1.1) x.1.2 x.2)

def pokes (s : Vm) (xs : List ((Nat × Nat) × UInt8)) : Vm := xs.foldl poke s

end Vm

/-! ## Addresses of a range, and how pages cut it -/

def addrs (va n : Nat) : List Nat := (List.range n).map (add64 va)

theorem mem_addrs : a ∈ addrs va n ↔ ∃ i, i < n ∧ add64 va i = a := by
  unfold addrs
  rw [List.mem_map]
  simp only [List.mem_range]

theorem length_addrs (va n : Nat) : (addrs va n).length = n := by
  unfold addrs
  rw [List.length_map, List.length_range]

theorem add64_add64 (a i j : Nat) : add64 (add64 a i) j = add64 a (i + j) := by
  unfold add64
  rw [Nat.mod_add_mod, Nat.add_assoc]

theorem addrs_add (va m n : Nat) : addrs va (m + n) = addrs va m ++ addrs (add64 va m) n := by
  unfold addrs
  rw [List.range_add, List.map_append, List.map_map]
  congr 1
  exact List.map_congr_left fun i _ => (add64_add64 va m i).symm

theorem PGROUNDDOWN_sub (h : va < 2 ^ 64) : va - PGROUNDDOWN va = va % PGSIZE := by
  rw [PGROUNDDOWN_eq h]
  have := Nat.div_add_mod va PGSIZE
  rw [Nat.mul_comm] at this
  omega

theorem vpn_PGROUNDDOWN (h : va < 2 ^ 64) : vpn (PGROUNDDOWN va) = vpn va := by
  rw [PGROUNDDOWN_eq h]
  exact Nat.mul_div_cancel _ (by decide)

def pieceLen (va len : Nat) : Nat := min (PGSIZE - va % PGSIZE) len

theorem pieceLen_eq (h : va < 2 ^ 64) :
    min (PGSIZE - (va - PGROUNDDOWN va)) len = pieceLen va len := by
  rw [PGROUNDDOWN_sub h]
  rfl

theorem pieceLen_pos (va : Nat) (h : 0 < len) : 0 < pieceLen va len := by
  have : va % PGSIZE < PGSIZE := Nat.mod_lt _ (by decide)
  unfold pieceLen
  omega

theorem pieceLen_le : pieceLen va len ≤ len := Nat.min_le_right _ _

theorem add64_piece (hva : va < 2 ^ 64) {i : Nat} (hi : i < pieceLen va len) :
    add64 va i = va + i ∧ vpn (va + i) = vpn va ∧ (va + i) % PGSIZE = va % PGSIZE + i := by
  have hi' : i < 4096 - va % 4096 := hi.trans_le (Nat.min_le_left _ _)
  refine ⟨add64_of_lt (by omega), ?_, ?_⟩
  · show (va + i) / 4096 = va / 4096
    omega
  · show (va + i) % 4096 = va % 4096 + i
    omega

theorem addrs_piece (hva : va < 2 ^ 64) (len : Nat) : addrs va len = addrs va (pieceLen va len) ++
      addrs (add64 (PGROUNDDOWN va) PGSIZE) (len - pieceLen va len) := by
  by_cases hle : PGSIZE - va % PGSIZE ≤ len
  · have hp : pieceLen va len = PGSIZE - va % PGSIZE := Nat.min_eq_left hle
    have hnext : add64 (PGROUNDDOWN va) PGSIZE = add64 va (pieceLen va len) := by
      have := Nat.mod_lt va (show 0 < PGSIZE by decide)
      have := PGROUNDDOWN_sub hva
      have hle : PGROUNDDOWN va ≤ va := Nat.and_le_left
      unfold add64
      congr 1
      omega
    rw [hnext, ← addrs_add, Nat.add_sub_cancel' pieceLen_le]
  · have hp : pieceLen va len = len := Nat.min_eq_right (by omega)
    rw [hp, Nat.sub_self]
    exact (List.append_nil _).symm

theorem vpn_of_mem_piece (hva : va < 2 ^ 64) (ha : a ∈ addrs va (pieceLen va len)) :
    vpn a = vpn va := by
  obtain ⟨i, hi, rfl⟩ := mem_addrs.mp ha
  obtain ⟨h1, h2, _⟩ := add64_piece hva hi
  rw [h1, h2]

theorem self_mem_addrs (hva : va < 2 ^ 64) (h : 0 < len) : va ∈ addrs va len :=
  mem_addrs.mpr ⟨0, h, Nat.mod_eq_of_lt hva⟩

theorem addrs_cons (hva : va < 2 ^ 64) (n : Nat) :
    addrs va (n + 1) = va :: addrs (add64 va 1) n := by
  rw [Nat.add_comm, addrs_add]
  unfold addrs
  rw [List.range_one, List.map_singleton, List.singleton_append]
  congr 1
  exact Nat.mod_eq_of_lt hva

theorem lt_MAXVA_iff : a < MAXVA ↔ vpn a < 2 ^ 26 := by
  show a < 2 ^ 38 ↔ a / 4096 < 2 ^ 26
  omega

theorem next_lt : add64 (PGROUNDDOWN va) PGSIZE < 2 ^ 64 := Nat.mod_lt _ (by decide)

section
variable {b : Nat}

theorem readable_congr (h : vpn a = vpn b) : s.readable r a ↔ s.readable r b := by
  unfold Vm.readable
  rw [lt_MAXVA_iff, lt_MAXVA_iff, h]

theorem writable_congr (h : vpn a = vpn b) : s.writable r a ↔ s.writable r b := by
  unfold Vm.writable
  rw [lt_MAXVA_iff, lt_MAXVA_iff, h]

theorem walkaddr_page (hva : va < 2 ^ 64) : walkaddr r (PGROUNDDOWN va) s =
      .ok (if s.readable r va then PTE2PA (s.leaf r (vpn va)) else 0, s) := by
  rw [Tables.walkaddr_eq]
  congr 2
  have h0 : PGROUNDDOWN va % PGSIZE = 0 := by
    rw [PGROUNDDOWN_eq hva]
    exact Nat.mul_mod_left _ _
  unfold PMap.addr Vm.map entry
  rw [vpn_PGROUNDDOWN hva, h0]
  by_cases hlt : vpn va < MAXVA / PGSIZE
  · have hm : va < MAXVA := lt_MAXVA_iff.mpr hlt
    rw [if_pos hlt]
    unfold Vm.readable
    by_cases hv : isValid (s.leaf r (vpn va))
    · rw [if_pos hv]
      simp only [hv, hm, true_and, flags_and_U]
      by_cases hu : s.leaf r (vpn va) &&& PTE_U = 0
      · simp [hu]
      · by_cases hp : PTE2PA (s.leaf r (vpn va)) = 0
        · simp [hp]
        · simp [hu, hp]
    · rw [if_neg hv]
      simp [hv]
  · rw [if_neg hlt, if_neg]
    intro h
    exact hlt (lt_MAXVA_iff.mp h.1)

theorem slice_piece (hva : va < 2 ^ 64) :
    (s.mem (PTE2PA (s.leaf r (vpn va)))).slice (va - PGROUNDDOWN va) (pieceLen va len) =
      (addrs va (pieceLen va len)).map (s.byte r) := by
  rw [PGROUNDDOWN_sub hva]
  unfold Bytes.slice addrs
  rw [List.map_map]
  refine List.map_congr_left fun i hi => ?_
  obtain ⟨h1, h2, h3⟩ := add64_piece hva (List.mem_range.mp hi)
  show _ = s.byte r (add64 va i)
  unfold Vm.byte Vm.phys
  rw [h1, h2, h3]

/-! ## How far a copy gets -/

/-- The addresses of a range up to the first that fails a test. -/
def stretch (p : Nat → Prop) [DecidablePred p] (va len : Nat) : List Nat :=
  (addrs va len).takeWhile (p ·)

section
variable {p : Nat → Prop} [DecidablePred p]

theorem stretch_of_not (hva : va < 2 ^ 64) (h : ¬ p va) : stretch p va len = [] := by
  unfold stretch
  cases len with
  | zero => rfl
  | succ n => rw [addrs_cons hva, List.takeWhile_cons_of_neg (by simpa using h)]

theorem stretch_of_pos (hp : ∀ a b, vpn a = vpn b → (p a ↔ p b)) (hva : va < 2 ^ 64) (h : p va)
    (len : Nat) : stretch p va len = addrs va (pieceLen va len) ++
      stretch p (add64 (PGROUNDDOWN va) PGSIZE) (len - pieceLen va len) := by
  have hall : ∀ a ∈ addrs va (pieceLen va len), decide (p a) = true := fun a ha =>
    decide_eq_true ((hp a va (vpn_of_mem_piece hva ha)).mpr h)
  unfold stretch
  rw [addrs_piece hva len, List.takeWhile_append_of_pos hall]

theorem stretch_congr {q : Nat → Prop} [DecidablePred q] (h : ∀ a, p a ↔ q a) :
    stretch p va len = stretch q va len := by
  unfold stretch
  rw [show (fun a => decide (p a)) = fun a => decide (q a) from
    funext fun a => decide_eq_decide.mpr (h a)]

theorem of_mem_stretch (h : a ∈ stretch p va len) : p a := by
  have hd := List.mem_takeWhile_imp h
  exact of_decide_eq_true hd

theorem stretch_eq (p : Nat → Prop) [DecidablePred p] (va len : Nat) :
    ∃ m, m ≤ len ∧ stretch p va len = addrs va m ∧ (m < len → ¬ p (add64 va m)) := by
  induction len with
  | zero => exact ⟨0, le_rfl, rfl, fun h => absurd h (Nat.lt_irrefl 0)⟩
  | succ n ih =>
    obtain ⟨m, hm, he, hstop⟩ := ih
    have hlast : addrs va (n + 1) = addrs va n ++ [add64 va n] := by
      unfold addrs
      rw [List.range_succ, List.map_append, List.map_singleton]
    rcases Nat.lt_or_eq_of_le hm with hlt | rfl
    · refine ⟨m, by omega, ?_, fun _ => hstop hlt⟩
      unfold stretch at he ⊢
      rw [hlast, List.takeWhile_append, he, if_neg]
      rw [length_addrs, length_addrs]
      exact Nat.ne_of_lt hlt
    · unfold stretch at he ⊢
      by_cases hpm : p (add64 va m)
      · refine ⟨m + 1, le_rfl, ?_, fun h => absurd h (Nat.lt_irrefl _)⟩
        rw [hlast, List.takeWhile_append, he, if_pos rfl,
          List.takeWhile_cons_of_pos (by simpa using hpm)]
        rfl
      · refine ⟨m, by omega, ?_, fun _ => hpm⟩
        rw [hlast, List.takeWhile_append, he, if_pos rfl,
          List.takeWhile_cons_of_neg (by simpa using hpm), List.append_nil]

end

/-! ## Reading -/

/-- What there is to read in a range: the bytes up to the first address that is not
    readable. -/
def Vm.avail (s : Vm) (r va len : Nat) : List UInt8 :=
  (stretch (s.readable r) va len).map (s.byte r)

theorem avail_of_not_readable (hva : va < 2 ^ 64) (h : ¬ s.readable r va) :
    s.avail r va len = [] := by
  unfold Vm.avail
  rw [stretch_of_not hva h]
  rfl

theorem avail_of_readable (hva : va < 2 ^ 64) (h : s.readable r va) :
    s.avail r va len = (addrs va (pieceLen va len)).map (s.byte r) ++
      s.avail r (add64 (PGROUNDDOWN va) PGSIZE) (len - pieceLen va len) := by
  unfold Vm.avail
  rw [stretch_of_pos (fun _ _ => readable_congr) hva h len, List.map_append]

end

variable {bs : List UInt8}

theorem piece_fuel (hlen : 0 < len) (hk : len ≤ k + 1) : len - pieceLen va len ≤ k := by
  have := pieceLen_pos va hlen
  omega

theorem copyinLoop_spec : ∀ {k va len : Nat}, va < 2 ^ 64 → len ≤ k →
    wp (copyinLoop r k va len) E (fun res s' =>
      res = (decide (∀ a ∈ addrs va len, s.readable r a), s.avail r va len) ∧ s' = s) s := by
  intro k
  induction k with
  | zero =>
    intro va len _ hk
    obtain rfl : len = 0 := Nat.le_zero.mp hk
    exact ⟨rfl, rfl⟩
  | succ k ih =>
    intro va len hva hk
    unfold copyinLoop
    by_cases hlen : len > 0
    · rw [if_pos hlen]
      dsimp only
      rw [wp_bind, pieceLen_eq hva]
      refine wp_of_run (walkaddr_page hva) ?_
      by_cases hr : s.readable r va
      · rw [if_pos hr, if_neg hr.2.2.2, wp_bind, wp_get, slice_piece hva]
        refine wp_call (ih next_lt (piece_fuel hlen hk)) ?_
        rintro ⟨ok, rest⟩ s' ⟨h1, rfl⟩
        obtain ⟨rfl, rfl⟩ := Prod.mk.inj h1
        refine ⟨?_, rfl⟩
        rw [avail_of_readable hva hr]
        refine Prod.ext (decide_eq_decide.mpr ?_) rfl
        rw [addrs_piece hva len]
        simp only [List.mem_append]
        constructor
        · rintro h a (ha | ha)
          · exact (readable_congr (vpn_of_mem_piece hva ha)).mpr hr
          · exact h a ha
        · exact fun h a ha => h a (.inr ha)
      · rw [if_neg hr, if_pos rfl]
        refine ⟨?_, rfl⟩
        rw [avail_of_not_readable hva hr, decide_eq_false]
        exact fun h => hr (h va (self_mem_addrs hva hlen))
    · obtain rfl : len = 0 := by omega
      exact ⟨rfl, rfl⟩

/-- **`copyin`** copies the bytes that are there, and says whether that was all. -/
theorem copyin_eq (hva : va < 2 ^ 64) : copyin r va len s =
      .ok ((decide (∀ a ∈ addrs va len, s.readable r a), s.avail r va len), s) := by
  have hw : wp (copyin r va len) (fun _ => False) _ s := copyinLoop_spec hva le_rfl
  obtain ⟨a, s', h, h1, h2⟩ := run_of_wp hw
  rw [h, h1, h2]

/-- What `copyinstr` makes of the bytes there are: whether there is a 0, and the bytes up
    to it. -/
def uptoNul (bs : List UInt8) : Bool × List UInt8 :=
  if 0 ∈ bs then (true, bs.takeWhile (· ≠ 0) ++ [0]) else (false, bs)

theorem takeWhile_nul_eq (h : 0 ∉ bs) : bs.takeWhile (· ≠ 0) = bs := by
  refine List.takeWhile_eq_self_iff.mpr fun x hx => decide_eq_true ?_
  rintro rfl
  exact h hx

theorem takeWhile_nul_lt : (bs.takeWhile (· ≠ 0)).length < bs.length ↔ 0 ∈ bs := by
  constructor
  · intro h
    by_contra h0
    rw [takeWhile_nul_eq h0] at h
    exact Nat.lt_irrefl _ h
  · intro h0
    refine Nat.lt_of_le_of_ne (List.takeWhile_sublist _).length_le fun h => ?_
    rw [← (List.takeWhile_sublist _).eq_of_length h] at h0
    have hd := List.mem_takeWhile_imp h0
    exact of_decide_eq_true hd rfl

theorem uptoNul_of_mem (h : 0 ∈ bs) :
    uptoNul (bs ++ bs') = (true, bs.takeWhile (· ≠ 0) ++ [0]) := by
  unfold uptoNul
  rw [if_pos (List.mem_append_left _ h), List.takeWhile_append, if_neg]
  exact Nat.ne_of_lt (takeWhile_nul_lt.mpr h)

theorem uptoNul_append (h : 0 ∉ bs) :
    uptoNul (bs ++ bs') = ((uptoNul bs').1, bs ++ (uptoNul bs').2) := by
  unfold uptoNul
  by_cases h' : 0 ∈ bs'
  · rw [if_pos (List.mem_append_right _ h'), if_pos h', List.takeWhile_append_of_pos,
      List.append_assoc]
    intro a ha
    refine decide_eq_true ?_
    rintro rfl
    exact h ha
  · rw [if_neg (by simp [h, h']), if_neg h']

theorem copyinstrLoop_spec : ∀ {k va max : Nat}, va < 2 ^ 64 → max ≤ k →
    wp (copyinstrLoop r k va max) E (fun res s' =>
      res = uptoNul (s.avail r va max) ∧ s' = s) s := by
  intro k
  induction k with
  | zero =>
    intro va max _ hk
    obtain rfl : max = 0 := Nat.le_zero.mp hk
    exact ⟨rfl, rfl⟩
  | succ k ih =>
    intro va max hva hk
    unfold copyinstrLoop
    by_cases hlen : max > 0
    · rw [if_pos hlen]
      dsimp only
      rw [wp_bind, pieceLen_eq hva]
      refine wp_of_run (walkaddr_page hva) ?_
      by_cases hr : s.readable r va
      · rw [if_pos hr, if_neg hr.2.2.2, wp_bind, wp_get, slice_piece hva, avail_of_readable hva hr]
        have hlen1 : ((addrs va (pieceLen va max)).map (s.byte r)).length = pieceLen va max := by
          rw [List.length_map, length_addrs]
        generalize (addrs va (pieceLen va max)).map (s.byte r) = bs at hlen1
        rw [← hlen1]
        by_cases h0 : 0 ∈ bs
        · rw [if_pos (takeWhile_nul_lt.mpr h0)]
          refine ⟨?_, rfl⟩
          exact (uptoNul_of_mem h0).symm
        · rw [if_neg (mt takeWhile_nul_lt.mp h0)]
          rw [hlen1]
          refine wp_call (ih next_lt (piece_fuel hlen hk)) ?_
          rintro ⟨ok, rest⟩ s' ⟨h1, rfl⟩
          refine ⟨?_, rfl⟩
          rw [takeWhile_nul_eq h0, uptoNul_append h0, ← h1]
      · rw [if_neg hr, if_pos rfl]
        refine ⟨?_, rfl⟩
        rw [avail_of_not_readable hva hr]
        rfl
    · obtain rfl : max = 0 := by omega
      exact ⟨rfl, rfl⟩

theorem copyinstr_eq (hva : va < 2 ^ 64) :
    copyinstr r va max s = .ok (uptoNul (s.avail r va max), s) := by
  have hw : wp (copyinstr r va max) (fun _ => False) _ s := copyinstrLoop_spec hva le_rfl
  obtain ⟨a, s', h, h1, h2⟩ := run_of_wp hw
  rw [h, h1, h2]

/-- A string of `k` bytes stands at an address, its 0 after it. -/
def Vm.StringAt (s : Vm) (r va k : Nat) : Prop :=
  (∀ i, i ≤ k → s.readable r (add64 va i)) ∧ s.byte r (add64 va k) = 0 ∧
    ∀ i, i < k → s.byte r (add64 va i) ≠ 0

theorem uptoNul_avail (hk : k < max) (h : s.StringAt r va k) :
    uptoNul (s.avail r va max) = (true, (addrs va (k + 1)).map (s.byte r)) := by
  obtain ⟨m, hm, he, hstop⟩ := stretch_eq (s.readable r) va max
  have hkm : k < m := by
    by_contra hge
    exact hstop (by omega) (h.1 m (by omega))
  obtain ⟨n, rfl⟩ : ∃ n, m = k + (1 + n) := ⟨m - k - 1, by omega⟩
  have h0 : (0 : UInt8) ∉ (addrs va k).map (s.byte r) := by
    intro hmem
    obtain ⟨a, ha, hb⟩ := List.mem_map.mp hmem
    obtain ⟨i, hi, rfl⟩ := mem_addrs.mp ha
    exact h.2.2 i hi hb
  have hone : (addrs (add64 va k) 1).map (s.byte r) = [0] := by
    unfold addrs
    rw [List.range_one, List.map_singleton, List.map_singleton, add64_add64, Nat.add_zero, h.2.1]
  unfold Vm.avail
  rw [he, addrs_add, addrs_add, List.map_append, List.map_append, uptoNul_append h0, hone,
    uptoNul_of_mem List.mem_cons_self, addrs_add, List.map_append, hone]
  rfl

theorem stringAt_of_uptoNul (h : (uptoNul (s.avail r va max)).1 = true) :
    ∃ k, k < max ∧ s.StringAt r va k := by
  obtain ⟨m, hm, he, -⟩ := stretch_eq (s.readable r) va max
  have hread : ∀ i, i < m → s.readable r (add64 va i) := fun i hi =>
    of_mem_stretch (he ▸ mem_addrs.mpr ⟨i, hi, rfl⟩)
  have h0 : ∃ i, i < m ∧ s.byte r (add64 va i) = 0 := by
    by_contra hno
    unfold uptoNul at h
    rw [if_neg] at h
    · exact Bool.noConfusion h
    · unfold Vm.avail
      rw [he, List.mem_map]
      rintro ⟨a, ha, hb⟩
      obtain ⟨i, hi, rfl⟩ := mem_addrs.mp ha
      exact hno ⟨i, hi, hb⟩
  obtain ⟨hlt, hz⟩ := Nat.find_spec h0
  refine ⟨Nat.find h0, by omega, fun i hi => hread i (by omega), hz, fun i hi hb => ?_⟩
  exact Nat.find_min h0 hi ⟨by omega, hb⟩

/-- **`copyinstr`** succeeds exactly when a string starts at the address that ends within
    the bound, on pages a user can read; it has then stored the string with its 0, and in
    no case more than the bound. -/
theorem copyinstr_finds_string {va max : Nat} (hva : va < 2 ^ 64) :
    ∃ ok out, copyinstr r va max s = .ok ((ok, out), s) ∧
      (ok = true ↔ ∃ k, k < max ∧ s.StringAt r va k) ∧
      (∀ k, k < max → s.StringAt r va k → out = (addrs va (k + 1)).map (s.byte r)) ∧
      out.length ≤ max := by
  refine ⟨(uptoNul (s.avail r va max)).1, (uptoNul (s.avail r va max)).2, copyinstr_eq hva,
    ⟨stringAt_of_uptoNul, ?_⟩, ?_, ?_⟩
  · rintro ⟨k, hk, hs⟩
    rw [uptoNul_avail hk hs]
  · intro k hk hs
    rw [uptoNul_avail hk hs]
  · by_cases h : (uptoNul (s.avail r va max)).1 = true
    · obtain ⟨k, hk, hs⟩ := stringAt_of_uptoNul h
      rw [uptoNul_avail hk hs, List.length_map, length_addrs]
      exact hk
    · unfold uptoNul at h ⊢
      split at h
      · exact absurd rfl h
      · rename_i h0
        rw [if_neg h0]
        unfold Vm.avail stretch
        rw [List.length_map]
        exact (List.takeWhile_sublist _).length_le.trans (length_addrs va max).le

/-- A table at 0x80400000 that maps page 510 to `pa` and page 511 to a page of its own. -/
def twoPages (pa : Nat) : Vm :=
  ((((⟨fun _ => Bytes.fill 0, [], false⟩ : Vm).setPte 0x80400000 0 (mkPte 0x80401000 0)).setPte
    0x80401000 0 (mkPte 0x80402000 0)).setPte
    0x80402000 510 (mkPte pa (PTE_R ||| PTE_W ||| PTE_U))).setPte
    0x80402000 511 (mkPte 0x80403000 (PTE_R ||| PTE_W ||| PTE_U))

/-- The string "hi" begins in the last byte of page 510 and goes on in page 511. -/
def straddling : Vm :=
  ((twoPages 0x80404000).poke ((0x80404000, 4095), 104)).poke ((0x80403000, 0), 105)

theorem copyinstr_finds_string_twoPages : straddling.StringAt 0x80400000 0x1fefff 2 ∧
    copyinstr 0x80400000 0x1fefff 8 straddling = .ok ((true, [104, 105, 0]), straddling) := by
  have hs : straddling.StringAt 0x80400000 0x1fefff 2 := by
    unfold Vm.StringAt
    decide +kernel
  obtain ⟨ok, out, hrun, hok, hout, -⟩ : ∃ ok out,
      copyinstr 0x80400000 0x1fefff 8 straddling = .ok ((ok, out), straddling) ∧ _ :=
    copyinstr_finds_string (by decide)
  have hbytes : (addrs 0x1fefff (2 + 1)).map (straddling.byte 0x80400000) = [104, 105, 0] := by decide +kernel
  rw [hok.2 ⟨2, by decide, hs⟩, hout 2 (by decide) hs, hbytes] at hrun
  exact ⟨hs, hrun⟩

/-! ## Writing -/

theorem pokes_append (s : Vm) (xs ys : List ((Nat × Nat) × UInt8)) :
    s.pokes (xs ++ ys) = (s.pokes xs).pokes ys := List.foldl_append

theorem poke_mem_of_ne {x : (Nat × Nat) × UInt8} (h : x.1 ≠ (q, o)) :
    (s.poke x).mem q o = s.mem q o := by
  unfold Vm.poke
  by_cases hq : q = x.1.1
  · subst hq
    rw [Vm.put_mem_self, update_of_ne]
    rintro rfl
    exact h rfl
  · rw [Vm.put_mem_of_ne hq]

theorem pokes_mem_of_not {xs : List ((Nat × Nat) × UInt8)} :
    ∀ {s : Vm}, (∀ x ∈ xs, x.1 ≠ (q, o)) → (s.pokes xs).mem q o = s.mem q o := by
  induction xs with
  | nil => exact fun _ => rfl
  | cons x xs ih =>
    intro s h
    refine (ih fun y hy => h y (List.mem_cons_of_mem _ hy)).trans ?_
    exact poke_mem_of_ne (h x List.mem_cons_self)

theorem pokes_page : ∀ {s : Vm} {o : Nat},
    s.pokes (((List.range bs.length).map fun i => (q, o + i)).zip bs) =
      s.put q ((s.mem q).blit o bs) := by
  induction bs with
  | nil =>
    intro s o
    rw [Bytes.blit_nil]
    exact (congrArg (fun m => ({ s with mem := m } : Vm)) (update_eq_self q s.mem)).symm
  | cons b bs ih =>
    intro s o
    rw [List.length_cons, List.range_succ_eq_map, List.map_cons, List.zip_cons_cons, List.map_map]
    have hmap : (List.range bs.length).map ((fun i => (q, o + i)) ∘ Nat.succ) =
        (List.range bs.length).map fun i => (q, (o + 1) + i) :=
      List.map_congr_left fun i _ => by
        show (q, o + (i + 1)) = (q, (o + 1) + i)
        rw [Nat.add_assoc, Nat.add_comm 1 i]
    rw [hmap]
    refine (ih (s := s.poke ((q, o), b))).trans ?_
    unfold Vm.poke Vm.put
    dsimp only
    rw [update_idem, update_self, Bytes.blit_cons]

theorem pokes_piece (hva : va < 2 ^ 64) (hbs : bs.length = pieceLen va len) :
    s.pokes (((addrs va (pieceLen va len)).map (s.phys r)).zip bs) =
      s.put (PTE2PA (s.leaf r (vpn va)))
        ((s.mem (PTE2PA (s.leaf r (vpn va)))).blit (va - PGROUNDDOWN va) bs) := by
  rw [PGROUNDDOWN_sub hva, ← pokes_page, hbs]
  unfold addrs
  rw [List.map_map]
  congr 2
  refine List.map_congr_left fun i hi => ?_
  obtain ⟨h1, h2, h3⟩ := add64_piece hva (List.mem_range.mp hi)
  show s.phys r (add64 va i) = _
  unfold Vm.phys
  rw [h1, h2, h3]

/-- No page a user can write to in a range belongs to the table. -/
def Vm.Apart (s : Vm) (r va len : Nat) : Prop :=
  ∀ a ∈ addrs va len, s.writable r a → (s.phys r a).1 ∉ s.nodes r

theorem writable_of_leaf (h : ∀ v, s'.leaf r v = s.leaf r v) (a : Nat) :
    (s'.writable r a ↔ s.writable r a) ∧ s'.phys r a = s.phys r a := by
  unfold Vm.writable Vm.phys
  rw [h]
  exact ⟨Iff.rfl, rfl⟩

theorem copyoutLoop_round {Q : Int → Vm → Prop} (hva : va < 2 ^ 64) (hlen : 0 < src.length)
    (hbad : ¬ s.writable r va → Q (-1) s) (hok : s.writable r va →
      wp (copyoutLoop r n (add64 (PGROUNDDOWN va) PGSIZE) (src.drop (pieceLen va src.length))) E Q
        (s.put (PTE2PA (s.leaf r (vpn va))) ((s.mem (PTE2PA (s.leaf r (vpn va)))).blit
          (va - PGROUNDDOWN va) (src.take (pieceLen va src.length))))) :
    wp (copyoutLoop r (n + 1) va src) E Q s := by
  have hmax : PGROUNDDOWN va ≥ MAXVA ↔ ¬ va < MAXVA := by
    rw [ge_iff_le, ← Nat.not_lt, lt_MAXVA_iff, lt_MAXVA_iff, vpn_PGROUNDDOWN hva]
  unfold copyoutLoop
  rw [if_pos hlen]
  dsimp only
  by_cases hm : PGROUNDDOWN va ≥ MAXVA
  · rw [if_pos hm]
    exact hbad fun h => hmax.mp hm h.1
  · have hlt : va < MAXVA := by
      by_contra h
      exact hm (hmax.mpr h)
    rw [if_neg hm, wp_bind, wp_walk_read (Nat.lt_of_not_le hm), vpn_PGROUNDDOWN hva]
    cases hs : sv39.slot s.pte 2 r (vpn va) with
    | none =>
      refine hbad fun h => not_isValid_zero ?_
      have hv := h.2.1
      unfold Vm.leaf at hv
      rwa [Vm.leafAt_of_none hs] at hv
    | some x =>
      obtain ⟨pt, i⟩ := x
      have hleaf : s.pte pt i = s.leaf r (vpn va) := (Vm.leafAt_of_slot hs).symm
      dsimp only
      rw [wp_bind, wp_loadPte, hleaf, pieceLen_eq hva]
      by_cases hw : s.writable r va
      · rw [if_neg, wp_bind, wp_modify]
        · exact hok hw
        · rintro (h | h | h)
          · exact h hw.2.1
          · exact hw.2.2.1 h
          · exact hw.2.2.2 h
      · rw [if_pos]
        · exact hbad hw
        · by_contra hno
          simp only [not_or, not_not] at hno
          exact hw ⟨hlt, hno.1, hno.2.1, hno.2.2⟩

theorem copyoutLoop_bytes : ∀ {n : Nat} {s : Vm} {va : Nat} {src : List UInt8},
    va < 2 ^ 64 → src.length ≤ n → s.Apart r va src.length →
    wp (copyoutLoop r n va src) E (fun res s' =>
      res = (if ∀ a ∈ addrs va src.length, s.writable r a then 0 else -1) ∧
      s' = s.pokes (((stretch (s.writable r) va src.length).map (s.phys r)).zip src)) s := by
  intro n
  induction n with
  | zero =>
    intro s va src _ hn _
    obtain rfl : src = [] := List.length_eq_zero_iff.mp (Nat.le_zero.mp hn)
    exact ⟨rfl, rfl⟩
  | succ n ih =>
    intro s va src hva hn hap
    rcases Nat.eq_zero_or_pos src.length with hlen | hlen
    · obtain rfl : src = [] := List.length_eq_zero_iff.mp hlen
      unfold copyoutLoop
      exact ⟨rfl, rfl⟩
    · refine copyoutLoop_round hva hlen ?_ ?_
      · intro hw
        refine ⟨?_, ?_⟩
        · rw [if_neg]
          exact fun h => hw (h va (self_mem_addrs hva hlen))
        · rw [stretch_of_not hva hw]
          rfl
      · intro hw
        have hple : pieceLen va src.length ≤ src.length := pieceLen_le
        have htake : (src.take (pieceLen va src.length)).length = pieceLen va src.length :=
          List.length_take_of_le hple
        have hdrop : (src.drop (pieceLen va src.length)).length =
            src.length - pieceLen va src.length := List.length_drop
        obtain ⟨xs, hxs⟩ : ∃ xs, xs = ((addrs va (pieceLen va src.length)).map (s.phys r)).zip
          (src.take (pieceLen va src.length)) := ⟨_, rfl⟩
        have hput := pokes_piece (s := s) (r := r) hva htake
        rw [← hxs] at hput
        -- the piece lies outside the table, which reads as before
        have hnodes : ∀ q ∈ s.nodes r, (s.pokes xs).mem q = s.mem q := by
          intro q hq
          rw [hput, Vm.put_mem_of_ne]
          rintro rfl
          exact hap va (self_mem_addrs hva hlen) hw hq
        have hleaf : ∀ v, (s.pokes xs).leaf r v = s.leaf r v := fun v => Vm.leafAt_congr hnodes
        have hsame := writable_of_leaf hleaf
        have hsub : ∀ a ∈ addrs (add64 (PGROUNDDOWN va) PGSIZE) (src.length - pieceLen va src.length),
            a ∈ addrs va src.length := by
          intro a ha
          rw [addrs_piece hva]
          exact List.mem_append_right _ ha
        rw [← hput]
        refine wp_mono (ih (s := s.pokes xs) next_lt ?_ ?_) ?_
        · rw [hdrop]
          exact piece_fuel hlen hn
        · rw [hdrop]
          intro a ha hwa
          rw [(hsame a).2, show (s.pokes xs).nodes r = s.nodes r from Vm.nodesAt_congr hnodes]
          exact hap a (hsub a ha) ((hsame a).1.mp hwa)
        · rintro res s' ⟨hres, rfl⟩
          rw [hdrop] at hres ⊢
          refine ⟨hres.trans (if_congr ?_ rfl rfl), ?_⟩
          · constructor
            · intro h a ha
              rw [addrs_piece hva, List.mem_append] at ha
              rcases ha with ha | ha
              · exact (writable_congr (vpn_of_mem_piece hva ha)).mpr hw
              · exact (hsame a).1.mp (h a ha)
            · exact fun h a ha => (hsame a).1.mpr (h a (hsub a ha))
          · rw [stretch_congr fun a => (hsame a).1, funext fun a => (hsame a).2, ← pokes_append,
              stretch_of_pos (fun _ _ => writable_congr) hva hw, List.map_append, hxs,
              ← List.zip_append, List.take_append_drop]
            rw [List.length_map, length_addrs, htake]

/-- **`copyout`** stores the bytes one after the other up to the first address that is not
    writable, and says whether that was all, unless it writes to the table itself. -/
theorem copyout_eq (hva : va < 2 ^ 64) (hap : s.Apart r va src.length) :
    copyout r va src s = .ok (if ∀ a ∈ addrs va src.length, s.writable r a then 0 else -1,
      s.pokes (((stretch (s.writable r) va src.length).map (s.phys r)).zip src)) := by
  have hw : wp (copyout r va src) (fun _ => False) _ s := copyoutLoop_bytes hva le_rfl hap
  obtain ⟨a, s', h, h1, h2⟩ := run_of_wp hw
  rw [h, h1, h2]

/-- **The copies respect exactly the user's permissions**, for every page table, address and
    length: they succeed iff all of the range is readable or writable, and what they read or
    write are the bytes of the range, in order, from its start. For `copyout` this holds
    where no page it writes to is a page of the table. -/
theorem copies_respect_permissions {s : Vm} {va : Nat} (hva : va < 2 ^ 64) :
    (∀ len, ∃ ok bs m, copyin r va len s = .ok ((ok, bs), s) ∧
      (ok = true ↔ ∀ a ∈ addrs va len, s.readable r a) ∧ m ≤ len ∧ (ok = true → m = len) ∧
      bs = (addrs va m).map (s.byte r) ∧ ∀ a ∈ addrs va m, s.readable r a) ∧
    ∀ src, s.Apart r va src.length → ∃ res s' m, copyout r va src s = .ok (res, s') ∧
      (res = 0 ∨ res = -1) ∧ (res = 0 ↔ ∀ a ∈ addrs va src.length, s.writable r a) ∧
      m ≤ src.length ∧ (res = 0 → m = src.length) ∧
      s' = s.pokes (((addrs va m).map (s.phys r)).zip src) ∧ (∀ a ∈ addrs va m, s.writable r a) ∧
      ∀ q o, s'.mem q o ≠ s.mem q o → ∃ a ∈ addrs va m, s.phys r a = (q, o) := by
  constructor
  · intro len
    obtain ⟨m, hm, he, hstop⟩ := stretch_eq (s.readable r) va len
    have hall : ∀ a ∈ addrs va m, s.readable r a := fun a ha => of_mem_stretch (he ▸ ha)
    refine ⟨_, _, m, copyin_eq hva, decide_eq_true_iff, hm, fun h => ?_, ?_, hall⟩
    · by_contra hne
      have hlt := Nat.lt_of_le_of_ne hm hne
      exact hstop hlt (of_decide_eq_true h _ (mem_addrs.mpr ⟨m, hlt, rfl⟩))
    · unfold Vm.avail
      rw [he]
  · intro src hap
    obtain ⟨m, hm, he, hstop⟩ := stretch_eq (s.writable r) va src.length
    have hall : ∀ a ∈ addrs va m, s.writable r a := fun a ha => of_mem_stretch (he ▸ ha)
    have hout := copyout_eq hva hap
    rw [he] at hout
    have hiff : (if ∀ a ∈ addrs va src.length, s.writable r a then (0 : Int) else -1) = 0 ↔
        ∀ a ∈ addrs va src.length, s.writable r a := by
      split <;> simp_all
    refine ⟨_, _, m, hout, by split <;> simp, hiff, hm, fun h => ?_, rfl, hall, ?_⟩
    · by_contra hne
      have hlt := Nat.lt_of_le_of_ne hm hne
      exact hstop hlt (hiff.mp h _ (mem_addrs.mpr ⟨m, hlt, rfl⟩))
    · intro q o hne
      by_contra hno
      refine hne (pokes_mem_of_not ?_)
      rintro ⟨x, b⟩ hx hqo
      obtain ⟨a, ha, hax⟩ := List.mem_map.mp (List.of_mem_zip hx).1
      exact hno ⟨a, ha, hax.trans hqo⟩

/-- Nine bytes over the end of page 510. -/
theorem copies_respect_permissions_twoPages :
    (twoPages 0x80404000).Apart 0x80400000 0x1feff8 9 ∧ ∃ res s' m,
      copyout 0x80400000 0x1feff8 (List.replicate 9 7) (twoPages 0x80404000) = .ok (res, s') ∧
      (res = 0 ∨ res = -1) ∧
      (res = 0 ↔ ∀ a ∈ addrs 0x1feff8 9, (twoPages 0x80404000).writable 0x80400000 a) ∧
      m ≤ 9 ∧ (res = 0 → m = 9) ∧ s' = (twoPages 0x80404000).pokes
        (((addrs 0x1feff8 m).map ((twoPages 0x80404000).phys 0x80400000)).zip
          (List.replicate 9 7)) ∧
      (∀ a ∈ addrs 0x1feff8 m, (twoPages 0x80404000).writable 0x80400000 a) ∧
      ∀ q o, s'.mem q o ≠ (twoPages 0x80404000).mem q o →
        ∃ a ∈ addrs 0x1feff8 m, (twoPages 0x80404000).phys 0x80400000 a = (q, o) := by
  have hap : (twoPages 0x80404000).Apart 0x80400000 0x1feff8 9 := by
    unfold Vm.Apart
    decide +kernel
  exact ⟨hap, (copies_respect_permissions (by decide)).2 (List.replicate 9 7) hap⟩

/-- Where page 510 is the page of the table that maps both: all nine bytes are on pages a
    user may write to, but the first eight are the entry of page 511. -/
theorem copyout_unmaps_as_it_goes :
    (∀ a ∈ addrs 0x1feff8 9, (twoPages 0x80402000).writable 0x80400000 a) ∧
    (copyout 0x80400000 0x1feff8 (List.replicate 9 0) (twoPages 0x80402000)).toOption.map Prod.fst =
      some (-1) := by
  decide +kernel

theorem Space.apart {c : Board} {tf sz : Nat} (h : Space c s r tf sz)
    (ho : Own c s (s.space c r sz)) (va len : Nat) : s.Apart r va len := by
  intro a _ hw hn
  have hv : vpn a < pages sz := h.user_page (vpn_lt hw.1) hw.2.1 hw.2.2.1
  exact ho.disjoint hn (mem_user_of_lt hv)

end ZeptOS.Mem
