import ZeptOS.Log.Model

/-!
# The log header, in memory and on disk

Two small specifications. What `write_head` puts into the header block is what
`read_head` takes out of it (`headCount_fillHead`, `headBlock_fillHead`), whatever stale
numbers the block held. And what `log_write` does to the in-memory header is to add one
block number to a list without repetition, unless it is there (`record_cases`): the
absorption scan, stated without the scan.
-/

namespace ZeptOS.LogHeader

open Lib Lib.Bytes Function

variable {b : Nat} {block : Nat → Nat}

/-! ## The header block -/

theorem ld_putBlocks_of_lt {o : Nat} (ho : o + 4 ≤ 4) :
    ∀ {n : Nat} {hb : Block}, (putBlocks block n hb).ld o 4 = hb.ld o 4 := by
  intro n
  induction n with
  | zero => intro hb; rfl
  | succ n ih =>
    intro hb
    rw [putBlocks, ld_st_disj (Or.inl (by omega)), ih]

theorem headBlock_putBlocks : ∀ {n : Nat} {hb : Block} {i : Nat}, i < n →
      headBlock (putBlocks block n hb) i = block i % 2 ^ 32 := by
  intro n
  induction n with
  | zero => intro hb i hi; omega
  | succ n ih =>
    intro hb i hi
    unfold headBlock at *
    rw [putBlocks]
    by_cases h : i = n
    · subst h
      rw [ld_st_self, show 256 ^ 4 = 2 ^ 32 by norm_num]
    · rw [ld_st_disj (Or.inl (by omega)), ih (by omega)]

variable {lh : LogHeader}

theorem headCount_fillHead (h : lh.n < 2 ^ 31) (hb : Block) :
    headCount (lh.fillHead hb) = lh.n := by
  unfold headCount fillHead
  rw [ld_putBlocks_of_lt (by omega), ld_st_self, Nat.mod_eq_of_lt (by omega), if_pos h]

theorem headBlock_fillHead (hb : Block) {i : Nat} (hi : i < lh.n)
    (h : lh.block i < 2 ^ 32) : headBlock (lh.fillHead hb) i = lh.block i := by
  unfold fillHead
  rw [headBlock_putBlocks hi, Nat.mod_eq_of_lt h]

/-! ## The in-memory header -/

def Mem (lh : LogHeader) (b : Nat) : Prop := ∃ i, i < lh.n ∧ lh.block i = b

def Distinct (lh : LogHeader) : Prop :=
  ∀ i j, i < lh.n → j < lh.n → lh.block i = lh.block j → i = j

theorem scan_of_mem (h : lh.Mem b) : lh.scan b < lh.n ∧ lh.block (lh.scan b) = b := by
  obtain ⟨i, hi, hb⟩ := h
  unfold scan
  cases hf : (List.range lh.n).find? fun i => lh.block i == b with
  | none =>
    have := List.find?_eq_none.mp hf i (List.mem_range.mpr hi)
    exact absurd hb (by simpa using this)
  | some j =>
    have hj := List.mem_range.mp (List.mem_of_find?_eq_some hf)
    have hbj := List.find?_some hf
    exact ⟨hj, by simpa using hbj⟩

theorem scan_of_not_mem (h : ¬ lh.Mem b) : lh.scan b = lh.n := by
  unfold scan
  cases hf : (List.range lh.n).find? fun i => lh.block i == b with
  | none => rfl
  | some j =>
    have hj := List.mem_range.mp (List.mem_of_find?_eq_some hf)
    have hbj := List.find?_some hf
    exact absurd ⟨j, hj, by simpa using hbj⟩ h

/-- **Absorption.** Logging a block changes nothing if the block is logged, and else
    adds it as the last entry. -/
theorem record_cases (lh : LogHeader) (b : Nat) : (lh.Mem b ∧ lh.scan b ≠ lh.n ∧ lh.record b = lh) ∨
    (¬ lh.Mem b ∧ lh.scan b = lh.n ∧
      lh.record b = { n := lh.n + 1, block := update lh.block lh.n b }) := by
  by_cases h : lh.Mem b
  · obtain ⟨hlt, hb⟩ := scan_of_mem h
    have hne : lh.scan b ≠ lh.n := Nat.ne_of_lt hlt
    refine Or.inl ⟨h, hne, ?_⟩
    have hu : update lh.block (lh.scan b) b = lh.block := by
      funext i
      by_cases hi : i = lh.scan b
      · rw [hi, update_self, hb]
      · rw [update_of_ne hi]
    unfold record
    rw [if_neg hne, hu]
  · have he := scan_of_not_mem h
    refine Or.inr ⟨h, he, ?_⟩
    unfold record
    rw [he, if_pos rfl]

theorem mem_record {c : Nat} : (lh.record b).Mem c ↔ c = b ∨ lh.Mem c := by
  rcases record_cases lh b with ⟨hm, -, hr⟩ | ⟨-, -, hr⟩
  · rw [hr]
    constructor
    · exact Or.inr
    · rintro (rfl | h)
      · exact hm
      · exact h
  · rw [hr]
    constructor
    · rintro ⟨i, hi, hb⟩
      simp only at hi hb
      by_cases h : i = lh.n
      · subst h
        rw [update_self] at hb
        exact Or.inl hb.symm
      · rw [update_of_ne h] at hb
        exact Or.inr ⟨i, by omega, hb⟩
    · rintro (rfl | ⟨i, hi, hb⟩)
      · exact ⟨lh.n, by simp, by simp⟩
      · refine ⟨i, Nat.lt_succ_of_lt hi, ?_⟩
        show update lh.block lh.n b i = c
        rw [update_of_ne (Nat.ne_of_lt hi)]
        exact hb

theorem Distinct.record (h : lh.Distinct) (b : Nat) : (lh.record b).Distinct := by
  rcases record_cases lh b with ⟨-, -, hr⟩ | ⟨hm, -, hr⟩
  · rw [hr]; exact h
  · rw [hr]
    intro i j hi hj he
    simp only at hi hj he
    by_cases hin : i = lh.n
    · by_cases hjn : j = lh.n
      · rw [hin, hjn]
      · rw [hin, update_self, update_of_ne hjn] at he
        exact absurd ⟨j, by omega, he.symm⟩ hm
    · by_cases hjn : j = lh.n
      · rw [hjn, update_self, update_of_ne hin] at he
        exact absurd ⟨i, by omega, he⟩ hm
      · rw [update_of_ne hin, update_of_ne hjn] at he
        exact h i j (by omega) (by omega) he

theorem record_n_le (lh : LogHeader) (b : Nat) : (lh.record b).n ≤ lh.n + 1 := by
  rcases record_cases lh b with ⟨-, -, hr⟩ | ⟨-, -, hr⟩
  · rw [hr]; exact Nat.le_succ _
  · rw [hr]

end ZeptOS.LogHeader
