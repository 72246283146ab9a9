import Mathlib.Tactic.ByContra

/-!
# Places that hold numbered units

A store gives out units from `lo` to `hi`; what has been given out is held in places, one unit in a
place and each unit in one place at most, and a map says which units are out. `Owned` says that
the map is right: a unit is marked exactly when it is below `lo`, where the store keeps its own, or
some place holds it. A place that holds `0` holds nothing. Which places there are is a predicate, since places come
and go with what they belong to.

The rules are for what a program does to such a store: take a free unit into an empty place, give up
everything that some places hold, and add places that are empty.
-/

namespace ZeptOS.Lib

variable {κ : Type}

structure Owned (lo hi : Nat) (P : κ → Prop) (ent : κ → Nat) (used : Nat → Bool) : Prop where
  pos : 0 < lo
  area : ∀ k, P k → ent k ≠ 0 → lo ≤ ent k ∧ ent k < hi
  once : ∀ k l, P k → P l → ent k = ent l → ent k ≠ 0 → k = l
  bits : ∀ b, b < hi → (used b = true ↔ b < lo ∨ ∃ k, P k ∧ ent k = b)

namespace Owned

variable {lo hi : Nat} {P P' : κ → Prop} {ent ent' : κ → Nat} {used used' : Nat → Bool}

theorem congr (h : Owned lo hi P ent used) (hP : ∀ k, P' k ↔ P k)
    (he : ∀ k, P k → ent' k = ent k) (hu : ∀ b, b < hi → used' b = used b) :
    Owned lo hi P' ent' used' where
  pos := h.pos
  area k hk h0 := by
    have hk' := (hP k).mp hk
    rw [he k hk'] at h0 ⊢
    exact h.area k hk' h0
  once k l hk hl := by
    have hk' := (hP k).mp hk
    have hl' := (hP l).mp hl
    rw [he k hk', he l hl']
    exact h.once k l hk' hl'
  bits b hb := by
    rw [hu b hb, h.bits b hb]
    refine or_congr_right (exists_congr fun k => ?_)
    rw [hP k]
    exact and_congr_right fun hk => by rw [he k hk]

theorem marked (h : Owned lo hi P ent used) {k : κ} (hk : P k) (h0 : ent k ≠ 0) :
    used (ent k) = true :=
  (h.bits _ (h.area k hk h0).2).mpr (.inr ⟨k, hk, rfl⟩)

theorem unmarked (h : Owned lo hi P ent used) {b : Nat} (hb : b < hi) (hu : used b = false) :
    lo ≤ b ∧ ∀ k, P k → ent k ≠ b := by
  have hn : ¬(b < lo ∨ ∃ k, P k ∧ ent k = b) := by
    rw [← h.bits b hb, hu]
    exact Bool.false_ne_true
  exact ⟨Nat.le_of_not_lt fun hlt => hn (.inl hlt), fun k hk he => hn (.inr ⟨k, hk, he⟩)⟩

/-- **A free unit is taken** into a place that held nothing. -/
theorem take [DecidableEq κ] (h : Owned lo hi P ent used) {k : κ} {a : Nat} (hk : P k)
    (h0 : ent k = 0) (ha : a < hi) (ha0 : a ≠ 0) (hu : used a = false)
    (he : ∀ l, P l → ent' l = if l = k then a else ent l)
    (hu' : ∀ b, b < hi → used' b = (decide (b = a) || used b)) : Owned lo hi P ent' used' := by
  obtain ⟨hlo, hnot⟩ := h.unmarked ha hu
  refine ⟨h.pos, fun l hl hne => ?_, fun l m hl hm heq hne => ?_, fun b hb => ?_⟩
  · rw [he l hl] at hne ⊢
    split at hne
    · next hlk =>
      rw [if_pos hlk]
      exact ⟨hlo, ha⟩
    · next hlk =>
      rw [if_neg hlk]
      exact h.area l hl hne
  · rw [he l hl] at heq hne
    rw [he m hm] at heq
    by_cases hlk : l = k <;> by_cases hmk : m = k
    · exact hlk.trans hmk.symm
    · rw [if_pos hlk, if_neg hmk] at heq
      exact absurd heq.symm (hnot m hm)
    · rw [if_neg hlk, if_pos hmk] at heq
      exact absurd heq (hnot l hl)
    · rw [if_neg hlk] at heq hne
      rw [if_neg hmk] at heq
      exact h.once l m hl hm heq hne
  · rw [hu' b hb, Bool.or_eq_true, decide_eq_true_eq, h.bits b hb]
    constructor
    · rintro (rfl | hlt | ⟨l, hl, rfl⟩)
      · exact .inr ⟨k, hk, by rw [he k hk, if_pos rfl]⟩
      · exact .inl hlt
      · by_cases hlk : l = k
        · subst hlk
          exact .inl (h0 ▸ h.pos)
        · exact .inr ⟨l, hl, by rw [he l hl, if_neg hlk]⟩
    · rintro (hlt | ⟨l, hl, rfl⟩)
      · exact .inr (.inl hlt)
      · rw [he l hl]
        split
        · exact .inl rfl
        · exact .inr (.inr ⟨l, hl, rfl⟩)

/-- **Some places give up what they hold**: they are gone, or hold nothing. -/
theorem drop {S : κ → Prop} (h : Owned lo hi P ent used)
    (hP : ∀ k, P' k → P k ∧ (S k → ent' k = 0) ∧ (¬S k → ent' k = ent k))
    (hstay : ∀ k, P k → ¬S k → P' k) (hu : ∀ b, b < hi → (used' b = true ↔
      used b = true ∧ ¬∃ k, P k ∧ S k ∧ ent k ≠ 0 ∧ ent k = b)) : Owned lo hi P' ent' used' := by
  have hkeep {k : κ} (hk : P' k) (h0 : ent' k ≠ 0) : P k ∧ ¬S k ∧ ent' k = ent k := by
    obtain ⟨hPk, hz, he⟩ := hP k hk
    have hS : ¬S k := fun hS => h0 (hz hS)
    exact ⟨hPk, hS, he hS⟩
  refine ⟨h.pos, fun k hk h0 => ?_, fun k l hk hl heq h0 => ?_, fun b hb => ?_⟩
  · obtain ⟨hPk, -, he⟩ := hkeep hk h0
    rw [he] at h0 ⊢
    exact h.area k hPk h0
  · obtain ⟨hPk, -, hek⟩ := hkeep hk h0
    obtain ⟨hPl, -, hel⟩ := hkeep hl (heq ▸ h0)
    rw [hek, hel] at heq
    exact h.once k l hPk hPl heq (hek ▸ h0)
  · rw [hu b hb, h.bits b hb]
    constructor
    · rintro ⟨hlt | ⟨k, hk, rfl⟩, hnot⟩
      · exact .inl hlt
      · by_cases h0 : ent k = 0
        · exact .inl (h0 ▸ h.pos)
        · have hS : ¬S k := fun hS => hnot ⟨k, hk, hS, h0, rfl⟩
          exact .inr ⟨k, hstay k hk hS, (hP k (hstay k hk hS)).2.2 hS⟩
    · rintro (hlt | ⟨k, hk, rfl⟩)
      · refine ⟨.inl hlt, ?_⟩
        rintro ⟨l, hl, -, hl0, rfl⟩
        exact absurd (h.area l hl hl0).1 (Nat.not_le_of_lt hlt)
      · by_cases h0 : ent' k = 0
        · rw [h0]
          refine ⟨.inl h.pos, ?_⟩
          rintro ⟨l, -, -, hl0, hl⟩
          exact hl0 hl
        · obtain ⟨hPk, hS, he⟩ := hkeep hk h0
          refine ⟨.inr ⟨k, hPk, he.symm⟩, ?_⟩
          rintro ⟨l, hl, hSl, hl0, hle⟩
          obtain rfl := h.once l k hl hPk (hle.trans he) hl0
          exact hS hSl

/-- **Places are added** that hold nothing. -/
theorem grow (h : Owned lo hi P ent used) (hold : ∀ k, P k → P' k ∧ ent' k = ent k)
    (hnew : ∀ k, P' k → ¬P k → ent' k = 0) (hu : ∀ b, b < hi → used' b = used b) :
    Owned lo hi P' ent' used' := by
  have hkeep {k : κ} (hk : P' k) (h0 : ent' k ≠ 0) : P k ∧ ent' k = ent k := by
    have hPk : P k := by
      by_contra hn
      exact h0 (hnew k hk hn)
    exact ⟨hPk, (hold k hPk).2⟩
  refine ⟨h.pos, fun k hk h0 => ?_, fun k l hk hl heq h0 => ?_, fun b hb => ?_⟩
  · obtain ⟨hPk, he⟩ := hkeep hk h0
    rw [he] at h0 ⊢
    exact h.area k hPk h0
  · obtain ⟨hPk, hek⟩ := hkeep hk h0
    obtain ⟨hPl, hel⟩ := hkeep hl (heq ▸ h0)
    rw [hek, hel] at heq
    exact h.once k l hPk hPl heq (hek ▸ h0)
  · rw [hu b hb, h.bits b hb]
    constructor
    · rintro (hlt | ⟨k, hk, rfl⟩)
      · exact .inl hlt
      · exact .inr ⟨k, (hold k hk).1, (hold k hk).2⟩
    · rintro (hlt | ⟨k, hk, rfl⟩)
      · exact .inl hlt
      · by_cases h0 : ent' k = 0
        · exact .inl (h0 ▸ h.pos)
        · obtain ⟨hPk, he⟩ := hkeep hk h0
          exact .inr ⟨k, hPk, he.symm⟩

end Owned
end ZeptOS.Lib
