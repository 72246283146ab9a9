import Mathlib.Algebra.Order.Group.Multiset
import ZeptOS.Lib.Code

/-!
# What a function takes and what it gives

When what a caller owns are tokens that no one else has, the rules for a call speak of the few tokens
that the call is about, and whatever else is owned stays as it is. `Triple` builds that in: it
holds beside every frame `F`, so a specification is stated for the tokens that the function uses and is
used among any others.

A function may not be callable beside every frame, as one that must not be called with a lock. `ok`
says which tokens may be in it.
-/

namespace ZeptOS.Lib.Code

open Multiset

variable {S : Sig} {ρ ε α β : Type}

/-! ## What is among the tokens -/

variable {T : Multiset ρ}

@[simp]
theorem pair_le {a b : ρ} (hab : a ≠ b) : a ::ₘ {b} ≤ T ↔ a ∈ T ∧ b ∈ T := by
  rw [cons_le_of_notMem (by simpa using hab), singleton_le]

@[simp]
theorem nothing_le (T : Multiset ρ) : 0 ≤ T := zero_le T

@[simp]
theorem le_cons_one (a : ρ) (T : Multiset ρ) : T ≤ a ::ₘ T := le_cons_self T a

@[simp]
theorem le_cons_two (a b : ρ) (T : Multiset ρ) : T ≤ a ::ₘ b ::ₘ T :=
  (le_cons_self T b).trans (le_cons_self _ a)

/-! ## Triples -/

/-- From `P`, beside any frame of `ok` tokens, the calls are allowed, and `Q` holds of what is left. -/
def Triple (R : Rules S (Multiset ρ × ε)) (ok : ρ → Prop) (P : Multiset ρ) (e : ε) (c : Code S α)
    (Q : α → Multiset ρ → ε → Prop) : Prop :=
  ∀ F : Multiset ρ, (∀ r ∈ F, ok r) →
    c.Obeys R (fun a g => ∃ T, g.1 = T + F ∧ Q a T g.2) (P + F, e)

/-- A triple in which what is left depends on the result only. -/
abbrev Spends (R : Rules S (Multiset ρ × ε)) (ok : ρ → Prop) (P : Multiset ρ) (e : ε)
    (c : Code S α) (X : α → Multiset ρ) : Prop :=
  Triple R ok P e c fun a T e' => T = X a ∧ e' = e

variable {R : Rules S (Multiset ρ × ε)} {ok ok' : ρ → Prop} {P P' F : Multiset ρ} {e : ε}
  {c : Code S α} {f : α → Code S β} {Q Q' : α → Multiset ρ → ε → Prop}
  {Q₁ : β → Multiset ρ → ε → Prop} {X : α → Multiset ρ}

theorem Triple.pure {a : α} (h : Q a P e) : Triple R ok P e (Pure.pure a) Q :=
  fun _ _ => ⟨P, rfl, h⟩

theorem spends_pure {a : α} : Spends R ok P e (Pure.pure a) fun _ => P := Triple.pure ⟨rfl, rfl⟩

theorem Triple.mono (h : Triple R ok P e c Q) (hQ : ∀ a T e', Q a T e' → Q' a T e') :
    Triple R ok P e c Q' := by
  intro F hF
  refine (h F hF).mono R ?_
  rintro a g ⟨T, hT, hq⟩
  exact ⟨T, hT, hQ a T g.2 hq⟩

theorem Triple.weaken (h : Triple R ok P e c Q) (ho : ∀ r, ok' r → ok r) : Triple R ok' P e c Q :=
  fun F hF => h F fun r hr => ho r (hF r hr)

theorem Triple.bind (h : Triple R ok P e c Q)
    (hf : ∀ a T e', Q a T e' → Triple R ok T e' (f a) Q₁) : Triple R ok P e (c >>= f) Q₁ := by
  intro F hF
  refine (h F hF).bind R ?_
  rintro a ⟨G, e'⟩ ⟨T, rfl, hq⟩
  exact hf a T e' hq F hF

/-- **The frame rule.** -/
theorem Triple.frame (h : Triple R ok P e c Q) (hF : ∀ r ∈ F, ok r) :
    Triple R ok (P + F) e c fun a T e' => ∃ T', T = T' + F ∧ Q a T' e' := by
  intro F' hF'
  have hok : ∀ r ∈ F + F', ok r := fun r hr => (mem_add.mp hr).elim (hF r) (hF' r)
  rw [add_assoc]
  refine (h (F + F') hok).mono R ?_
  rintro a ⟨G, e'⟩ ⟨T, rfl, hq⟩
  exact ⟨T + F, (add_assoc T F F').symm, T, rfl, hq⟩

theorem Triple.call (h : Triple R ok P e c Q) (hP : P' = P + F) (hF : ∀ r ∈ F, ok r)
    (ho : ∀ r, ok' r → ok r) (hf : ∀ a T e', Q a T e' → Triple R ok' (T + F) e' (f a) Q₁) :
    Triple R ok' P' e (c >>= f) Q₁ := by
  subst hP
  refine ((h.frame hF).weaken ho).bind ?_
  rintro a T e' ⟨T', rfl, hq⟩
  exact hf a T' e' hq

theorem Triple.anywhere (h : Triple R (fun _ => True) P e c Q) (hP : P' = P + F)
    (hf : ∀ a T e', Q a T e' → Triple R ok (T + F) e' (f a) Q₁) : Triple R ok P' e (c >>= f) Q₁ :=
  Triple.call h hP (fun _ _ => trivial) (fun _ _ => trivial) hf

theorem Spends.call (h : Spends R (fun _ => True) P e c X) (hP : P' = P + F)
    (hf : ∀ a, Triple R ok (X a + F) e (f a) Q₁) : Triple R ok P' e (c >>= f) Q₁ := by
  refine Triple.anywhere h hP ?_
  rintro a T e' ⟨rfl, rfl⟩
  exact hf a

theorem Spends.keeps (h : Spends R (fun _ => True) P e c fun _ => P)
    (hP : P ≤ T) (hf : ∀ a, Triple R ok T e (f a) Q₁) : Triple R ok T e (c >>= f) Q₁ := by
  obtain ⟨F, rfl⟩ := exists_add_of_le hP
  exact h.call rfl hf

theorem Spends.gains (h : Spends R (fun _ => True) 0 e c X)
    (hf : ∀ a, Triple R ok (X a + P) e (f a) Q₁) : Triple R ok P e (c >>= f) Q₁ :=
  h.call (zero_add P).symm hf

theorem Spends.drops (h : Spends R (fun _ => True) P e c fun _ => 0)
    (hf : ∀ a, Triple R ok T e (f a) Q₁) : Triple R ok (P + T) e (c >>= f) Q₁ := by
  refine h.call rfl fun a => ?_
  rw [zero_add]
  exact hf a

theorem Spends.within (h : Spends R ok P e c X) (hP : P' = P + F) (hF : ∀ r ∈ F, ok r)
    (hf : ∀ a, Triple R ok (X a + F) e (f a) Q₁) : Triple R ok P' e (c >>= f) Q₁ := by
  refine Triple.call h hP hF (fun _ h => h) ?_
  rintro a T e' ⟨rfl, rfl⟩
  exact hf a

theorem Spends.last (h : Spends R (fun _ => True) P e c X) (hP : P' = P + F)
    (hq : ∀ a, Q a (X a + F) e) : Triple R ok P' e c Q := by
  subst hP
  refine (h.frame fun _ _ => trivial).weaken (fun _ _ => trivial) |>.mono ?_
  rintro a T e' ⟨T', rfl, rfl, rfl⟩
  exact hq a

theorem Spends.keeps_last (h : Spends R (fun _ => True) P e c fun _ => P)
    (hP : P ≤ T) (hq : ∀ a, Q a T e) : Triple R ok T e c Q := by
  obtain ⟨F, rfl⟩ := exists_add_of_le hP
  exact h.last rfl hq

theorem Spends.drops_last (h : Spends R (fun _ => True) P e c fun _ => 0)
    (hq : ∀ a, Q a T e) : Triple R ok (P + T) e c Q := by
  refine h.last rfl fun a => ?_
  rw [zero_add]
  exact hq a

theorem Triple.obeys (h : Triple R ok P e c Q) : c.Obeys R (fun a g => Q a g.1 g.2) (P, e) := by
  have h₀ := h 0 (by simp)
  rw [add_zero] at h₀
  refine h₀.mono R ?_
  rintro a g ⟨T, hT, hq⟩
  rwa [hT, add_zero]

theorem Triple.op {o : S.Op} {Q : S.Ans o → Multiset ρ → ε → Prop}
    (ha : ∀ F : Multiset ρ, (∀ r ∈ F, ok r) → R.allow (P + F, e) o)
    (hs : ∀ (F : Multiset ρ) (r : S.Ans o) (g : Multiset ρ × ε), (∀ r ∈ F, ok r) →
      R.step (P + F, e) o r g → ∃ T, g.1 = T + F ∧ Q r T g.2) : Triple R ok P e (Code.call o) Q :=
  fun F hF => ⟨ha F hF, fun r g hr => hs F r g hF hr⟩

/-! ## Moving tokens -/

def Moves (take give : Multiset ρ) (g g' : Multiset ρ × ε) : Prop :=
  ∃ T, g.1 = take + T ∧ g'.1 = give + T ∧ g'.2 = g.2

end ZeptOS.Lib.Code
