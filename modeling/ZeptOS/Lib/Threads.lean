import Mathlib.Logic.Function.Basic
import Mathlib.Logic.Relation
import ZeptOS.Lib.Code

/-!
# Threads that make calls over one state

Every thread is between calls or somewhere inside the code of one, and a step is an operation of one
of them. What a thread may do is told by `Rules` over what it knows and owns; a `Contract` says
that the rules are right: an invariant ties the state to what all threads own, and an
operation that the rules allow keeps it and leaves to the others what is theirs.

`Contract.of_reach` is the rule that comes out of it. If every call keeps to the rules when it
is the only thing looked at (`Obeys`), then in every state that any interleaving reaches the invariant
holds, and every thread is at a point from which it keeps to the rules.

A thread may be off: not running and not to be started. That is the one case in which somebody else
may hand it something.
-/

namespace ZeptOS.Lib

open Function

variable {S : Sig} {T σ ι α γ : Type}

structure Machine (S : Sig) (T σ ι α : Type) where
  /-- the operation of a thread, its answer and the state after it -/
  exec : T → σ → (o : S.Op) → S.Ans o → σ → Prop
  code : ι → Code S α
  /-- the calls that a thread may make -/
  start : T → σ → ι → Prop
  /-- what happens to a thread between calls -/
  idle : T → σ → σ → Prop

/-- The state, and for every thread the call that it is in and what is left of its code. -/
structure Machine.Config (S : Sig) (T σ ι α : Type) where
  state : σ
  thread : T → Option (ι × Code S α)

namespace Machine

variable [DecidableEq T] (M : Machine S T σ ι α)

inductive Step : Config S T σ ι α → Config S T σ ι α → Prop
  | call {s : σ} {th : T → Option (ι × Code S α)} {t : T} {i : ι} (h : th t = none)
      (hi : M.start t s i) : Step ⟨s, th⟩ ⟨s, Function.update th t (some (i, M.code i))⟩
  | op {s s' : σ} {th : T → Option (ι × Code S α)} {t : T} {i : ι} {o : S.Op}
      {k : S.Ans o → Code S α} {r : S.Ans o} (h : th t = some (i, .op o k))
      (ho : M.exec t s o r s') : Step ⟨s, th⟩ ⟨s', Function.update th t (some (i, k r))⟩
  | ret {s : σ} {th : T → Option (ι × Code S α)} {t : T} {i : ι} {a : α}
      (h : th t = some (i, .ret a)) : Step ⟨s, th⟩ ⟨s, Function.update th t none⟩
  | idle {s s' : σ} {th : T → Option (ι × Code S α)} {t : T} (h : th t = none)
      (hs : M.idle t s s') : Step ⟨s, th⟩ ⟨s', th⟩

/-- What can be reached from a state in which no thread is in a call. -/
def Reach (s : σ) : Config S T σ ι α → Prop :=
  Relation.ReflTransGen M.Step ⟨s, fun _ => none⟩

/-! ## One thread, while the others stand still -/

section Alone

variable {M} {π : Type} {h : (o : S.Op) → Prog σ π (S.Ans o)} {t : T} {s₀ s s' : σ} {i : ι}
  {c : Code S α} {th : T → Option (ι × Code S α)}

theorem Reach.run (hM : ∀ o s r s', h o s = .ok (r, s') → M.exec t s o r s') {a : α}
    (hr : M.Reach s₀ ⟨s, th⟩) (ht : th t = some (i, c)) (hc : c.run h s = .ok (a, s')) :
    M.Reach s₀ ⟨s', update th t (some (i, .ret a))⟩ := by
  induction c generalizing s th with
  | ret b =>
    obtain ⟨rfl, rfl⟩ := Prod.mk.inj (Except.ok.inj hc)
    rwa [← ht, update_eq_self]
  | op o k ih =>
    rw [Code.run_op] at hc
    split at hc
    · next r s₁ ho =>
      have h₁ := Relation.ReflTransGen.tail hr (Step.op ht (hM o s r s₁ ho))
      have h₂ := ih r h₁ (update_self ..) hc
      rwa [update_idem] at h₂
    · exact nomatch hc

theorem Reach.stop (hM : ∀ o s r s', h o s = .ok (r, s') → M.exec t s o r s') {e : π}
    (hr : M.Reach s₀ ⟨s, th⟩) (ht : th t = some (i, c)) (hc : c.run h s = .error e) :
    ∃ o k s', M.Reach s₀ ⟨s', update th t (some (i, .op o k))⟩ ∧ h o s' = .error e := by
  induction c generalizing s th with
  | ret b => exact nomatch hc
  | op o k ih =>
    rw [Code.run_op] at hc
    split at hc
    · next r s₁ ho =>
      have h₁ := Relation.ReflTransGen.tail hr (Step.op ht (hM o s r s₁ ho))
      obtain ⟨o', k', s', h₂, he⟩ := ih r h₁ (update_self ..) hc
      rw [update_idem] at h₂
      exact ⟨o', k', s', h₂, he⟩
    · next e' he =>
      obtain rfl := Except.error.inj hc
      exact ⟨o, k, s, by rwa [← ht, update_eq_self], he⟩

theorem Reach.call (hM : ∀ o s r s', h o s = .ok (r, s') → M.exec t s o r s') {a : α}
    (hr : M.Reach s₀ ⟨s, th⟩) (ht : th t = none) (hi : M.start t s i)
    (hc : (M.code i).run h s = .ok (a, s')) : M.Reach s₀ ⟨s', th⟩ := by
  have h₁ := Relation.ReflTransGen.tail hr (Step.call ht hi)
  have h₂ := Reach.run hM h₁ (update_self ..) hc
  rw [update_idem] at h₂
  have h₃ := Relation.ReflTransGen.tail h₂ (Step.ret (update_self ..))
  have hth : update th t none = th := by rw [← ht, update_eq_self]
  rwa [update_idem, hth] at h₃

end Alone

end Machine

open Machine

structure Contract (M : Machine S T σ ι α) (γ : Type) where
  rules : ι → Code.Rules S γ
  /-- between calls -/
  rest : γ → Prop
  off : γ → Prop
  inv : σ → (T → γ) → Prop
  start : ∀ {s G t i}, inv s G → rest (G t) → M.start t s i →
    ¬off (G t) ∧ (M.code i).Obeys (rules i) (fun _ => rest) (G t)
  step : ∀ {s G t i o r s'}, inv s G → ¬off (G t) → (rules i).allow (G t) o →
    M.exec t s o r s' →
    ∃ G' : T → γ, inv s' G' ∧ (rules i).step (G t) o r (G' t) ∧ ¬off (G' t) ∧
      ∀ u, u ≠ t → G' u = G u ∨ off (G u) ∧ rest (G' u)
  idle : ∀ {s G t s'}, inv s G → rest (G t) → M.idle t s s' →
    ∃ G' : T → γ, inv s' G' ∧ rest (G' t) ∧ ∀ u, u ≠ t → G' u = G u

namespace Contract

variable {M : Machine S T σ ι α} (D : Contract M γ)

def Keeps (g : γ) : Option (ι × Code S α) → Prop
  | none => D.rest g
  | some (i, c) => ¬D.off g ∧ c.Obeys (D.rules i) (fun _ => D.rest) g

structure Ok (c : Config S T σ ι α) (G : T → γ) : Prop where
  inv : D.inv c.state G
  keeps : ∀ t, D.Keeps (G t) (c.thread t)

variable {D} {c c' : Config S T σ ι α} {G : T → γ}

theorem Keeps.of_off {g : γ} {x : Option (ι × Code S α)} (h : D.Keeps g x) (ho : D.off g) :
    x = none := by
  cases x with
  | none => rfl
  | some c => exact absurd ho h.1

theorem Keeps.of_other {g g' : γ} {x : Option (ι × Code S α)} (h : D.Keeps g x)
    (hg : g' = g ∨ D.off g ∧ D.rest g') : D.Keeps g' x := by
  rcases hg with rfl | ⟨ho, hr⟩
  · exact h
  · rw [h.of_off ho]
    exact hr

theorem Ok.allow (h : D.Ok c G) {t : T} {i : ι} {o : S.Op} {k : S.Ans o → Code S α}
    (ht : c.thread t = some (i, .op o k)) : (D.rules i).allow (G t) o := by
  have hk := h.keeps t
  rw [ht] at hk
  exact hk.2.1

theorem Ok.rest (h : D.Ok c G) {t : T} (ht : c.thread t = none) : D.rest (G t) := by
  have hk := h.keeps t
  rwa [ht] at hk

variable [DecidableEq T]

theorem Ok.step (h : D.Ok c G) (hs : M.Step c c') : ∃ G', D.Ok c' G' := by
  cases hs with
  | @call s th t i ht hc =>
    refine ⟨G, h.inv, fun u => ?_⟩
    by_cases hu : u = t
    · subst hu
      simp only [update_self]
      exact D.start h.inv (h.rest ht) hc
    · simpa only [update_of_ne hu] using h.keeps u
  | @op s s' th t i o k r ht ho =>
    have hk := h.keeps t
    simp only [ht] at hk
    obtain ⟨G', hi, hr, hoff, hu⟩ := D.step h.inv hk.1 hk.2.1 ho
    refine ⟨G', hi, fun u => ?_⟩
    by_cases hut : u = t
    · subst hut
      simp only [update_self]
      exact ⟨hoff, hk.2.2 r (G' u) hr⟩
    · simpa only [update_of_ne hut] using (h.keeps u).of_other (hu u hut)
  | @ret s th t i a ht =>
    have hk := h.keeps t
    simp only [ht] at hk
    refine ⟨G, h.inv, fun u => ?_⟩
    by_cases hu : u = t
    · subst hu
      simp only [update_self]
      exact hk.2
    · simpa only [update_of_ne hu] using h.keeps u
  | @idle s s' th t ht hs =>
    obtain ⟨G', hi, hr, hu⟩ := D.idle h.inv (h.rest ht) hs
    refine ⟨G', hi, fun u => ?_⟩
    by_cases hut : u = t
    · subst hut
      simp only [ht]
      exact hr
    · exact (h.keeps u).of_other (.inl (hu u hut))

/-- **The rule**: in every interleaving. -/
theorem of_reach {s : σ} (hs : D.inv s G) (hr : ∀ t, D.rest (G t)) (h : M.Reach s c) :
    ∃ G', D.Ok c G' := by
  induction h with
  | refl => exact ⟨G, hs, hr⟩
  | tail _ hstep ih =>
    obtain ⟨G', hG'⟩ := ih
    exact hG'.step hstep

end Contract
end ZeptOS.Lib
