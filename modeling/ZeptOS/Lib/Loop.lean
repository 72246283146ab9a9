import Mathlib.Logic.Basic

/-!
# Loops that may not end

A C loop whose bound is in the data it reads (`while (*p != 0) p++`) is modelled as
`loop body fuel s`: at most `fuel` rounds of `body` from `s`. A round answers a value,
which ends the loop, or the state of the next round, or nothing at all, when a loop
inside it has not ended. `none` is never a value of the C function: a statement that the
function returns gives a bound and says that with that much fuel there is an answer.

`Rounds body k s s'` says that `k` rounds lead from `s` to `s'` with no answer yet. It is
the composable half of a loop's proof: one lemma a stretch of the data, glued with
`Rounds.trans`, and `Rounds.answer` at the end.
-/

namespace ZeptOS.Lib

variable {σ α : Type}

def loop (body : σ → Option (σ ⊕ α)) : Nat → σ → Option α
  | 0, _ => none
  | fuel + 1, s =>
    match body s with
    | none => none
    | some (.inl s') => loop body fuel s'
    | some (.inr a) => some a

inductive Rounds (body : σ → Option (σ ⊕ α)) : Nat → σ → σ → Prop
  | refl (s : σ) : Rounds body 0 s s
  | step {k : Nat} {s s' s'' : σ} (h : body s = some (.inl s')) (r : Rounds body k s' s'') :
      Rounds body (k + 1) s s''

variable {body : σ → Option (σ ⊕ α)} {j k fuel : Nat} {s s' s'' : σ} {a : α}

theorem Rounds.one (h : body s = some (.inl s')) : Rounds body 1 s s' := .step h (.refl _)

theorem Rounds.trans (h : Rounds body j s s') (h' : Rounds body k s' s'') :
    Rounds body (j + k) s s'' := by
  induction h with
  | refl => rwa [Nat.zero_add]
  | step hb _ ih =>
    rw [Nat.succ_add]
    exact .step hb (ih h')

theorem Rounds.loop_eq (h : Rounds body k s s') : loop body (k + fuel) s = loop body fuel s' := by
  induction h with
  | refl => rw [Nat.zero_add]
  | step hb _ ih =>
    rw [Nat.succ_add]
    simp only [loop, hb]
    exact ih

/-- **A loop that comes to an answer has it**, with fuel for one more round than led there. -/
theorem Rounds.answer (h : Rounds body k s s') (ha : body s' = some (.inr a)) (hf : k < fuel) :
    loop body fuel s = some a := by
  obtain ⟨n, rfl⟩ : ∃ n, fuel = k + (n + 1) := ⟨fuel - k - 1, by omega⟩
  rw [h.loop_eq]
  simp only [loop, ha]

theorem Rounds.of_forall {f : Nat → σ} : ∀ {k : Nat},
    (∀ i < k, body (f i) = some (.inl (f (i + 1)))) → Rounds body k (f 0) (f k) := by
  intro k
  induction k with
  | zero => intro _; exact .refl _
  | succ k ih =>
    intro h
    exact (ih fun i hi => h i (by omega)).trans (.one (h k (by omega)))

def Within (body : σ → Option (σ ⊕ α)) (w : Nat) (s s' : σ) : Prop := ∃ k ≤ w, Rounds body k s s'

variable {w w' : Nat}

theorem Rounds.within (h : Rounds body k s s') (hk : k ≤ w) : Within body w s s' := ⟨k, hk, h⟩

theorem Within.trans (h : Within body w s s') (h' : Within body w' s' s'') :
    Within body (w + w') s s'' := by
  obtain ⟨j, hj, r⟩ := h
  obtain ⟨k, hk, r'⟩ := h'
  exact ⟨j + k, by omega, r.trans r'⟩

theorem Within.answer (h : Within body w s s') (ha : body s' = some (.inr a)) (hf : w < fuel) :
    loop body fuel s = some a := by
  obtain ⟨k, hk, r⟩ := h
  exact r.answer ha (by omega)

def Answers (body : σ → Option (σ ⊕ α)) (w : Nat) (s : σ) (a : α) : Prop :=
  ∃ s', Within body w s s' ∧ body s' = some (.inr a)

theorem Answers.now (h : body s = some (.inr a)) : Answers body w s a :=
  ⟨s, (Rounds.refl s).within (Nat.zero_le _), h⟩

theorem Answers.after (h : Answers body w' s' a) (r : Within body w s s') :
    Answers body (w + w') s a := by
  obtain ⟨s'', r', ha⟩ := h
  exact ⟨s'', r.trans r', ha⟩

theorem Answers.mono (h : Answers body w s a) (hw : w ≤ w') : Answers body w' s a := by
  obtain ⟨s', ⟨k, hk, r⟩, ha⟩ := h
  exact ⟨s', ⟨k, by omega, r⟩, ha⟩

theorem Answers.loop_eq (h : Answers body w s a) (hf : w < fuel) : loop body fuel s = some a := by
  obtain ⟨s', r, ha⟩ := h
  exact r.answer ha hf

theorem Answers.drop (h : Answers body w s a) (r : Within body w' s s') : Answers body w s' a := by
  obtain ⟨k, -, r⟩ := r
  induction r with
  | refl => exact h
  | step hb _ ih =>
    refine ih ?_
    obtain ⟨t, ⟨j, hj, rt⟩, ha⟩ := h
    cases rt with
    | refl => rw [hb] at ha; cases ha
    | step hb' rt' =>
      rw [hb] at hb'
      cases hb'
      exact ⟨t, rt'.within (by omega), ha⟩

end ZeptOS.Lib
