import Mathlib.Logic.Basic

/-!
# Runs of a system that may block or panic

A kernel is a system whose next step is chosen by its environment: which process runs,
what it asks for, when the power goes. Here a system is a function
`step : σ → α → Outcome σ π`, where `α` is what the environment chooses. A step goes on
to a new state, or is not enabled (the process would sleep), or panics; a run ends at a
panic, because the machine does.

`Reach` carries a predicate `ok` beside the step function. It is where a discipline of
the callers stands, and where the condition stands under which a defective step is
known not to be taken, so that "in every run whose steps all meet the condition" is one
definition and not a family of them.
-/

namespace ZeptOS.Lib

inductive Outcome (σ π : Type) where
  | next (s : σ)
  | blocked
  | panic (p : π)

variable {σ α π : Type}

/-- The states of the runs that start in `init` and take only steps `ok` admits. -/
inductive Reach (init : σ → Prop) (step : σ → α → Outcome σ π) (ok : σ → α → Prop) : σ → Prop
  | start {s : σ} (h : init s) : Reach init step ok s
  | step {s s' : σ} {a : α} (r : Reach init step ok s) (hok : ok s a)
      (hs : step s a = .next s') : Reach init step ok s'

variable {init : σ → Prop} {step : σ → α → Outcome σ π} {ok ok' : σ → α → Prop}

/-- **The induction over a run.** What holds at the start and survives every admitted
    step holds in every state reached. -/
theorem Reach.invariant {I : σ → Prop} (h0 : ∀ s, init s → I s)
    (hstep : ∀ s a s', I s → ok s a → step s a = .next s' → I s')
    {s : σ} (h : Reach init step ok s) : I s := by
  induction h with
  | start h => exact h0 _ h
  | step _ hok hs ih => exact hstep _ _ _ ih hok hs

/-- The same, where the step may use that the state is reached, and so what other
    invariants say of it. -/
theorem Reach.invariant_of {I : σ → Prop} (h0 : ∀ s, init s → I s)
    (hstep : ∀ s a s', Reach init step ok s → I s → ok s a → step s a = .next s' → I s')
    {s : σ} (h : Reach init step ok s) : I s := by
  induction h with
  | start h => exact h0 _ h
  | step hr hok hs ih => exact hstep _ _ _ hr ih hok hs

/-- Take a list of steps, if every one of them is admitted and enabled and none panics. -/
def exec (step : σ → α → Outcome σ π) (ok : σ → α → Prop) [∀ s a, Decidable (ok s a)] :
    σ → List α → Option σ
  | s, [] => some s
  | s, a :: as =>
    if ok s a then
      match step s a with
      | .next s' => exec step ok s' as
      | _ => none
    else none

theorem Reach.exec [∀ s a, Decidable (ok s a)] : ∀ {as : List α} {s s' : σ},
    Reach init step ok s → Lib.exec step ok s as = some s' → Reach init step ok s' := by
  intro as
  induction as with
  | nil =>
    intro s s' h he
    cases he
    exact h
  | cons a as ih =>
    intro s s' h he
    unfold Lib.exec at he
    split at he
    · rename_i hok
      split at he
      · rename_i s₁ hs
        exact ih (h.step hok hs) he
      · cases he
    · cases he

/-- A state with a property that can be computed is reached if some list of steps leads to one. -/
theorem Reach.exec_any [∀ s a, Decidable (ok s a)] {s₀ : σ} (h0 : init s₀) {as : List α}
    {q : σ → Bool} (hq : (Lib.exec step ok s₀ as).any q = true) :
    ∃ s, Reach init step ok s ∧ q s = true := by
  cases he : Lib.exec step ok s₀ as with
  | none =>
    rw [he] at hq
    cases hq
  | some s =>
    rw [he] at hq
    exact ⟨s, (Reach.start h0).exec he, hq⟩

/-! ## Systems with outputs

A driver is a function that takes a state and an input and gives a new state and an output. `feed`
is a run of it. One such machine simulates another if a relation between their states is kept by every
input and makes the outputs agree; then whole runs agree (`feed_simulates`), and since every state
that a run goes through is the last one of a shorter run, the relation holds in all of them.
-/

section

variable {τ ι ω : Type}

def feed (step : σ → ι → σ × ω) : σ → List ι → σ × List ω
  | s, [] => (s, [])
  | s, i :: is =>
    let (s', o) := step s i
    let (s'', os) := feed step s' is
    (s'', o :: os)

theorem feed_simulates {step : σ → ι → σ × ω} {spec : τ → ι → τ × ω} {R : σ → τ → Prop}
    {ok : ι → Prop}
    (h : ∀ s t i, R s t → ok i → R (step s i).1 (spec t i).1 ∧ (step s i).2 = (spec t i).2)
    {s : σ} {t : τ} (hst : R s t) {is : List ι} (hok : ∀ i ∈ is, ok i) :
    R (feed step s is).1 (feed spec t is).1 ∧ (feed step s is).2 = (feed spec t is).2 := by
  induction is generalizing s t with
  | nil => exact ⟨hst, rfl⟩
  | cons i is ih =>
    obtain ⟨hR, ho⟩ := h s t i hst (hok i (List.mem_cons_self))
    obtain ⟨hR', ho'⟩ := ih hR fun j hj => hok j (List.mem_cons_of_mem i hj)
    exact ⟨hR', congrArg₂ List.cons ho ho'⟩

end

end ZeptOS.Lib
