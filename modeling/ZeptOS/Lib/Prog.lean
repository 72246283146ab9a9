import Mathlib.Logic.Basic

/-!
# Programs that change a state or panic

C functions of a kernel are modelled as `Prog σ π α`: they take a state and answer a
value and a new state, or panic. `wp x E Q s` is what has to hold of `s` for the run of
`x` from it to end in `Q`, or to panic only in the ways `E` admits; a specification is
an implication with a `wp` on its right, and `E := fun _ => False` says that no panic is
reachable. The rules below are equations wherever they can be, so that `simp` runs
straight-line code and stops at the calls, and a call is passed with `wp_call` and the
callee's specification.
-/

namespace ZeptOS.Lib

abbrev Prog (σ π : Type) := StateT σ (Except π)

namespace Prog

variable {σ π α β : Type}

def wp (x : Prog σ π α) (E : π → Prop) (Q : α → σ → Prop) (s : σ) : Prop :=
  match x s with
  | .ok (a, s') => Q a s'
  | .error e => E e

variable {E : π → Prop} {Q R : α → σ → Prop} {s : σ}

@[simp] theorem wp_pure (a : α) : wp (pure a : Prog σ π α) E Q s = Q a s := rfl

@[simp] theorem wp_bind (x : Prog σ π α) (f : α → Prog σ π β) {Q : β → σ → Prop} :
    wp (x >>= f) E Q s = wp x E (fun a => wp (f a) E Q) s := by
  have hb : (x >>= f) s = match x s with
      | .ok (a, s') => f a s'
      | .error e => .error e := by
    show (StateT.bind x f) s = _
    unfold StateT.bind
    cases x s with
    | ok r => rfl
    | error e => rfl
  unfold wp
  rw [hb]
  cases x s with
  | ok r => rfl
  | error e => rfl

@[simp] theorem wp_get {Q : σ → σ → Prop} : wp (get : Prog σ π σ) E Q s = Q s s := rfl

@[simp] theorem wp_set (t : σ) {Q : PUnit → σ → Prop} :
    wp (set t : Prog σ π PUnit) E Q s = Q ⟨⟩ t := rfl

@[simp] theorem wp_modify (f : σ → σ) {Q : PUnit → σ → Prop} :
    wp (modify f : Prog σ π PUnit) E Q s = Q ⟨⟩ (f s) := rfl

@[simp] theorem wp_throw (e : π) : wp (throw e : Prog σ π α) E Q s = E e := rfl

theorem wp_mono {x : Prog σ π α} (h : wp x E R s) (hRQ : ∀ a s', R a s' → Q a s') : wp x E Q s := by
  unfold wp at *
  split at h
  · exact hRQ _ _ h
  · exact h

theorem wp_conseq {E' : π → Prop} {x : Prog σ π α} (h : wp x E' R s) (hE : ∀ e, E' e → E e)
    (hRQ : ∀ a s', R a s' → Q a s') : wp x E Q s := by
  unfold wp at *
  split at h
  · exact hRQ _ _ h
  · exact hE _ h

theorem wp_and {E' : π → Prop} {x : Prog σ π α} (h : wp x E Q s) (h' : wp x E' R s) :
    wp x (fun e => E e ∧ E' e) (fun a s' => Q a s' ∧ R a s') s := by
  unfold wp at *
  split at h
  · rename_i he
    rw [he] at h'
    exact ⟨h, h'⟩
  · rename_i he
    rw [he] at h'
    exact ⟨h, h'⟩

/-- **The rule for a call**: with the callee's specification, what is left is the rest. -/
theorem wp_call {x : Prog σ π α} {f : α → Prog σ π β} {Q : β → σ → Prop} (h : wp x E R s)
    (hf : ∀ a s', R a s' → wp (f a) E Q s') : wp (x >>= f) E Q s := by
  rw [wp_bind]
  exact wp_mono h hf

theorem run_of_wp {x : Prog σ π α} (h : wp x (fun _ => False) Q s) :
    ∃ a s', x s = .ok (a, s') ∧ Q a s' := by
  unfold wp at h
  split at h
  · rename_i a s' he
    exact ⟨a, s', he, h⟩
  · exact h.elim

theorem post_of_run {x : Prog σ π α} {a : α} {s' : σ} (h : wp x E Q s) (hrun : x s = .ok (a, s')) :
    Q a s' := by
  unfold wp at h
  rw [hrun] at h
  exact h

theorem run_bind {x : Prog σ π α} {f : α → Prog σ π β} {a : α} {s' : σ} (h : x s = .ok (a, s')) :
    (x >>= f) s = f a s' := by
  show (StateT.bind x f) s = _
  unfold StateT.bind
  rw [h]
  rfl

theorem error_of_wp {x : Prog σ π α} {e : π} (h : wp x (fun e' => e' = e) (fun _ _ => False) s) :
    x s = .error e := by
  unfold wp at h
  split at h
  · exact h.elim
  · rename_i he
    rw [he, h]

theorem wp_run {x : Prog σ π α} (h : wp x E Q s) :
    wp x E (fun a s' => Q a s' ∧ x s = .ok (a, s')) s := by
  unfold wp at *
  split at h
  · exact ⟨h, by assumption⟩
  · exact h

theorem wp_of_run {x : Prog σ π α} {a : α} {s' : σ} (h : x s = .ok (a, s')) (hQ : Q a s') :
    wp x E Q s := by
  unfold wp
  rw [h]
  exact hQ

theorem ok_of_map {x : Prog σ π α} {f : α × σ → β} {b : β} (h : (x s).map f = .ok b) :
    ∃ a s', x s = .ok (a, s') ∧ f (a, s') = b := by
  cases hx : x s with
  | error e =>
    rw [hx] at h
    cases h
  | ok r =>
    rw [hx] at h
    exact ⟨r.1, r.2, rfl, Except.ok.inj h⟩

end Prog
end ZeptOS.Lib
