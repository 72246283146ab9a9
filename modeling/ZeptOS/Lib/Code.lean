import ZeptOS.Lib.Prog

/-!
# Code that leaves its operations open

A C function that locks, reads and writes what it shares with others is modelled as a tree:
`Code S α` calls operations of a signature `S`, goes on with their answers and returns an `α`.
What the operations do is said afterwards, and in two ways.

A handler makes a `Prog` of it: the function as it runs alone, from a state to a state (`run`).
And whatever the answers are, the calls themselves may keep to rules: a lock is given back, a
transaction is not begun twice. `Obeys` is that, a precondition over all answers. So what is proved
with `Obeys` holds however others interfere, as far as the rules allow for it, and what is proved of
`run` holds of what the function is for.
-/

namespace ZeptOS.Lib

structure Sig where
  Op : Type
  Ans : Op → Type

inductive Code (S : Sig) (α : Type) where
  | ret (a : α)
  | op (o : S.Op) (k : S.Ans o → Code S α)

namespace Code

variable {S : Sig} {α β : Type}

protected def bind : Code S α → (α → Code S β) → Code S β
  | .ret a, f => f a
  | .op o k, f => .op o fun r => (k r).bind f

instance : Monad (Code S) where
  pure := .ret
  bind := Code.bind

instance : LawfulMonad (Code S) := by
  refine LawfulMonad.mk' _ (fun x => ?_) (fun _ _ => rfl) fun x f g => ?_
  · induction x with
    | ret a => rfl
    | op o k ih => exact congrArg (Code.op o) (funext ih)
  · induction x with
    | ret a => rfl
    | op o k ih => exact congrArg (Code.op o) (funext ih)

def call (o : S.Op) : Code S (S.Ans o) := .op o .ret

@[simp] theorem op_bind (o : S.Op) (k : S.Ans o → Code S α) (f : α → Code S β) :
    (Code.op o k >>= f) = .op o fun r => k r >>= f := rfl

/-! ## Running alone -/

section Run

variable {σ π : Type} (h : (o : S.Op) → Prog σ π (S.Ans o))

def run : Code S α → Prog σ π α
  | .ret a => pure a
  | .op o k => h o >>= fun r => run (k r)

variable {E : π → Prop} {Q : α → σ → Prop} {s : σ}

theorem run_op (o : S.Op) (k : S.Ans o → Code S α) : run h (.op o k) s = match h o s with
    | .ok (r, s') => run h (k r) s'
    | .error e => .error e := by
  show (StateT.bind (h o) fun r => run h (k r)) s = _
  unfold StateT.bind
  cases h o s <;> rfl

end Run

/-! ## Rules that calls keep to -/

/-- What a caller has to know to tell which calls are allowed, and what it may know after one. -/
structure Rules (S : Sig) (γ : Type) where
  allow : γ → S.Op → Prop
  step : γ → (o : S.Op) → S.Ans o → γ → Prop

section Obeys

variable {γ : Type} (R : Rules S γ)

/-- Whatever is answered, only allowed calls are made, and `Q` holds at the return. -/
def Obeys : Code S α → (α → γ → Prop) → γ → Prop
  | .ret a, Q, g => Q a g
  | .op o k, Q, g => R.allow g o ∧ ∀ r g', R.step g o r g' → (k r).Obeys Q g'

variable {Q Q' : α → γ → Prop} {g : γ}

theorem obeys_op (o : S.Op) (k : S.Ans o → Code S α) : (Code.op o k).Obeys R Q g =
    (R.allow g o ∧ ∀ r g', R.step g o r g' → (k r).Obeys R Q g') := rfl

@[simp] theorem obeys_bind (x : Code S α) (f : α → Code S β) {Q : β → γ → Prop} :
    (x >>= f).Obeys R Q g = x.Obeys R (fun a => (f a).Obeys R Q) g := by
  induction x generalizing g with
  | ret a => rfl
  | op o k ih =>
    rw [op_bind, obeys_op, obeys_op]
    refine congrArg (R.allow g o ∧ ·) (forall_congr fun r => forall_congr fun g' => ?_)
    exact congrArg (R.step g o r g' → ·) (ih r)

theorem Obeys.mono {x : Code S α} (h : x.Obeys R Q g) (hQ : ∀ a g', Q a g' → Q' a g') :
    x.Obeys R Q' g := by
  induction x generalizing g with
  | ret a => exact hQ a g h
  | op o k ih => exact ⟨h.1, fun r g' hr => ih r (h.2 r g' hr)⟩

/-- **The rule for a call** of a function with a specification. -/
theorem Obeys.bind {x : Code S α} {f : α → Code S β} {Q' : β → γ → Prop} (h : x.Obeys R Q g)
    (hf : ∀ a g', Q a g' → (f a).Obeys R Q' g') : (x >>= f).Obeys R Q' g := by
  rw [obeys_bind]
  exact h.mono R hf

theorem Obeys.and {R' : Rules S γ} {x : Code S α} (h : x.Obeys R Q g) (h' : x.Obeys R' Q' g)
    (hs : ∀ g o r g', R.step g o r g' → R'.step g o r g') :
    x.Obeys R (fun a g => Q a g ∧ Q' a g) g := by
  induction x generalizing g with
  | ret a => exact ⟨h, h'⟩
  | op o k ih => exact ⟨h.1, fun r g' hr => ih r (h.2 r g' hr) (h'.2 r g' (hs _ _ _ _ hr))⟩

/-! ### A record beside the rules -/

variable {δ : Type} (after : δ → (o : S.Op) → S.Ans o → δ)

/-- The rules, with a record of the calls and their answers. -/
def Rules.noting : Rules S (γ × δ) where
  allow g o := R.allow g.1 o
  step g o r g' := R.step g.1 o r g'.1 ∧ g'.2 = after g.2 o r

theorem Obeys.noting {x : Code S α} (h : x.Obeys R Q g) (d : δ) :
    x.Obeys (R.noting after) (fun a g => Q a g.1) (g, d) := by
  induction x generalizing g d with
  | ret a => exact h
  | op o k ih =>
    refine ⟨h.1, ?_⟩
    rintro r ⟨g', d'⟩ ⟨hr, -⟩
    exact ih r (h.2 r g' hr) d'

end Obeys

end Code
end ZeptOS.Lib
