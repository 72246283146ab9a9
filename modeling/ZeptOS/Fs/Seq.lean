import ZeptOS.Fs.State

/-!
# A process with nobody else in the file system

`seq E p` are the rules under which a process runs alone: an operation may be called in a state if,
whatever is answered from outside, it answers or stops in a way that `E` allows, and the state after
it is what `perform` says. `Obeys` of these rules is then a weakest precondition, and the rules below
run straight-line code: each operation is an equation under what it asks of the state.
-/

namespace ZeptOS.Fs

open Lib Lib.Code

variable {o : Op}

/-- What a run may meet: how it may stop, and what `copyin` may answer. -/
structure Env where
  stops : Stop → Prop
  copyin : Nat → Nat → Copied → Prop

def Env.Admits (E : Env) (ω : Oracle) : Op → Prop
  | .copyin src n => E.copyin src n ω.copyin
  | _ => True

/-- Nothing may stop the run, and the user's memory is whatever it is. -/
def anyMemory : Env := ⟨fun _ => False, fun _ _ _ => True⟩

def seq (E : Env) (p : Proc) : Rules sig State where
  allow s o := ∀ ω e, E.Admits ω o → perform ω p s o = .error e → E.stops e
  step s o r s' := ∃ ω, E.Admits ω o ∧ perform ω p s o = .ok (r, s')

/-- Run alone from `s`, the code ends with `Q`, or stops in a way that `E` allows. -/
def Does {α : Type} (E : Env) (p : Proc) (x : FsM α) (Q : α → State → Prop) (s : State) :
    Prop :=
  x.Obeys (seq E p) Q s

variable {Q : Unit → State → Prop}

section Rules

variable {E : Env} {p : Proc} {s : State} {α β : Type}

theorem does_pure {a : α} {Q : α → State → Prop} : Does E p (pure a) Q s ↔ Q a s := Iff.rfl

theorem does_bind {x : FsM α} {f : α → FsM β} {Q : β → State → Prop} :
    Does E p (x >>= f) Q s ↔ Does E p x (fun a => Does E p (f a) Q) s :=
  Iff.of_eq (obeys_bind (seq E p) x f)

theorem Does.mono {x : FsM α} {Q R : α → State → Prop} (h : Does E p x R s)
    (hRQ : ∀ a s', R a s' → Q a s') : Does E p x Q s :=
  Obeys.mono (seq E p) h hRQ

/-- **The rule for a call** of a function with a specification. -/
theorem Does.call {x : FsM α} {f : α → FsM β} {R : α → State → Prop} {Q : β → State → Prop}
    (h : Does E p x R s) (hf : ∀ a s', R a s' → Does E p (f a) Q s') : Does E p (x >>= f) Q s :=
  does_bind.2 (h.mono hf)

theorem does_op {Q : o.Ans → State → Prop} (h : ∀ ω, E.Admits ω o → match perform ω p s o with
      | .ok (r, s') => Q r s'
      | .error e => E.stops e) : Does E p (op o) Q s := by
  refine ⟨fun ω e ha he => ?_, fun r s' hr => ?_⟩
  · have hω := h ω ha
    rwa [he] at hω
  · obtain ⟨ω, ha, he⟩ := hr
    have hω := h ω ha
    rwa [he] at hω

theorem does_answer {Q : o.Ans → State → Prop} {r : o.Ans} {s' : State}
    (h : ∀ ω, perform ω p s o = .ok (r, s')) (hq : Q r s') : Does E p (op o) Q s := by
  refine does_op fun ω _ => ?_
  rw [h ω]
  exact hq

variable {b : Nat} {ip : Slot} {f : FileNo}

theorem does_bread {Q : Block → State → Prop} (h : s.buf b = none)
    (hq : Q (s.disk b) (s.setBuf b (some p))) : Does E p (bread b) Q s :=
  does_answer (fun _ => by simp [perform, h]) hq

theorem does_bstore {data : Block} (hq : Q () (s.setDisk b data)) : Does E p (bstore b data) Q s :=
  does_answer (fun _ => rfl) hq

def State.InTrans (s : State) : Prop := ∃ q, s.begun q ≠ 0

theorem does_logWrite (h : s.InTrans) (hq : Q () s) : Does E p (logWrite b) Q s := by
  refine does_answer (fun _ => ?_) hq
  obtain ⟨q, hq⟩ := h
  simp only [perform]
  rw [if_neg fun h => hq (h q)]

theorem does_brelse (h : s.buf b = some p) (hq : Q () (s.setBuf b none)) :
    Does E p (brelse b) Q s :=
  does_answer (fun _ => by simp [perform, h]) hq

theorem does_enter {g : Fn} (hq : Q () s) : Does E p (enter g) Q s :=
  does_answer (fun _ => rfl) hq

theorem does_ident {Q : Ident → State → Prop} (hq : Q (s.ident ip) s) : Does E p (ident ip) Q s :=
  does_answer (fun _ => rfl) hq

theorem does_node {Q : Node → State → Prop} (hq : Q (s.node ip) s) : Does E p (node ip) Q s :=
  does_answer (fun _ => rfl) hq

theorem does_setNode {n : Node} (hq : Q () (s.setNode ip n)) : Does E p (setNode ip n) Q s :=
  does_answer (fun _ => rfl) hq

theorem does_acquiresleep (h : s.lock ip = none)
    (hq : Q () (s.setLock ip (some p))) : Does E p (acquiresleep ip) Q s :=
  does_answer (fun _ => by simp [perform, h]) hq

theorem does_releasesleep (hq : Q () (s.setLock ip none)) : Does E p (releasesleep ip) Q s :=
  does_answer (fun _ => rfl) hq

theorem does_holdingsleep {Q : Bool → State → Prop} (hq : Q (decide (s.lock ip = some p)) s) :
    Does E p (holdingsleep ip) Q s :=
  does_answer (fun _ => rfl) hq

theorem does_iputDrop (hq : Q () (s.addRef ip (-1))) : Does E p (iputDrop ip) Q s :=
  does_answer (fun _ => rfl) hq

theorem does_idup {Q : Slot → State → Prop} (hq : Q ip (s.addRef ip 1)) : Does E p (idup ip) Q s :=
  does_bind.2 (does_answer (fun _ => rfl) hq)

theorem does_modifyNode {g : Dinode → Dinode}
    (hq : Q () (s.setNode ip { s.node ip with d := g (s.node ip).d })) :
    Does E p (modifyNode ip g) Q s :=
  does_bind.2 (does_node (does_setNode hq))

theorem does_panic {e : Panic} {Q : α → State → Prop} (h : E.stops (.panic e)) :
    Does E p (panic e) Q s := by
  refine ⟨fun ω e' _ he => ?_, nofun⟩
  obtain rfl := Except.error.inj he
  exact h

theorem does_when {c : Prop} [Decidable c] {x : FsM Unit}
    (ht : c → Does E p x Q s) (hf : ¬c → Q () s) : Does E p (when c x) Q s := by
  unfold when
  split
  · next hc => exact ht hc
  · next hc => exact hf hc

/-! ## The user's memory -/

theorem does_copyin {src n : Nat} {Q : Copied → State → Prop}
    (h : ∀ r, E.copyin src n r → Q r s) : Does E p (op (.copyin src n)) Q s :=
  does_op fun ω hω => h ω.copyin hω

theorem does_copyout {dst : Nat} {bs : List UInt8} {Q : Bool → State → Prop} (h : ∀ r, Q r s) :
    Does E p (op (.copyout dst bs)) Q s :=
  does_op fun ω _ => h ω.copyout

/-! ## Buffers

A block that is read, perhaps written, and let go.
-/

theorem setBuf_setBuf (s : State) (b : Nat) (x y : Option Proc) :
    (s.setBuf b x).setBuf b y = s.setBuf b y := by
  simp [State.setBuf]

theorem setBuf_none (h : s.buf b = none) : s.setBuf b none = s := by
  rw [State.setBuf, ← h, Function.update_eq_self]

end Rules

end ZeptOS.Fs
