import ZeptOS.Sched.Turns

/-!
# Parents

Who has whom for a parent. `fork` gives a child its parent before the child can run, and
`exit` gives the children away before the parent is a zombie; so the parent of a process is
alive, in every state. That `wait_lock` is held while the links change is not needed for
that, only that a process in `fork` or in `exit` is where it is.
-/

namespace ZeptOS.Sched

open Lib
open Mem (ProcState)

variable {n : Nat} {H : Type} {M : Monitor} {s s' : Sys n H M} {h : H} {inp : Input M}

def Alive : ProcState → Prop
  | .runnable | .running | .sleeping => True
  | _ => False

/-! ## Where the links change -/

theorem Placed.parent_turns [DecidableEq H] (P : Placed s) (hs : Step s h inp s') {j p : Fin n}
    (hp : (s'.slot j).parent = some p) : (s.slot j).parent = some p ∨
    (∃ pid, s.ctl h = .thread p ∧ (s.thread p).pc = .forkParent j pid ∧
      (s'.thread p).pc = .forkParentDone j pid) ∨
    p = s.initproc ∧ ∃ i st, s.ctl h = .thread i ∧ (s.thread i).pc = .reparent st j ∧
      (s.slot j).parent = some i := by
  cases P.turns hs j with
  | stays e | run _ _ e | alloc _ _ _ _ _ _ e | ready _ _ _ e | wake _ _ e | kill _ _ _ _ _ e
  | exit _ _ _ e | sleep _ _ e | tidy _ _ e | yield _ _ e =>
    rw [e] at hp
    exact .inl hp
  | allocFail _ _ _ e | free _ _ _ _ e =>
    rw [e] at hp
    cases hp
  | parent hc hpc hpc' e =>
    rw [e] at hp
    cases hp
    exact .inr (.inl ⟨_, hc, hpc, hpc'⟩)
  | reparent hc hpc hpar _ e =>
    rw [e] at hp
    cases hp
    exact .inr (.inr ⟨rfl, _, _, hc, hpc, hpar⟩)

theorem Placed.parent_stays [DecidableEq H] (P : Placed s) (hs : Step s h inp s') {j p : Fin n}
    (hp : (s.slot j).parent = some p) : (s'.slot j).parent = some p ∨ (s.slot j).state = .unused ∨
    (∃ i pid, (s.thread i).pc = .forkParent j pid) ∨ (∃ st, (s.thread p).pc = .reparent st j ∧
      (s'.thread p).pc = .wakeup (some (.proc s.initproc)) 0 (.reparent st (j + 1))) ∨
    (s.slot j).state = .zombie ∧ ∃ i addr r, (s.thread i).pc = .waitChild addr j ∧
      (s'.thread i).pc = .waitReap r := by
  cases P.turns hs j with
  | stays e | run _ _ e | ready _ _ _ e | wake _ _ e | kill _ _ _ _ _ e
  | exit _ _ _ e | sleep _ _ e | tidy _ _ e | yield _ _ e =>
    rw [e]
    exact .inl hp
  | alloc _ _ hu _ _ _ _ | allocFail _ _ hu _ => exact .inr (.inl hu)
  | parent _ hpc _ _ => exact .inr (.inr (.inl ⟨_, _, hpc⟩))
  | reparent hc hpc hpar hpc' _ =>
    rw [hp] at hpar
    cases hpar
    exact .inr (.inr (.inr (.inl ⟨_, hpc, hpc'⟩)))
  | free _ hpc hz hpc' _ => exact .inr (.inr (.inr (.inr ⟨hz, _, _, _, hpc, hpc'⟩)))

theorem Placed.alive_turns [DecidableEq H] (P : Placed s) (hs : Step s h inp s') {j : Fin n}
    (ha : Alive (s.slot j).state) :
    Alive (s'.slot j).state ∨ ∃ st, (s.thread j).pc = .exitZombie st := by
  cases P.turns hs j with
  | stays e | parent _ _ _ e | reparent _ _ _ _ e | tidy _ _ e =>
    rw [e]
    exact .inl ha
  | run _ _ e | ready _ _ _ e | wake _ _ e | sleep _ _ e | yield _ _ e =>
    rw [e]
    exact .inl trivial
  | kill _ _ _ _ _ e =>
    rw [e]
    simp only
    split
    · exact .inl trivial
    · exact .inl ha
  | alloc _ _ hu _ _ _ _ | allocFail _ _ hu _ =>
    rw [hu] at ha
    exact ha.elim
  | free _ _ hz _ _ =>
    rw [hz] at ha
    exact ha.elim
  | exit _ hp _ _ => exact .inr ⟨_, hp⟩

/-! ## Program counters -/

def Pc.orphan : Pc n M → Option (Fin n)
  | .forkDone np _ | .forkParent np _ => some np
  | _ => none

def Pc.son : Pc n M → Option (Fin n)
  | .forkParentDone np _ | .forkRun np _ => some np
  | _ => none

def Pc.looks : Pc n M → Option (Fin n)
  | .waitChild _ pp => some pp
  | _ => none

variable {p : Pc n M}

theorem Pc.orphan_plain (h : p.Plain) : p.orphan = none := by
  cases p <;> first | exact h.elim | rfl

theorem Pc.son_plain (h : p.Plain) : p.son = none := by
  cases p <;> first | exact h.elim | rfl

theorem Pc.looks_plain (h : p.Plain) : p.looks = none := by
  cases p <;> first | exact h.elim | rfl

theorem Pc.family_leaving {x : Int × Nat} (h : p.leaving = some x) :
    p.orphan = none ∧ p.son = none ∧ p.looks = none ∧ p.child = none := by
  cases p <;> first | exact ⟨rfl, rfl, rfl, rfl⟩ | cases h

theorem Pc.child_of_orphan {np : Fin n} (h : p.orphan = some np) : p.child = some np := by
  cases p <;> first | exact h | cases h

theorem Pc.child_of_son {np : Fin n} (h : p.son = some np) : p.child = some np := by
  cases p <;> first | exact h | cases h

/-! ## The invariant -/

structure Family (s : Sys n H M) : Prop where
  init : Alive (s.slot s.initproc).state
  parent : ∀ j p, (s.slot j).parent = some p → Alive (s.slot p).state
  child : ∀ j, j ≠ s.initproc → (s.slot j).state ≠ .unused → (s.slot j).state ≠ .used →
    (s.slot j).parent ≠ none
  unused : ∀ j, (s.slot j).state = .unused → (s.slot j).parent = none
  exit : ∀ i st k, (s.thread i).pc.leaving = some (st, k) →
    i ≠ s.initproc ∧ ∀ j : Fin n, j < k → (s.slot j).parent ≠ some i
  orphan : ∀ i np, (s.thread i).pc.orphan = some np → (s.slot np).parent = none
  son : ∀ i np, (s.thread i).pc.son = some np → (s.slot np).parent = some i
  looks : ∀ i pp, (s.thread i).pc.looks = some pp → (s.slot pp).parent = some i

theorem Step.initproc_eq [DecidableEq H] (hs : Step s h inp s') : s'.initproc = s.initproc := by
  cases hs with
  | job _ _ _ | move _ _ _ _ => exact after_initproc.trans apply_initproc
  | _ => rfl

theorem Placed.alive_fork (P : Placed s) {i np : Fin n} (hc : s.ctl h = .thread i)
    (hp : (s.thread i).pc.child = some np) : Alive (s.slot i).state := by
  rw [P.on h i hc]
  rcases P.top i with ⟨htop, -⟩ | ⟨-, hh⟩
  · rw [htop]
    cases hpc : (s.thread i).pc <;> rw [hpc] at hp <;> trivial
  · cases hpc : (s.thread i).top <;> rw [hpc] at hh <;> trivial

variable [DecidableEq H] (F : Family s) (P : Placed s) (hs : Step s h inp s')
include F P hs

theorem Family.step_init : Alive (s'.slot s.initproc).state := by
  refine (P.alive_turns hs F.init).resolve_right ?_
  rintro ⟨st, hp⟩
  exact (F.exit s.initproc st n (by rw [hp]; rfl)).1 rfl

theorem Family.step_parent (j p : Fin n) (hp : (s'.slot j).parent = some p) :
    Alive (s'.slot p).state := by
  rcases P.parent_turns hs hp with hp | ⟨pid, hc, hpc, -⟩ | ⟨rfl, -⟩
  · refine (P.alive_turns hs (F.parent j p hp)).resolve_right ?_
    rintro ⟨st, hz⟩
    exact (F.exit p st n (by rw [hz]; rfl)).2 j j.isLt hp
  · have hchild : (s.thread p).pc.child = some j := by rw [hpc]; rfl
    refine (P.alive_turns hs (P.alive_fork hc hchild)).resolve_right ?_
    rintro ⟨st, hz⟩
    rw [hpc] at hz
    cases hz
  · exact F.step_init P hs

theorem Family.step_child (j : Fin n) (hj : j ≠ s.initproc) (h0 : (s'.slot j).state ≠ .unused)
    (h1 : (s'.slot j).state ≠ .used) : (s'.slot j).parent ≠ none := by
  cases P.turns hs j with
  | stays e | tidy _ _ e =>
    rw [e] at h0 h1 ⊢
    exact F.child j hj h0 h1
  | run _ hst e | wake hst _ e =>
    rw [e]
    exact F.child j hj (by rw [hst]; exact nofun) (by rw [hst]; exact nofun)
  | exit hc _ _ e | sleep hc _ e | yield hc _ e =>
    rw [e]
    exact F.child j hj (by rw [P.on h j hc]; exact Pc.state_ne.2)
      (by rw [P.on h j hc]; exact Pc.state_ne.1)
  | kill _ _ _ _ _ e =>
    rw [e] at h0 h1 ⊢
    refine F.child j hj (fun hu => h0 ?_) fun hu => h1 ?_ <;>
      simp only [hu, reduceCtorEq, if_false]
  | ready _ hp _ e =>
    rw [e]
    rw [show _ = _ from F.son _ j (by rw [hp]; rfl)]
    exact Option.some_ne_none _
  | parent _ _ _ e | reparent _ _ _ _ e =>
    rw [e]
    exact Option.some_ne_none _
  | alloc _ _ _ _ _ _ e => exact absurd (by rw [e]) h1
  | allocFail _ _ _ e | free _ _ _ _ e => exact absurd (by rw [e]; rfl) h0

theorem Family.step_unused (j : Fin n) (hu : (s'.slot j).state = .unused) :
    (s'.slot j).parent = none := by
  cases P.turns hs j with
  | stays e | tidy _ _ e =>
    rw [e] at hu ⊢
    exact F.unused j hu
  | kill _ _ _ _ _ e =>
    rw [e] at hu ⊢
    simp only at hu
    split at hu
    · cases hu
    · exact F.unused j hu
  | parent _ hp _ e =>
    rw [e] at hu
    rw [show _ = _ from P.fork _ j (by rw [hp]; rfl)] at hu
    cases hu
  | reparent _ _ hpar _ e =>
    rw [e] at hu
    rw [F.unused j hu] at hpar
    cases hpar
  | allocFail _ _ _ e | free _ _ _ _ e =>
    rw [e]
    rfl
  | run _ _ e | alloc _ _ _ _ _ _ e | ready _ _ _ e | wake _ _ e | exit _ _ _ e | sleep _ _ e
  | yield _ _ e =>
    rw [e] at hu
    cases hu

theorem Family.no_new {i : Fin n} {st : Int} {k : Nat}
    (hk : (s.thread i).pc.leaving = some (st, k)) {j : Fin n}
    (hj : (s.slot j).parent ≠ some i) : (s'.slot j).parent ≠ some i := by
  intro hp
  rcases P.parent_turns hs hp with hp | ⟨pid, -, hpc, -⟩ | ⟨hi, -⟩
  · exact hj hp
  · rw [hpc] at hk
    cases hk
  · exact (F.exit i st k hk).1 hi

theorem Family.step_exit (i : Fin n) (st : Int) (k : Nat)
    (hk : (s'.thread i).pc.leaving = some (st, k)) :
    i ≠ s.initproc ∧ ∀ j : Fin n, j < k → (s'.slot j).parent ≠ some i := by
  have hold : ∀ {st k'}, (s.thread i).pc.leaving = some (st, k') →
      i ≠ s.initproc ∧ ∀ j : Fin n, j < k' → (s'.slot j).parent ≠ some i := fun hk' =>
    ⟨(F.exit i _ _ hk').1, fun j hj => F.no_new P hs hk' ((F.exit i _ _ hk').2 j hj)⟩
  rcases P.arrives (fun _ => Pc.leaving_plain) hs hk with e | ⟨m, -, -, hpl, hm, ht, e⟩ <;>
    rw [e] at hk
  · exact hold hk
  · cases hm with
    | plain hpc => exact absurd hpc hpl
    | exit _ hi =>
      cases hk
      exact ⟨hi, fun j hj => absurd hj (Nat.not_lt_zero _)⟩
    | reparent hp => exact hold (by rw [hp]; exact hk)
    | wakes hx hx' => exact hold (hx.trans (hx'.symm.trans hk))
    | @pass _ j hp hpar =>
      cases hk
      have hg : (s.thread i).pc.leaving = some (st, j.val) := by rw [hp]; rfl
      refine ⟨(hold hg).1, fun j' hj' => ?_⟩
      rcases Nat.lt_succ_iff_lt_or_eq.mp hj' with hlt | heq
      · exact (hold hg).2 j' hlt
      · rw [Fin.ext heq]
        exact F.no_new P hs hg hpar
    | @give _ j hp hpar =>
      cases hk
      have hg : (s.thread i).pc.leaving = some (st, j.val) := by rw [hp]; rfl
      refine ⟨(hold hg).1, fun j' hj' => ?_⟩
      rcases Nat.lt_succ_iff_lt_or_eq.mp hj' with hlt | heq
      · exact (hold hg).2 j' hlt
      · rw [Fin.ext heq, ht.slot]
        simpa [Eff.apply] using fun he => (hold hg).1 he.symm
    | @gave _ j hp hj =>
      cases hk
      have hg : (s.thread i).pc.leaving = some (st, j) := by rw [hp]; rfl
      exact ⟨(hold hg).1, fun j' hj' => (hold hg).2 j' (hj'.trans_le hj)⟩
    | _ => cases hk

theorem Family.step_orphan (i np : Fin n) (hk : (s'.thread i).pc.orphan = some np) :
    (s'.slot np).parent = none := by
  rcases P.arrives (fun _ => Pc.orphan_plain) hs hk with e | ⟨m, -, -, hpl, hm, ht, e⟩
  · -- a parent would have come from this `fork` itself, and it would have moved on
    have hold : (s.thread i).pc.orphan = some np := e ▸ hk
    by_contra hne
    obtain ⟨p, hp⟩ := Option.ne_none_iff_exists'.mp hne
    rcases P.parent_turns hs hp with hp | ⟨pid, -, hpc, hpc'⟩ | ⟨-, i', st, -, -, hp⟩
    · rw [F.orphan i np hold] at hp
      cases hp
    · have hpi := P.forker p i np (by rw [hpc]; rfl) (Pc.child_of_orphan hold)
      rw [← hpi, hpc'] at hk
      cases hk
    · rw [F.orphan i np hold] at hp
      cases hp
  · rw [e] at hk
    cases hm with
    | plain hpc => exact absurd hpc hpl
    | forkDone _ hu =>
      cases hk
      rw [ht.slot]
      simpa [Eff.apply] using F.unused np hu
    | forkParent hp =>
      rw [ht.slot]
      exact F.orphan i np (by rw [hp]; exact hk)
    | wakes _ hx =>
      rw [(Pc.family_leaving hx).1] at hk
      cases hk
    | _ => cases hk

theorem Family.step_son (i np : Fin n) (hk : (s'.thread i).pc.son = some np) :
    (s'.slot np).parent = some i := by
  rcases P.arrives (fun _ => Pc.son_plain) hs hk with e | ⟨m, -, -, hpl, hm, ht, e⟩
  · have hold : (s.thread i).pc.son = some np := e ▸ hk
    have hused := P.fork i np (Pc.child_of_son hold)
    rcases P.parent_stays hs (F.son i np hold) with hp | hu | ⟨i', pid, hp⟩ | ⟨st, hp, -⟩ | ⟨hz, -⟩
    · exact hp
    · rw [hused] at hu
      cases hu
    · have hi := P.forker i' i np (by rw [hp]; rfl) (Pc.child_of_son hold)
      rw [← hi, hp] at hold
      cases hold
    · rw [hp] at hold
      cases hold
    · rw [hused] at hz
      cases hz
  · rw [e] at hk
    cases hm with
    | plain hpc => exact absurd hpc hpl
    | forkParentDone _ =>
      cases hk
      rw [ht.slot]
      simp [Eff.apply]
    | forkRun hp =>
      rw [ht.slot]
      exact F.son i np (by rw [hp]; exact hk)
    | wakes _ hx =>
      rw [(Pc.family_leaving hx).2.1] at hk
      cases hk
    | _ => cases hk

theorem Family.step_looks (i pp : Fin n) (hk : (s'.thread i).pc.looks = some pp) :
    (s'.slot pp).parent = some i := by
  rcases P.arrives (fun _ => Pc.looks_plain) hs hk with e | ⟨m, -, -, hpl, hm, ht, e⟩
  · have hold : (s.thread i).pc.looks = some pp := e ▸ hk
    have hpar := F.looks i pp hold
    rcases P.parent_stays hs hpar with hp | hu | ⟨i', pid, hp⟩ | ⟨st, hp, -⟩ |
      ⟨-, i', addr, r, hp, hp'⟩
    · exact hp
    · rw [F.unused pp hu] at hpar
      cases hpar
    · rw [F.orphan i' pp (by rw [hp]; rfl)] at hpar
      cases hpar
    · rw [hp] at hold
      cases hold
    · -- only the parent reaps, and it would have moved on
      rw [F.looks i' pp (by rw [hp]; rfl)] at hpar
      cases hpar
      rw [hp'] at hk
      cases hk
  · rw [e] at hk
    cases hm with
    | plain hpc => exact absurd hpc hpl
    | looks _ hpar =>
      cases hk
      rw [ht.slot]
      exact hpar
    | wakes _ hx =>
      rw [(Pc.family_leaving hx).2.2.1] at hk
      cases hk
    | _ => cases hk

/-- **A step keeps the families in order.** -/
theorem Family.step : Family s' := by
  have hinit := hs.initproc_eq
  refine ⟨?_, F.step_parent P hs, ?_, F.step_unused P hs, ?_, F.step_orphan P hs, F.step_son P hs,
    F.step_looks P hs⟩ <;> rw [hinit]
  · exact F.step_init P hs
  · exact F.step_child P hs
  · exact F.step_exit P hs

omit [DecidableEq H] F P hs in
theorem Family.of_boot (hb : Boot s) : Family s := by
  have hpar : ∀ j, (s.slot j).parent = none := by
    intro j
    by_cases hj : j = s.initproc
    · rw [hj, hb.init]
      rfl
    · rw [hb.slot j hj]
      rfl
  have hpc := hb.thread_of (T := fun t => t.pc.Plain) trivial trivial
  refine ⟨?_, fun j p hp => ?_, fun j hj hu => ?_, fun j _ => hpar j, fun i st k hk => ?_,
    fun i np hk => ?_, fun i np hk => ?_, fun i pp hk => ?_⟩
  · rw [hb.init]
    trivial
  · rw [hpar] at hp
    cases hp
  · rw [hb.slot j hj] at hu
    exact absurd rfl hu
  · rw [Pc.leaving_plain (hpc i)] at hk
    cases hk
  · rw [Pc.orphan_plain (hpc i)] at hk
    cases hk
  · rw [Pc.son_plain (hpc i)] at hk
    cases hk
  · rw [Pc.looks_plain (hpc i)] at hk
    cases hk

omit F P hs in
/-- **In every run the families are in order.** -/
theorem Family.of_reach {ok : Sys n H M → H × Input M → Prop}
    (hr : Reach Boot Sched.step ok s) : Family s :=
  hr.invariant_of (fun _ => .of_boot) fun _ _ _ hr F _ hs => F.step (.of_reach hr) (.of_step hs)

end ZeptOS.Sched
