import ZeptOS.Sched.Wakeup

/-!
# A process and its hart

`c->proc` is set when the scheduler picks a process and cleared when it is back, so it says a
little more than where the hart is: after `swtch` the scheduler still names the process whose
context it has just left, and holds that process's lock. Nobody picks the process in between.

The locks a hart holds are those of its program counter. That rules out the panics of `acquire`,
`release` and `sched`.
-/

namespace ZeptOS.Sched

open Lib Function
open Mem (ProcState)

variable {n : Nat} {H : Type} {M : Monitor} {s s' : Sys n H M} {h g : H} {inp : Input M}
  {i : Fin n}

/-- What `c->proc` is. -/
def Ctl.proc : Ctl n M → Option (Fin n)
  | .thread i | .back i => some i
  | .scan _ | .skip _ | .intr _ _ => none

structure Harts (s : Sys n H M) : Prop where
  proc : ∀ h, s.proc h = (s.ctl h).proc
  left : ∀ h g i, s.ctl h = .back i → s.ctl g ≠ .thread i

theorem Sys.held_back (hc : s.ctl h = .back i) : Lock.proc i ∈ s.held h := by
  simp [Sys.held, hc]

theorem proc_apply {eff : Eff n M} : (eff.apply s).proc = s.proc := by
  cases eff <;> rfl

variable [DecidableEq H]

theorem Step.proc_other (hs : Step s h inp s') (hg : g ≠ h) : s'.proc g = s.proc g := by
  cases hs with
  | pick _ _ _ | back _ _ => exact update_of_ne hg _ _
  | job _ _ _ => exact congrFun (after_proc.trans proc_apply) g
  | move _ _ _ _ => exact congrFun (after_proc.trans proc_apply) g
  | _ => rfl

theorem Step.proc_self (hs : Step s h inp s') (hp : s.proc h = (s.ctl h).proc) :
    s'.proc h = (s'.ctl h).proc := by
  cases hs with
  | wrap hc _ | skip hc _ _ | next hc _ | irq hc _ =>
    rw [hc] at hp
    simpa [Ctl.proc] using hp
  | pick _ _ _ | back _ _ => simp [Ctl.proc]
  | @job k p m hc hj he =>
    rw [hc] at hp
    simp only [after_proc, proc_apply, hp, update_self]
    split <;> rfl
  | trap hc _ _ _ => exact hp
  | sched hc _ _ _ _ =>
    rw [hc] at hp
    simpa [Ctl.proc] using hp
  | move hc _ _ _ => simpa [proc_apply] using hp

/-- A hart with a process was there before the step, or has picked the process with its lock free,
    or has just left its context. -/
theorem Step.ctl_of (hs : Step s h inp s') (hp : (s'.ctl g).proc = some i) :
    s'.ctl g = s.ctl g ∨ s'.ctl g = .thread i ∧ s.lock (.proc i) = none ∨
      g = h ∧ s'.ctl g = .back i ∧ s.ctl g = .thread i := by
  by_cases hg : g = h
  · subst hg
    cases hs with
    | pick _ hl _ =>
      simp only [update_self] at hp ⊢
      cases hp
      exact .inr (.inl ⟨rfl, hl⟩)
    | sched hc _ _ _ _ =>
      simp only [update_self] at hp ⊢
      cases hp
      exact .inr (.inr ⟨trivial, rfl, hc⟩)
    | trap _ _ _ _ => exact .inl rfl
    | move _ _ _ _ => exact .inl (by simp)
    | job _ _ _ =>
      simp only [update_self] at hp
      split at hp <;> cases hp
    | _ =>
      simp only [update_self] at hp
      cases hp
  · exact .inl (hs.ctl_other hg)

theorem Harts.step (P : Placed s) (R : Harts s) (hs : Step s h inp s') : Harts s' where
  proc g := by
    by_cases hg : g = h
    · subst hg
      exact hs.proc_self (R.proc g)
    · rw [hs.proc_other hg, hs.ctl_other hg, R.proc g]
  left g g' i hb ht := by
    rcases hs.ctl_of (congrArg Ctl.proc hb) with he | ⟨he, -⟩ | ⟨rfl, -, hc⟩
    · rcases hs.ctl_of (congrArg Ctl.proc ht) with he' | ⟨-, hl⟩ | ⟨-, he', -⟩
      · exact R.left g g' i (he ▸ hb) (he' ▸ ht)
      · exact P.locks.not_held hl g (Sys.held_back (he ▸ hb))
      · cases he'.symm.trans ht
    · cases he.symm.trans hb
    · -- no other hart had the process when this one left it
      have hne : g' ≠ g := by
        rintro rfl
        cases hb.symm.trans ht
      rw [hs.ctl_other hne] at ht
      exact hne (P.one g' g i ht hc)

omit [DecidableEq H] in
theorem Harts.of_boot (h0 : Boot s) : Harts s where
  proc h := by rw [h0.proc h, h0.ctl h]; rfl
  left h g i hb := by
    rw [h0.ctl h] at hb
    cases hb

theorem Harts.of_reach {ok : Sys n H M → H × Input M → Prop}
    (hr : Reach Boot Sched.step ok s) : Harts s :=
  hr.invariant_of (fun _ => .of_boot) fun _ _ _ hr R _ hs =>
    R.step (Placed.of_reach hr) (Step.of_step hs)

/-! ## The process of a hart -/

omit [DecidableEq H] in
theorem Harts.cases (R : Harts s) (hp : s.proc h = some i) :
    s.ctl h = .thread i ∨ s.ctl h = .back i := by
  rw [R.proc h] at hp
  cases hc : s.ctl h <;> rw [hc] at hp <;> cases hp
  · exact .inl rfl
  · exact .inr rfl

omit [DecidableEq H] in
theorem Harts.unique (P : Placed s) (R : Harts s) (hp : s.proc h = some i)
    (hq : s.proc g = some i) : h = g := by
  rcases R.cases hp with hp | hp <;> rcases R.cases hq with hq | hq
  · exact P.one h g i hp hq
  · exact absurd hp (R.left g h i hq)
  · exact absurd hq (R.left h g i hp)
  · exact P.locks.unique (Sys.held_back hp) (Sys.held_back hq)

omit [DecidableEq H] in
theorem Harts.running (P : Placed s) (R : Harts s) (hp : s.proc h = some i)
    (hl : s.lock (.proc i) = none) : (s.slot i).state = .running := by
  rcases R.cases hp with hc | hc
  · rw [P.on h i hc]
    by_contra hst
    have hown : Lock.proc i ∈ s.held h := by
      simpa only [Sys.held, hc] using Pc.own_of_state hst
    exact P.locks.not_held hl h hown
  · exact absurd (Sys.held_back hc) (P.locks.not_held hl h)

omit [DecidableEq H] in
theorem Harts.has_hart (P : Placed s) (R : Harts s) (hst : (s.slot i).state = .running) :
    ∃ h, s.proc h = some i := by
  by_contra hno
  have hoff := P.off i fun h hc => hno ⟨h, by rw [R.proc h, hc]; rfl⟩
  rw [hst] at hoff
  exact hoff

/-- **A process runs on at most one hart.** In every state of every run no two harts have the same
    `c->proc`, the process of a hart is `RUNNING` if its lock is free, and a process that is
    `RUNNING` with its lock free is the one of exactly one hart. -/
theorem one_hart (hr : Reach Boot Sched.step (fun _ _ => True) s) :
    (∀ h g i, s.proc h = some i → s.proc g = some i → h = g) ∧
      (∀ h i, s.proc h = some i → s.lock (.proc i) = none → (s.slot i).state = .running) ∧
      ∀ i, (s.slot i).state = .running → s.lock (.proc i) = none → ∃! h, s.proc h = some i := by
  have P := Placed.of_reach hr
  have R := Harts.of_reach hr
  refine ⟨fun h g i => R.unique P, fun h i => R.running P, fun i hst _ => ?_⟩
  obtain ⟨h, hh⟩ := R.has_hart P hst
  exact ⟨h, hh, fun g hg => R.unique P hg hh⟩

/-- `init` has forked, and both are on a hart. -/
theorem one_hart_each : ∃ s : Sys 2 Bool noMonitor,
    Reach Boot Sched.step (fun _ _ => True) s ∧ (∃! h, s.proc h = some 0) ∧
      ∃! h, s.proc h = some 1 := by
  have hrun : (exec Sched.step (fun _ _ => True) (Sys.boot nofun 0 : Sys 2 Bool noMonitor)
      (onHart true ([.go, .go, .fork] ++ List.replicate 8 .go) ++
        onHart false [.go, .go, .go, .go])).any
      (fun s => ((s.slot 0).state = .running ∧ s.lock (.proc 0) = none) ∧
        (s.slot 1).state = .running ∧ s.lock (.proc 1) = none) = true := by
    decide +kernel
  obtain ⟨s, hr, hq⟩ := Reach.exec_any (Sys.boot_spec _ _) hrun
  obtain ⟨⟨h0, l0⟩, h1, l1⟩ := of_decide_eq_true hq
  have hone := (one_hart hr).2.2
  exact ⟨s, hr, hone 0 h0 l0, hone 1 h1 l1⟩

/-! ## What does not panic -/

def Op.Fits (ls : List (Lock n M)) : Op n M → Prop
  | .tau => True
  | .acquire l => l ∉ ls
  | .release l => l ∈ ls

variable {ok : Sys n H M → H × Input M → Prop} {self : Option (Fin n)} {p q : Pc n M}
  {m : Move n M} {e : Panic}

section Code

omit [DecidableEq H]

theorem job_fits (hm : job s self p = .next m) : m.op.Fits (p.held self) := by
  cases job_acts hm with
  | @look _ _ k _ => cases k <;> simp [Op.Fits, Pc.held, Waker.lock]
  | _ => simp [Op.Fits, Pc.held]

theorem code_fits (hm : code s i inp p = .next m) : m.op.Fits (p.held (some i)) := by
  revert hm
  fun_cases code s i inp p <;> intro hm <;> first
    | exact job_fits hm
    | cases hm
  all_goals first
    | (simp [Op.Fits, Pc.held, Pc.held.own]; done)
    | (rename_i w; cases w <;> simp [Op.Fits, Pc.held, Asker.lock, Why.lock])

theorem job_ne_panic (self : Option (Fin n)) (e : Panic) : job s self p ≠ .panic e := by
  fun_cases job s self p <;> simp [move]

theorem code_panic (hp : code s i inp p = .panic e) : e = .initExiting ∧ i = s.initproc := by
  revert hp
  fun_cases code s i inp p <;> intro hp <;> first
    | exact absurd hp (job_ne_panic _ _)
    | cases hp
  exact ⟨rfl, ‹_›⟩

end Code

theorem Placed.run_ne_panic (P : Placed s) (op : Op n M) (hf : op.Fits (s.held h)) (e : Panic) :
    op.run h s ≠ .panic e := by
  cases op with
  | tau => simp [Op.run]
  | acquire l =>
    have hl : s.lock l ≠ some h := fun hl => hf ((P.locks.lock l h).mp hl)
    cases he : s.lock l <;> simp_all [Op.run]
  | release l => simp [Op.run, (P.locks.lock l h).mpr hf]

theorem Move.run_panic : m.run h s = .panic e ↔ m.op.run h s = .panic e := by
  unfold Move.run
  cases m.op.run h s <;> simp

theorem Placed.sched_ne_panic (P : Placed s) (hc : s.ctl h = .thread i)
    (hs : (s.thread i).top.sched = some q) (e : Panic) : Sched.sched h i q s ≠ .panic e := by
  have hst := P.on h i hc
  have hl := P.locks.lock (.proc i) h
  have hn := P.locks.count h
  simp only [Sys.held, hc] at hl hn
  generalize (s.thread i).top = p at *
  cases p <;> cases hs <;> simp_all [Sched.sched, Pc.held, Pc.held.own, Pc.state]

/-- **Neither locks nor `sched` panic**: no hart takes a lock twice, gives back one it has not got,
    or comes to `sched` with the wrong locks or `RUNNING`. What is left is the exit of `init`. -/
theorem only_init_panics (hr : Reach Boot Sched.step ok s)
    (hp : Sched.step s (h, inp) = .panic e) : e = .initExiting ∧ s.ctl h = .thread s.initproc := by
  have P := Placed.of_reach hr
  have hop := P.run_ne_panic (h := h)
  unfold Sched.step at hp
  cases hc : s.ctl h <;> simp only [Sys.held, hc] at hp hop
  case scan k =>
    have hl := fun k => hop (.acquire (.proc k)) List.not_mem_nil
    unfold scan at hp
    repeat' split at hp
    all_goals simp_all
  case skip k | back k =>
    have hl := (P.locks.lock (.proc k) h).mpr (by simp [Sys.held, hc])
    simp [scanNext, Op.run, hl] at hp
  case intr k p =>
    have hm := fun m (hj : job s none p = .next m) => hop m.op (job_fits hj)
    have hj := fun e => job_ne_panic (s := s) (p := p) none e
    unfold runIntr at hp
    repeat' split at hp
    all_goals simp_all [Move.run_panic]
  case thread i =>
    have hm := fun m (hj : code s i inp _ = .next m) => hop m.op (code_fits hj)
    have hs := fun q => P.sched_ne_panic hc (q := q)
    have hj := fun e (hj : code s i inp (s.thread i).top = .panic e) => code_panic hj
    unfold interrupt runThread at hp
    repeat' split at hp
    all_goals simp_all [Move.run_panic]

/-- `init` exits. -/
theorem only_init_panics_exit : ∃ s : Sys 1 Unit noMonitor,
    (∃ e, Sched.step s ((), .exit 0) = .panic e) ∧ s.ctl () = .thread s.initproc := by
  have hrun : (exec Sched.step (fun _ _ => True) (Sys.boot nofun 0 : Sys 1 Unit noMonitor)
      (onHart () [.go, .go])).any fun s => Sched.step s ((), .exit 0) matches .panic _ := by
    decide +kernel
  obtain ⟨s, hr, hq⟩ := Reach.exec_any (Sys.boot_spec _ _) hrun
  cases hs : Sched.step s ((), .exit 0) <;> rw [hs] at hq <;> cases hq
  exact ⟨s, ⟨_, hs⟩, (only_init_panics hr hs).2⟩

end ZeptOS.Sched
