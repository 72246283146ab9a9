import ZeptOS.Sched.Model

/-!
# What a step can do

The inversion of `step`, said once. `Step` has one case for each thing a hart does; the
moves of a process and of a handler are a lock operation and a change of the tables, which
do not interfere (`Move.run_eq`). `Change` says what a move of a process can be as far as
the states of the processes go: most of them are quiet, and the others are few.

`Pc.held` is the table the locks are about: what a thread holds where it stands.
-/

namespace ZeptOS.Sched

open Lib
open Mem (ProcState)

variable {n : Nat} {H : Type} {M : Monitor}

/-! ## Monitors and `wakeup` -/

inductive Acts (s : Sys n H M) (self : Option (Fin n)) : Pc n M → Move n M → Prop
  | enter {l : M.L} {x : M.X} :
      Acts s self (.enter l x) ⟨.acquire (.obj l), .none, .inside l x⟩
  | write {l : M.L} {x x' : M.X} {d : M.D} (ha : M.code l x (s.data l) = .write d x') :
      Acts s self (.inside l x) ⟨.tau, .write l d, .inside l x'⟩
  | wake {l : M.L} {x x' : M.X} {c : M.C} (ha : M.code l x (s.data l) = .wake c x') :
      Acts s self (.inside l x) ⟨.tau, .none, .wakeup (some (.obj c)) 0 (.obj l x')⟩
  | wait {l : M.L} {x x' : M.X} {k : M.K} (ha : M.code l x (s.data l) = .wait k x') :
      Acts s self (.inside l x) ⟨.tau, .none, .sleep (.obj l k x')⟩
  | check {l : M.L} {x yes no : M.X} (ha : M.code l x (s.data l) = .check yes no) :
      Acts s self (.inside l x) ⟨.tau, .none, .killed (.obj l yes no)⟩
  | done {l : M.L} {x : M.X} {r : Int} (ha : M.code l x (s.data l) = .done r) :
      Acts s self (.inside l x) ⟨.tau, .none, .leave l r⟩
  | leave {l : M.L} {r : Int} : Acts s self (.leave l r) ⟨.release (.obj l), .none, .user r⟩
  | skip {c : Option (Chan n M)} {j : Fin n} {k : Waker M} (hj : self = some j) :
      Acts s self (.wakeup c j k) ⟨.tau, .none, .wakeup c (j + 1) k⟩
  | look {c : Option (Chan n M)} {j : Fin n} {k : Waker M} (hj : self ≠ some j) :
      Acts s self (.wakeup c j k) ⟨.acquire (.proc j),
        if (s.slot j).state = .sleeping ∧ (s.slot j).chan = c then .ready j else .none,
        .wakeupNext c j k⟩
  | past {c : Option (Chan n M)} {j : Nat} {k : Waker M} (hj : n ≤ j) :
      Acts s self (.wakeup c j k) ⟨.tau, .none, k.resume⟩
  | next {c : Option (Chan n M)} {j : Fin n} {k : Waker M} :
      Acts s self (.wakeupNext c j k) ⟨.release (.proc j), .none, .wakeup c (j + 1) k⟩

variable {s : Sys n H M} {m : Move n M} {p : Pc n M}

theorem job_acts {self : Option (Fin n)} (hm : job s self p = .next m) : Acts s self p m := by
  revert hm
  fun_cases job s self p <;> intro hm <;> cases hm
  · exact .enter
  · exact .write ‹_›
  · exact .wake ‹_›
  · exact .wait ‹_›
  · exact .check ‹_›
  · exact .done ‹_›
  · exact .leave
  · exact .skip (j := ⟨_, ‹_›⟩) ‹_›
  · exact .look (j := ⟨_, ‹_›⟩) ‹_›
  · exact .past (Nat.le_of_not_lt ‹_›)
  · exact .next

/-! ## What a thread holds -/

def Asker.lock : Asker M → Lock n M
  | .wait _ => .wait
  | .obj l _ _ => .obj l

def Waker.lock : Waker M → Lock n M
  | .reparent _ _ => .wait
  | .exit _ => .wait
  | .obj l _ => .obj l

/-- The locks held at a program counter. `self` is `myproc()`. -/
def Pc.held (self : Option (Fin n)) : Pc n M → List (Lock n M)
  | .forkret => own
  | .allocNext j => [.proc j]
  | .forkFail np => [.proc np]
  | .forkDone np _ => [.proc np]
  | .forkParentDone _ _ => [.wait]
  | .forkRunDone np _ => [.proc np]
  | .reparent _ _ => [.wait]
  | .exitZombie _ => [.wait]
  | .exitRelease => own ++ [.wait]
  | .exitSched => own
  | .waitScan _ _ _ => [.wait]
  | .waitChild _ _ => [.wait]
  | .waitNext _ pp => [.proc pp, .wait]
  | .waitFault pp => [.proc pp, .wait]
  | .waitReap r => [.proc r.child, .wait]
  | .waitReturn _ => [.wait]
  | .killed q => [q.lock]
  | .killedDone q _ => own ++ [q.lock]
  | .sleep w => [w.lock]
  | .sleepRelease w => own ++ [w.lock]
  | .sleepMark _ => own
  | .sleepSched _ => own
  | .sleepAwake _ => own
  | .wakeup _ _ k => [k.lock]
  | .wakeupNext _ j k => [.proc j, k.lock]
  | .killNext _ j => [.proc j]
  | .killFound j => [.proc j]
  | .yieldSched => own
  | .yieldDone => own
  | .inside l _ => [.obj l]
  | .leave l _ => [.obj l]
  | _ => []
where
  own : List (Lock n M) := (self.map Lock.proc).toList

def Op.onHeld : Op n M → List (Lock n M) → List (Lock n M)
  | .tau, ls => ls
  | .acquire l, ls => l :: ls
  | .release l, ls => ls.erase l

theorem job_held {self : Option (Fin n)}
    (hj : job s self p = .next m) : m.pc.held self = m.op.onHeld (p.held self) := by
  cases job_acts hj with
  | @past c j k _ => cases k <;> rfl
  | _ => first | rfl | simp [Pc.held, Op.onHeld]

theorem job_change (hj : job s none p = .next m) :
    m.eff = .none ∨ (∃ l x d, p = .inside l x ∧ m.eff = .write l d) ∨
      ∃ c j k, p = .wakeup c (j : Fin n) k ∧ (s.slot j).state = .sleeping ∧ (s.slot j).chan = c ∧
        m = ⟨.acquire (.proc j), .ready j, .wakeupNext c j k⟩ := by
  cases job_acts hj with
  | write _ => exact .inr (.inl ⟨_, _, _, rfl, rfl⟩)
  | look _ =>
    split
    · rename_i hs
      exact .inr (.inr ⟨_, _, _, rfl, hs.1, hs.2, rfl⟩)
    · exact .inl rfl
  | _ => exact .inl rfl

variable {i : Fin n}

theorem code_held {inp : Input M}
    (hm : code s i inp p = .next m) : m.pc.held (some i) = m.op.onHeld (p.held (some i)) := by
  revert hm
  fun_cases code s i inp p <;> intro hm <;> first
    | exact job_held hm
    | cases hm
  all_goals first
    | rfl
    | (split <;> rfl)
    | (simp [Pc.held, Pc.held.own, Op.onHeld]; done)
    | (rename_i q k; cases q <;> cases k <;> simp [Pc.held, Pc.held.own, Op.onHeld, Asker.resume, Asker.lock, Why.lock])
    | (rename_i w; cases w <;> simp [Pc.held, Pc.held.own, Op.onHeld, Why.resume, Why.lock])

/-! ## What a move is -/

/-- The state of a process that stands there. It is `RUNNING` but for the last steps before
    `swtch`. -/
def Pc.state : Pc n M → ProcState
  | .exitRelease => .zombie
  | .exitSched => .zombie
  | .sleepSched _ => .sleeping
  | .yieldSched => .runnable
  | _ => .running

def Pc.child : Pc n M → Option (Fin n)
  | .forkDone np _ => some np
  | .forkParent np _ => some np
  | .forkParentDone np _ => some np
  | .forkRun np _ => some np
  | _ => none

def Eff.Quiet : Eff n M → Prop
  | .none | .setParent _ _ | .tidy _ | .write _ _ | .exiting _ _ | .waited _ _ => True
  | _ => False

inductive Change (s : Sys n H M) (i : Fin n) (p : Pc n M) : Move n M → Prop
  | quiet {m : Move n M} (he : m.eff.Quiet) (hs : m.pc.state = p.state)
      (hc : m.pc.child = p.child ∨ m.pc.child = none) : Change s i p m
  | alloc {j : Fin n} (hp : p = .alloc j) (hu : (s.slot j).state = .unused) :
      Change s i p ⟨.acquire (.proc j), .alloc j, .forkDone j s.nextpid⟩
  | allocFail {j : Fin n} (hp : p = .alloc j) (hu : (s.slot j).state = .unused) :
      Change s i p ⟨.acquire (.proc j), .allocFail j, .forkFail j⟩
  | fork {np : Fin n} {pid : Int} (hp : p = .forkRun np pid) :
      Change s i p ⟨.acquire (.proc np), .ready np, .forkRunDone np pid⟩
  | wake {c : Option (Chan n M)} {j : Fin n} {k : Waker M} (hp : p = .wakeup c j k) (hj : j ≠ i)
      (hs : (s.slot j).state = .sleeping) (hc : (s.slot j).chan = c) :
      Change s i p ⟨.acquire (.proc j), .ready j, .wakeupNext c j k⟩
  | kill {pid : Int} {j : Fin n} (hp : p = .kill pid j) (hpid : (s.slot j).pid = pid) :
      Change s i p ⟨.acquire (.proc j), .kill j, .killFound j⟩
  | free {addr : Nat} {pp : Fin n} (hp : p = .waitChild addr pp)
      (hz : (s.slot pp).state = .zombie) :
      Change s i p ⟨.acquire (.proc pp), .free pp,
        .waitReap ⟨pp, s.birth pp, (s.slot pp).pid, (s.slot pp).xstate, (s.slot pp).parent⟩⟩
  | exit {st : Int} (hp : p = .exitZombie st) :
      Change s i p ⟨.acquire (.proc i), .exit i st, .exitRelease⟩
  | sleep {w : Why M} (hp : p = .sleepMark w) :
      Change s i p ⟨.tau, .sleep i (w.chan i), .sleepSched w⟩
  | yield (hp : p = .yield) : Change s i p ⟨.acquire (.proc i), .ready i, .yieldSched⟩

theorem job_quiet (hm : job s (some i) p = .next m) : Change s i p m := by
  cases job_acts hm with
  | look hj =>
    split
    · rename_i hs
      exact .wake rfl (fun he => hj (by rw [he])) hs.1 hs.2
    · exact .quiet trivial rfl (.inl rfl)
  | @past c j k _ => cases k <;> exact .quiet trivial rfl (.inl rfl)
  | _ => exact .quiet trivial rfl (.inl rfl)

theorem code_change {inp : Input M} (hm : code s i inp p = .next m) : Change s i p m := by
  revert hm
  fun_cases code s i inp p <;> intro hm <;> first
    | exact job_quiet hm
    | cases hm
  all_goals first
    | exact .quiet trivial rfl (.inl rfl)
    | exact .quiet trivial rfl (.inr rfl)
    | exact .alloc (j := ⟨_, ‹_›⟩) rfl ‹_›
    | exact .allocFail (j := ⟨_, ‹_›⟩) rfl ‹_›
    | exact .fork rfl
    | exact .kill (j := ⟨_, ‹_›⟩) rfl rfl
    | exact .free rfl ‹_›
    | exact .exit rfl
    | exact .sleep rfl
    | exact .yield rfl
    -- where the move leads depends on who asked, or on what it waits for
    | (split <;> exact .quiet trivial rfl (.inl rfl))
    | (rename_i q k; cases q <;> cases k <;> exact .quiet trivial rfl (.inl rfl))
    | (rename_i w; cases w <;> exact .quiet trivial rfl (.inl rfl))

/-! ## Locks and tables do not interfere -/

section Apply

variable {s : Sys n H M} {eff : Eff n M}

@[simp] theorem apply_lock : (eff.apply s).lock = s.lock := by cases eff <;> rfl
@[simp] theorem apply_noff : (eff.apply s).noff = s.noff := by cases eff <;> rfl
@[simp] theorem apply_ctl : (eff.apply s).ctl = s.ctl := by cases eff <;> rfl
@[simp] theorem apply_proc : (eff.apply s).proc = s.proc := by cases eff <;> rfl
@[simp] theorem apply_initproc : (eff.apply s).initproc = s.initproc := by cases eff <;> rfl

end Apply

variable [DecidableEq H]

def Op.enabled (h : H) (s : Sys n H M) : Op n M → Prop
  | .tau => True
  | .acquire l => s.lock l = none
  | .release l => s.lock l = some h

def Op.after (h : H) (s : Sys n H M) : Op n M → Sys n H M
  | .tau => s
  | .acquire l => { s with
      lock := Function.update s.lock l (some h)
      noff := Function.update s.noff h (s.noff h + 1) }
  | .release l => { s with
      lock := Function.update s.lock l none
      noff := Function.update s.noff h (s.noff h - 1) }

theorem Op.run_eq {h : H} {s' : Sys n H M} {op : Op n M} :
    op.run h s = .next s' ↔ op.enabled h s ∧ s' = op.after h s := by
  cases op with
  | tau => simp [Op.run, Op.enabled, Op.after, eq_comm]
  | acquire l =>
    unfold Op.run Op.enabled Op.after
    cases hl : s.lock l with
    | none => simp [hl, eq_comm]
    | some h' => by_cases hh : h' = h <;> simp [hl, hh]
  | release l =>
    unfold Op.run Op.enabled Op.after
    by_cases hl : s.lock l = some h <;> simp [hl, eq_comm]

section Fields

variable {h : H} {s : Sys n H M} {op : Op n M} {eff : Eff n M}

@[simp] theorem after_slot : (op.after h s).slot = s.slot := by cases op <;> rfl
@[simp] theorem after_thread : (op.after h s).thread = s.thread := by cases op <;> rfl
@[simp] theorem after_ctl : (op.after h s).ctl = s.ctl := by cases op <;> rfl
@[simp] theorem after_proc : (op.after h s).proc = s.proc := by cases op <;> rfl
@[simp] theorem after_data : (op.after h s).data = s.data := by cases op <;> rfl
@[simp] theorem after_nextpid : (op.after h s).nextpid = s.nextpid := by cases op <;> rfl
@[simp] theorem after_initproc : (op.after h s).initproc = s.initproc := by cases op <;> rfl
@[simp] theorem after_births : (op.after h s).births = s.births := by cases op <;> rfl
@[simp] theorem after_birth : (op.after h s).birth = s.birth := by cases op <;> rfl
@[simp] theorem after_exits : (op.after h s).exits = s.exits := by cases op <;> rfl
@[simp] theorem after_waits : (op.after h s).waits = s.waits := by cases op <;> rfl

@[simp] theorem after_apply_lock : (op.after h (eff.apply s)).lock = (op.after h s).lock := by
  cases op <;> simp [Op.after]

@[simp] theorem after_apply_noff : (op.after h (eff.apply s)).noff = (op.after h s).noff := by
  cases op <;> simp [Op.after]

theorem apply_after : eff.apply (op.after h s) = op.after h (eff.apply s) := by
  cases op <;> cases eff <;> rfl

end Fields

/-- Two states with the same tables; locks and program counters may differ. -/
structure SameTables (s t : Sys n H M) : Prop where
  slot : s.slot = t.slot
  data : s.data = t.data
  nextpid : s.nextpid = t.nextpid
  births : s.births = t.births
  birth : s.birth = t.birth
  exits : s.exits = t.exits
  waits : s.waits = t.waits

theorem Move.run_eq {h : H} {s' : Sys n H M} :
    m.run h s = .next s' ↔ m.op.enabled h s ∧ s' = m.op.after h (m.eff.apply s) := by
  unfold Move.run
  cases hr : m.op.run h s with
  | next s₁ =>
    obtain ⟨he, rfl⟩ := Op.run_eq.mp hr
    simp [he, apply_after, eq_comm]
  | blocked =>
    simp only [reduceCtorEq, false_iff]
    rintro ⟨he, -⟩
    exact absurd (Op.run_eq.mpr ⟨he, rfl⟩) (by simp [hr])
  | panic p =>
    simp only [reduceCtorEq, false_iff]
    rintro ⟨he, -⟩
    exact absurd (Op.run_eq.mpr ⟨he, rfl⟩) (by simp [hr])

/-! ## The inversion of `step` -/

inductive Step (s : Sys n H M) (h : H) (inp : Input M) : Sys n H M → Prop
  | wrap {k : Nat} (hc : s.ctl h = .scan k) (hk : n ≤ k) :
      Step s h inp { s with ctl := Function.update s.ctl h (.scan 0) }
  | skip {k : Fin n} (hc : s.ctl h = .scan k) (hl : s.lock (.proc k) = none)
      (hr : (s.slot k).state ≠ .runnable) :
      Step s h inp { (Op.acquire (.proc k)).after h s with
        ctl := Function.update s.ctl h (.skip k) }
  | pick {k : Fin n} (hc : s.ctl h = .scan k) (hl : s.lock (.proc k) = none)
      (hr : (s.slot k).state = .runnable) :
      Step s h inp { (Op.acquire (.proc k)).after h
          (s.modify k fun p => { p with state := .running }) with
        proc := Function.update s.proc h (some k)
        ctl := Function.update s.ctl h (.thread k) }
  | next {k : Fin n} (hc : s.ctl h = .skip k) (hl : s.lock (.proc k) = some h) :
      Step s h inp { (Op.release (.proc k)).after h s with
        ctl := Function.update s.ctl h (.scan (k + 1)) }
  | back {k : Fin n} (hc : s.ctl h = .back k) (hl : s.lock (.proc k) = some h) :
      Step s h inp { (Op.release (.proc k)).after h s with
        proc := Function.update s.proc h none
        ctl := Function.update s.ctl h (.scan (k + 1)) }
  | irq {k : Nat} {l : M.L} {x : M.X} (hc : s.ctl h = .scan k) (hx : M.handler l x = true) :
      Step s h inp { s with ctl := Function.update s.ctl h (.intr k (.enter l x)) }
  | job {k : Nat} {p : Pc n M} {m : Move n M} (hc : s.ctl h = .intr k p)
      (hj : job s none p = .next m) (he : m.op.enabled h s) :
      Step s h inp { m.op.after h (m.eff.apply s) with
        ctl := Function.update s.ctl h (match m.pc with | .user _ => .scan k | q => .intr k q) }
  | trap {i : Fin n} {p : Pc n M} (hc : s.ctl h = .thread i) (h0 : s.noff h = 0)
      (hi : (s.thread i).intr = none)
      (hp : p = .yield ∨ ∃ l x, p = .enter l x ∧ M.handler l x = true) :
      Step s h inp { s with thread := Function.update s.thread i ⟨(s.thread i).pc, some p⟩ }
  | sched {i : Fin n} {q : Pc n M} (hc : s.ctl h = .thread i)
      (hq : (s.thread i).top.sched = some q) (hl : s.lock (.proc i) = some h)
      (h1 : s.noff h = 1) (hr : (s.slot i).state ≠ .running) :
      Step s h inp { s with
        ctl := Function.update s.ctl h (.back i)
        thread := Function.update s.thread i ((s.thread i).goto q) }
  | move {i : Fin n} {m : Move n M} (hc : s.ctl h = .thread i)
      (hq : (s.thread i).top.sched = none) (hm : code s i inp (s.thread i).top = .next m)
      (he : m.op.enabled h s) :
      Step s h inp { m.op.after h (m.eff.apply s) with
        thread := Function.update (m.eff.apply s).thread i ((s.thread i).goto m.pc) }

variable {s s' : Sys n H M} {h : H} {inp : Input M}

theorem Step.of_scan {k : Nat} (hc : s.ctl h = .scan k) (hs : scan h k s = .next s') :
    Step s h inp s' := by
  unfold scan at hs
  split at hs
  · rename_i hk
    cases hr : (Op.acquire (.proc ⟨k, hk⟩)).run h s with
    | blocked => simp [hr] at hs
    | panic p => simp [hr] at hs
    | next s₁ =>
      obtain ⟨hl, rfl⟩ := Op.run_eq.mp hr
      simp only [hr, after_slot] at hs
      split at hs <;> cases hs
      · exact .pick (k := ⟨k, hk⟩) hc hl ‹_›
      · exact .skip (k := ⟨k, hk⟩) hc hl ‹_›
  · cases hs
    exact .wrap hc (by omega)

theorem Step.of_scanNext {k : Fin n} (hs : scanNext h k s = .next s') : s.lock (.proc k) = some h ∧
      s' = { (Op.release (.proc k)).after h s with
        ctl := Function.update s.ctl h (.scan (k + 1)) } := by
  unfold scanNext at hs
  cases hr : (Op.release (.proc k)).run h s with
  | blocked => simp [hr] at hs
  | panic p => simp [hr] at hs
  | next s₁ =>
    obtain ⟨hl, rfl⟩ := Op.run_eq.mp hr
    simp only [hr, after_ctl] at hs
    cases hs
    exact ⟨hl, rfl⟩

theorem Step.of_runIntr {k : Nat} (hc : s.ctl h = .intr k p)
    (hs : runIntr h k p s = .next s') : Step s h inp s' := by
  unfold runIntr at hs
  cases hj : Sched.job s none p with
  | blocked => simp [hj] at hs
  | panic p => simp [hj] at hs
  | next m =>
    simp only [hj] at hs
    cases hr : m.run h s with
    | blocked => simp [hr] at hs
    | panic p => simp [hr] at hs
    | next s₁ =>
      obtain ⟨he, rfl⟩ := Move.run_eq.mp hr
      simp only [hr, after_ctl, apply_ctl] at hs
      cases hs
      exact .job hc hj he

theorem Step.of_interrupt (hc : s.ctl h = .thread i)
    (hp : p = .yield ∨ ∃ l x, p = .enter l x ∧ M.handler l x = true)
    (hs : interrupt h i p s = .next s') : Step s h inp s' := by
  unfold interrupt at hs
  split at hs
  · rename_i h0
    cases hs
    exact .trap hc h0.1 h0.2 hp
  · cases hs

theorem runThread_eq {i : Fin n} {m : Move n M} (hq : (s.thread i).top.sched = none)
    (hm : code s i inp (s.thread i).top = .next m) :
    runThread h i inp s = .next s' ↔ m.op.enabled h s ∧ s' = { m.op.after h (m.eff.apply s) with
        thread := Function.update (m.eff.apply s).thread i ((s.thread i).goto m.pc) } := by
  simp only [runThread, hq, hm]
  cases hr : m.run h s with
  | next s₁ =>
    obtain ⟨he, rfl⟩ := Move.run_eq.mp hr
    simp [he, eq_comm]
  | blocked =>
    simp only [reduceCtorEq, false_iff]
    rintro ⟨he, -⟩
    exact absurd (Move.run_eq.mpr ⟨he, rfl⟩) (by simp [hr])
  | panic p =>
    simp only [reduceCtorEq, false_iff]
    rintro ⟨he, -⟩
    exact absurd (Move.run_eq.mpr ⟨he, rfl⟩) (by simp [hr])

theorem Step.of_runThread (hc : s.ctl h = .thread i)
    (hs : runThread h i inp s = .next s') : Step s h inp s' := by
  cases hq : (s.thread i).top.sched with
  | some q =>
    simp only [runThread, hq, Sched.sched] at hs
    split at hs
    · cases hs
    · split at hs
      · cases hs
      · split at hs <;> cases hs
        exact .sched hc hq (by simpa using ‹¬ s.lock (.proc i) ≠ some h›) (by simpa using ‹¬ s.noff h ≠ 1›) ‹_›
  | none =>
    cases hm : code s i inp (s.thread i).top with
    | blocked => simp [runThread, hq, hm] at hs
    | panic p => simp [runThread, hq, hm] at hs
    | next m =>
      obtain ⟨he, rfl⟩ := (runThread_eq hq hm).mp hs
      exact .move hc hq hm he

/-- **Every step is one of these.** -/
theorem Step.of_step {a : H × Input M} (hs : step s a = .next s') : Step s a.1 a.2 s' := by
  obtain ⟨h, inp⟩ := a
  unfold step at hs
  simp only at hs
  cases hc : s.ctl h with
  | scan k =>
    simp only [hc] at hs
    cases inp
    case intr l x =>
      simp only at hs
      split at hs <;> cases hs
      exact .irq hc ‹_›
    all_goals exact .of_scan hc hs
  | skip k =>
    simp only [hc] at hs
    obtain ⟨hl, rfl⟩ := of_scanNext hs
    exact .next hc hl
  | back k =>
    simp only [hc] at hs
    obtain ⟨hl, rfl⟩ := of_scanNext hs
    exact .back hc hl
  | intr k p =>
    simp only [hc] at hs
    exact .of_runIntr hc hs
  | thread i =>
    simp only [hc] at hs
    cases inp
    case timer => exact .of_interrupt hc (.inl rfl) hs
    case intr l x =>
      simp only at hs
      split at hs
      · exact .of_interrupt hc (.inr ⟨l, x, rfl, ‹_›⟩) hs
      · cases hs
    all_goals exact .of_runThread hc hs

end ZeptOS.Sched
