import ZeptOS.Sched.Placed

/-!
# What a step does to one process

`Turns` is the life of a slot: every way a step can change it, with where the process stands
that does it. The invariants of the process table are proved over its cases, and do not see
the other hundred lines of `code`.
-/

namespace ZeptOS.Sched

open Lib Function
open Mem (ProcState)

variable {n : Nat} {H : Type} {M : Monitor} {s s' : Sys n H M} {h : H} {inp : Input M}
  {i j : Fin n} {p : Pc n M} {m : Move n M}

/-! ## Who does what -/

theorem code_setParent {q : Fin n} (hm : code s i inp p = .next m) (he : m.eff = .setParent j q) :
    (∃ pid, p = .forkParent j pid ∧ q = i ∧ m.pc = .forkParentDone j pid) ∨
      ∃ st, p = .reparent st j ∧ (s.slot j).parent = some i ∧ q = s.initproc ∧
        m.pc = .wakeup (some (.proc s.initproc)) 0 (.reparent st (j + 1)) := by
  cases p <;> simp only [code, job, Sched.move] at hm <;> (repeat' split at hm) <;> cases hm <;>
    cases he
  · exact .inl ⟨_, rfl, rfl, rfl⟩
  · exact .inr ⟨_, rfl, ‹_›, rfl, rfl⟩

theorem code_tidy (hm : code s i inp p = .next m) (he : m.eff = .tidy j) :
    j = i ∧ ∃ w, p = .sleepAwake w := by
  cases p <;> simp only [code, job, Sched.move] at hm <;> (repeat' split at hm) <;> cases hm <;>
    cases he
  exact ⟨rfl, _, rfl⟩

theorem code_exiting {st : Int} (hm : code s i inp p = .next m) (he : m.eff = .exiting j st) :
    j = i ∧ (∃ r, p = .user r) ∧ i ≠ s.initproc ∧ m.pc = .exit st := by
  cases p <;> simp only [code, job, Sched.move] at hm <;> (repeat' split at hm) <;> cases hm <;>
    cases he
  exact ⟨rfl, ⟨_, rfl⟩, ‹_›, rfl⟩

theorem code_waited {r : Reap n} (hm : code s i inp p = .next m) (he : m.eff = .waited j r) :
    j = i ∧ p = .waitReturn (some r) := by
  cases p <;> simp only [code, job, Sched.move] at hm <;> (repeat' split at hm) <;> cases hm <;>
    cases he
  exact ⟨rfl, rfl⟩

/-! ## Where a move leads -/

/-- Places where a process says nothing about other processes. -/
def Pc.Plain : Pc n M → Prop
  | .forkDone _ _ | .forkParent _ _ | .forkParentDone _ _ | .forkRun _ _ | .forkRunDone _ _ => False
  | .exit _ | .reparent _ _ | .exitZombie _ => False
  | .wakeup _ _ (.reparent _ _) | .wakeup _ _ (.exit _) => False
  | .wakeupNext _ _ (.reparent _ _) | .wakeupNext _ _ (.exit _) => False
  | .waitChild _ _ | .waitReap _ | .waitReturn (some _) => False
  | .kill _ _ | .killNext _ _ | .killFound _ => False
  | _ => True

/-- In `exit`: the status, and how many slots it has looked at for children. -/
def Pc.leaving : Pc n M → Option (Int × Nat)
  | .exit st => some (st, 0)
  | .reparent st j => some (st, j)
  | .wakeup _ _ (.reparent st j) | .wakeupNext _ _ (.reparent st j) => some (st, j)
  | .wakeup _ _ (.exit st) | .wakeupNext _ _ (.exit st) => some (st, n)
  | .exitZombie st => some (st, n)
  | _ => none

inductive Arrives (s : Sys n H M) (i : Fin n) (inp : Input M) (p : Pc n M) : Move n M → Prop
  | plain {m : Move n M} (hpc : m.pc.Plain) : Arrives s i inp p m
  | forkDone {j : Fin n} (hp : p = .alloc j) (hu : (s.slot j).state = .unused) :
      Arrives s i inp p ⟨.acquire (.proc j), .alloc j, .forkDone j s.nextpid⟩
  | forkParent {np : Fin n} {pid : Int} (hp : p = .forkDone np pid) :
      Arrives s i inp p ⟨.release (.proc np), .none, .forkParent np pid⟩
  | forkParentDone {np : Fin n} {pid : Int} (hp : p = .forkParent np pid) :
      Arrives s i inp p ⟨.acquire .wait, .setParent np i, .forkParentDone np pid⟩
  | forkRun {np : Fin n} {pid : Int} (hp : p = .forkParentDone np pid) :
      Arrives s i inp p ⟨.release .wait, .none, .forkRun np pid⟩
  | forkRunDone {np : Fin n} {pid : Int} (hp : p = .forkRun np pid) :
      Arrives s i inp p ⟨.acquire (.proc np), .ready np, .forkRunDone np pid⟩
  | exit {r st : Int} (hp : p = .user r) (hi : i ≠ s.initproc) :
      Arrives s i inp p ⟨.tau, .exiting i st, .exit st⟩
  | reparent {st : Int} (hp : p = .exit st) :
      Arrives s i inp p ⟨.acquire .wait, .none, .reparent st 0⟩
  | pass {st : Int} {j : Fin n} (hp : p = .reparent st j) (hpar : (s.slot j).parent ≠ some i) :
      Arrives s i inp p ⟨.tau, .none, .reparent st (j + 1)⟩
  | give {st : Int} {j : Fin n} (hp : p = .reparent st j) (hpar : (s.slot j).parent = some i) :
      Arrives s i inp p ⟨.tau, .setParent j s.initproc,
        .wakeup (some (.proc s.initproc)) 0 (.reparent st (j + 1))⟩
  | gave {st : Int} {j : Nat} (hp : p = .reparent st j) (hj : n ≤ j) :
      Arrives s i inp p ⟨.tau, .none, .wakeup ((s.slot i).parent.map .proc) 0 (.exit st)⟩
  | wakes {m : Move n M} {x : Int × Nat} (hp : p.leaving = some x) (hpc : m.pc.leaving = some x) :
      Arrives s i inp p m
  | looks {addr j : Nat} {kids : Bool} {pp : Fin n} (hp : p = .waitScan addr j kids)
      (hpar : (s.slot pp).parent = some i) :
      Arrives s i inp p ⟨.tau, .none, .waitChild addr pp⟩
  | reap {addr : Nat} {pp : Fin n} (hp : p = .waitChild addr pp)
      (hz : (s.slot pp).state = .zombie) :
      Arrives s i inp p ⟨.acquire (.proc pp), .free pp,
        .waitReap ⟨pp, s.birth pp, (s.slot pp).pid, (s.slot pp).xstate, (s.slot pp).parent⟩⟩
  | reaped {r : Reap n} (hp : p = .waitReap r) :
      Arrives s i inp p ⟨.release (.proc r.child), .none, .waitReturn (some r)⟩
  | kill {r pid : Int} (hp : p = .user r) (hinp : inp = .kill pid) :
      Arrives s i inp p ⟨.tau, .none, .kill pid 0⟩
  | killNext {pid : Int} {j : Fin n} (hp : p = .kill pid j) :
      Arrives s i inp p ⟨.acquire (.proc j), .none, .killNext pid j⟩
  | killOn {pid : Int} {j : Fin n} (hp : p = .killNext pid j) :
      Arrives s i inp p ⟨.release (.proc j), .none, .kill pid (j + 1)⟩
  | killFound {pid : Int} {j : Fin n} (hp : p = .kill pid j) (hpid : (s.slot j).pid = pid) :
      Arrives s i inp p ⟨.acquire (.proc j), .kill j, .killFound j⟩

theorem Acts.arrives (ha : Acts s (some i) p m) : Arrives s i inp p m := by
  cases ha with
  | @skip _ _ k | @look _ _ k | @past _ _ k | @next _ _ k =>
    cases k <;> first | exact .plain trivial | exact .wakes rfl rfl
  | _ => exact .plain trivial

theorem code_arrives (hm : code s i inp p = .next m) : Arrives s i inp p m := by
  revert hm
  fun_cases code s i inp p <;> intro hm <;> first
    | exact (job_acts hm).arrives
    | cases hm
  all_goals first
    | exact .plain trivial
    | exact .forkDone (j := ⟨_, ‹_›⟩) rfl ‹_›
    | exact .forkParent rfl
    | exact .forkParentDone rfl
    | exact .forkRun rfl
    | exact .forkRunDone rfl
    | exact .exit rfl ‹_›
    | exact .reparent rfl
    | exact .pass (j := ⟨_, ‹_›⟩) rfl ‹_›
    | exact .give (j := ⟨_, ‹_›⟩) rfl ‹_›
    | exact .gave rfl (Nat.le_of_not_lt ‹_›)
    | exact .looks rfl ‹_›
    | exact .reap rfl ‹_›
    | exact .reaped rfl
    | exact .kill rfl rfl
    | exact .killFound (j := ⟨_, ‹_›⟩) rfl rfl
    | exact .killNext (j := ⟨_, ‹_›⟩) rfl
    | exact .killOn rfl
    | (split <;> exact .plain trivial)
    | (rename_i q k; cases q <;> cases k <;> exact .plain trivial)
    | (rename_i w; cases w <;> exact .plain trivial)

theorem Pc.leaving_plain (hp : p.Plain) : p.leaving = none := by
  cases p
  case wakeup c j w | wakeupNext c j w => cases w <;> first | exact hp.elim | rfl
  all_goals first | exact hp.elim | rfl

/-- What a program counter says that is not said at plain places: it has said it before, or the
    thread has just arrived there. -/
theorem Placed.arrives [DecidableEq H] {α : Type} {f : Pc n M → Option α}
    (hf : ∀ q : Pc n M, q.Plain → f q = none) (P : Placed s) (hs : Step s h inp s') {a : α}
    (ha : f (s'.thread j).pc = some a) : (s'.thread j).pc = (s.thread j).pc ∨
    ∃ m, s.ctl h = .thread j ∧ (s.thread j).intr = none ∧ ¬ m.pc.Plain ∧
      Arrives s j inp (s.thread j).pc m ∧ SameTables s' (m.eff.apply s) ∧
      (s'.thread j).pc = m.pc := by
  rcases P.goes_some ⟨hf _ trivial, hf _ trivial, hf _ trivial, fun w => hf _ trivial⟩ hs ha with
    e | ⟨m, hc, hi, hm, ht, e⟩
  · exact .inl e
  · refine .inr ⟨m, hc, hi, fun hpl => ?_, code_arrives hm, ht, e⟩
    rw [e, hf _ hpl] at ha
    cases ha

/-! ## The life of a slot -/

/-- What becomes of slot `j` in a step of hart `h` from `s` to `s'`. -/
inductive Turns (s : Sys n H M) (h : H) (s' : Sys n H M) (j : Fin n) : Prop
  | stays (e : s'.slot j = s.slot j)
  | run (hc : s.ctl h = .scan j) (hr : (s.slot j).state = .runnable)
      (e : s'.slot j = { s.slot j with state := .running })
  | alloc {i : Fin n} (hc : s.ctl h = .thread i) (hp : (s.thread i).top = .alloc j)
      (hu : (s.slot j).state = .unused) (hpid : s'.nextpid = incPid s.nextpid)
      (hbs : s'.births = s.births + 1) (hb : s'.birth j = s.births)
      (e : s'.slot j = { s.slot j with pid := s.nextpid, state := .used })
  | allocFail {i : Fin n} (hc : s.ctl h = .thread i) (hp : (s.thread i).top = .alloc j)
      (hu : (s.slot j).state = .unused) (e : s'.slot j = .empty)
  | parent {i : Fin n} {pid : Int} (hc : s.ctl h = .thread i)
      (hp : (s.thread i).pc = .forkParent j pid) (hp' : (s'.thread i).pc = .forkParentDone j pid)
      (e : s'.slot j = { s.slot j with parent := some i })
  | ready {i : Fin n} {pid : Int} (hc : s.ctl h = .thread i)
      (hp : (s.thread i).pc = .forkRun j pid) (hu : (s.slot j).state = .used)
      (e : s'.slot j = { s.slot j with state := .runnable })
  | wake (hs : (s.slot j).state = .sleeping) (hl : s.lock (.proc j) = none)
      (e : s'.slot j = { s.slot j with state := .runnable })
  | kill {i : Fin n} {pid : Int} (hc : s.ctl h = .thread i) (hp : (s.thread i).pc = .kill pid j)
      (hi : (s.thread i).intr = none) (hpid : (s.slot j).pid = pid) (hl : s.lock (.proc j) = none)
      (e : s'.slot j = { s.slot j with
        killed := true
        state := if (s.slot j).state = .sleeping then .runnable else (s.slot j).state })
  | free {i : Fin n} {addr : Nat} (hc : s.ctl h = .thread i)
      (hp : (s.thread i).pc = .waitChild addr j) (hz : (s.slot j).state = .zombie)
      (hp' : (s'.thread i).pc = .waitReap
        ⟨j, s.birth j, (s.slot j).pid, (s.slot j).xstate, (s.slot j).parent⟩)
      (e : s'.slot j = .empty)
  | reparent {i : Fin n} {st : Int} (hc : s.ctl h = .thread i)
      (hp : (s.thread i).pc = .reparent st j) (hpar : (s.slot j).parent = some i)
      (hp' : (s'.thread i).pc = .wakeup (some (.proc s.initproc)) 0 (.reparent st (j + 1)))
      (e : s'.slot j = { s.slot j with parent := some s.initproc })
  | exit {st : Int} (hc : s.ctl h = .thread j) (hp : (s.thread j).pc = .exitZombie st)
      (hp' : (s'.thread j).pc = .exitRelease)
      (e : s'.slot j = { s.slot j with xstate := st, state := .zombie })
  | sleep {w : Why M} (hc : s.ctl h = .thread j) (hp : (s.thread j).top = .sleepMark w)
      (e : s'.slot j = { s.slot j with chan := some (w.chan j), state := .sleeping })
  | tidy {w : Why M} (hc : s.ctl h = .thread j) (hp : (s.thread j).top = .sleepAwake w)
      (e : s'.slot j = { s.slot j with chan := none })
  | yield (hc : s.ctl h = .thread j) (hp : (s.thread j).top = .yield)
      (e : s'.slot j = { s.slot j with state := .runnable })

theorem Placed.turns_move [DecidableEq H] (P : Placed s) (hc : s.ctl h = .thread i)
    (hm : code s i inp (s.thread i).top = .next m) (he : m.op.enabled h s)
    (h1 : s'.slot = (m.eff.apply s).slot) (h2 : s'.nextpid = (m.eff.apply s).nextpid)
    (h3 : s'.births = (m.eff.apply s).births) (h4 : s'.birth = (m.eff.apply s).birth)
    (h5 : s'.thread i = (s.thread i).goto m.pc) (j : Fin n) : Turns s h s' j := by
  have hself : s'.slot j = (m.eff.apply s).slot j := by rw [h1]
  have hpc : (s.thread i).intr = none → (s'.thread i).pc = m.pc := fun hn => by
    rw [h5, goto_pc_of_none hn]
  by_cases ht : m.eff.target = some j
  · have hch := code_change hm
    cases hch with
    | quiet hq _ _ =>
      cases heff : m.eff with
      | none | write | exiting | waited => exact .stays (by rw [h1, heff]; rfl)
      | setParent k q =>
        rw [heff] at ht
        cases ht
        have hself' : s'.slot j = { s.slot j with parent := some q } :=
          hself.trans (by rw [heff]; exact update_self ..)
        rcases code_setParent hm heff with ⟨pid, hp, rfl, hmpc⟩ | ⟨st, hp, hpar, rfl, hmpc⟩
        · obtain ⟨hp, hn⟩ := P.top_pc hp fun hh => hh
          exact .parent hc hp ((hpc hn).trans hmpc) hself'
        · obtain ⟨hp, hn⟩ := P.top_pc hp fun hh => hh
          exact .reparent hc hp hpar ((hpc hn).trans hmpc) hself'
      | tidy k =>
        rw [heff] at ht
        cases ht
        obtain ⟨rfl, w, hp⟩ := code_tidy hm heff
        exact .tidy hc hp (hself.trans (by rw [heff]; exact update_self ..))
      | _ =>
        rw [heff] at hq
        exact hq.elim
    | alloc hp hu =>
      cases ht
      exact .alloc hc hp hu h2 h3 (by rw [h4]; exact update_self ..) (hself.trans (update_self _ _ _))
    | allocFail hp hu =>
      cases ht
      exact .allocFail hc hp hu (hself.trans (update_self ..))
    | fork hp =>
      cases ht
      have hpc := (P.top_pc hp fun hh => hh).1
      exact .ready hc hpc (P.fork i j (by rw [hpc]; rfl)) (hself.trans (update_self ..))
    | wake _ _ hs _ =>
      cases ht
      exact .wake hs he (hself.trans (update_self ..))
    | kill hp hpid =>
      cases ht
      obtain ⟨hp, hn⟩ := P.top_pc hp fun hh => hh
      exact .kill hc hp hn hpid he (hself.trans (update_self ..))
    | free hp hz =>
      cases ht
      obtain ⟨hp, hn⟩ := P.top_pc hp fun hh => hh
      exact .free hc hp hz (hpc hn) (hself.trans (update_self ..))
    | exit hp =>
      cases ht
      obtain ⟨hp, hn⟩ := P.top_pc hp fun hh => hh
      exact .exit hc hp (hpc hn) (hself.trans (update_self ..))
    | sleep hp =>
      cases ht
      exact .sleep hc hp (hself.trans (update_self ..))
    | yield hp =>
      cases ht
      exact .yield hc hp (hself.trans (update_self ..))
  · exact .stays (by rw [h1, apply_slot_of_ne ht])

/-- **A step turns a slot in one of these ways.** -/
theorem Placed.turns [DecidableEq H] (P : Placed s) (hs : Step s h inp s') (j : Fin n) :
    Turns s h s' j := by
  cases hs with
  | wrap _ _ | skip _ _ _ | next _ _ | back _ _ | irq _ _ | trap _ _ _ _ | sched _ _ _ _ _ =>
    exact .stays rfl
  | @pick k hc hl hr =>
    by_cases hj : j = k
    · subst hj
      exact .run hc hr (update_self ..)
    · exact .stays (update_of_ne hj _ _)
  | job _ hj he =>
    rcases job_change hj with h0 | ⟨l, x, d, -, h0⟩ | ⟨c, j', w, -, hs, -, rfl⟩
    · exact .stays (by simp only [after_slot, h0]; rfl)
    · exact .stays (by simp only [after_slot, h0]; rfl)
    · by_cases hjj : j = j'
      · subst hjj
        exact .wake hs he (update_self ..)
      · exact .stays (update_of_ne hjj _ _)
  | move hc _ hm he =>
    refine P.turns_move hc hm he ?_ ?_ ?_ ?_ ?_ j
    · exact after_slot
    · exact after_nextpid
    · exact after_births
    · exact after_birth
    · exact update_self ..

theorem Step.nextpid [DecidableEq H] (hs : Step s h inp s') : s'.nextpid = s.nextpid ∨
    s'.nextpid = incPid s.nextpid ∧ ∃ i j : Fin n, s.ctl h = .thread i ∧
      (s.thread i).top = .alloc j := by
  cases hs with
  | wrap _ _ | skip _ _ _ | pick _ _ _ | next _ _ | back _ _ | irq _ _ | trap _ _ _ _
  | sched _ _ _ _ _ => exact .inl rfl
  | job hc hj _ =>
    refine .inl (after_nextpid.trans ?_)
    rcases job_change hj with h0 | ⟨l, x, d, -, h0⟩ | ⟨c, j', w, -, -, -, rfl⟩
    · rw [h0]
      rfl
    · rw [h0]
      rfl
    · rfl
  | @move i m hc _ hm he =>
    have hch := code_change hm
    have hn : (Op.after h (m.eff.apply s) m.op).nextpid = (m.eff.apply s).nextpid := after_nextpid
    show (Op.after h (m.eff.apply s) m.op).nextpid = s.nextpid ∨
      (Op.after h (m.eff.apply s) m.op).nextpid = incPid s.nextpid ∧ _
    rw [hn]
    cases hch with
    | alloc hp _ | allocFail hp _ => exact .inr ⟨rfl, i, _, hc, hp⟩
    | quiet hq _ _ => exact .inl (by cases heff : m.eff <;> rw [heff] at hq <;> first | exact hq.elim | rfl)
    | _ => exact .inl rfl

theorem Placed.pid_turns [DecidableEq H] (P : Placed s) (hs : Step s h inp s')
    (hl : (s'.slot j).state ≠ .unused) :
    (s.slot j).state ≠ .unused ∧ (s'.slot j).pid = (s.slot j).pid ∨
    (s'.slot j).pid = s.nextpid ∧ s'.nextpid = incPid s.nextpid ∧
      (∃ i, s.ctl h = .thread i ∧ (s.thread i).top = .alloc j) ∧
      (s.slot j).state = .unused ∧ s'.births = s.births + 1 ∧ s'.birth j = s.births := by
  cases P.turns hs j with
  | stays e | parent _ _ _ e | reparent _ _ _ _ e | tidy _ _ e =>
    rw [e] at hl ⊢
    exact .inl ⟨hl, rfl⟩
  | alloc hc hp hu hn hbs hb e => exact .inr ⟨by rw [e], hn, ⟨_, hc, hp⟩, hu, hbs, hb⟩
  | allocFail _ _ _ e | free _ _ _ _ e =>
    rw [e] at hl
    exact absurd rfl hl
  | run _ hst e | ready _ _ hst e | wake hst _ e =>
    rw [e, hst]
    exact .inl ⟨ProcState.noConfusion, rfl⟩
  | kill _ _ _ _ _ e =>
    rw [e] at hl ⊢
    refine .inl ⟨fun hu => hl ?_, rfl⟩
    simp only [hu, reduceCtorEq, if_false]
  | exit hc _ _ e | sleep hc _ e | yield hc _ e =>
    refine .inl ⟨?_, by rw [e]⟩
    rw [P.on h j hc]
    exact Pc.state_ne.2

theorem Placed.sleeping_turns [DecidableEq H] (P : Placed s) (hs : Step s h inp s')
    (hst : (s'.slot j).state = .sleeping) :
    (s.slot j).state = .sleeping ∨ ∃ w, s.ctl h = .thread j ∧ (s.thread j).top = .sleepMark w := by
  cases P.turns hs j with
  | stays e | parent _ _ _ e | reparent _ _ _ _ e | tidy _ _ e =>
    rw [e] at hst
    exact .inl hst
  | kill _ _ _ _ _ e =>
    rw [e] at hst
    simp only at hst
    split at hst
    · cases hst
    · exact .inl hst
  | sleep hc hp _ => exact .inr ⟨_, hc, hp⟩
  | run _ _ e | alloc _ _ _ _ _ _ e | allocFail _ _ _ e | ready _ _ _ e | wake _ _ e
  | free _ _ _ _ e | exit _ _ _ e | yield _ _ e =>
    rw [e] at hst
    cases hst

/-- A slot that is free, or is going to be, has no thread that does anything but `exit`. -/
theorem Placed.gone (P : Placed s) {i : Fin n}
    (hst : (s.slot i).state = .unused ∨ (s.slot i).state = .zombie) :
    (s.thread i).top = .dead ∨ (s.thread i).top.state = .zombie := by
  by_cases hc : ∃ h, s.ctl h = .thread i
  · obtain ⟨h, hc⟩ := hc
    rw [P.on h i hc] at hst
    exact .inr (hst.resolve_left Pc.state_ne.2)
  · have hoff := P.off i fun h hh => hc ⟨h, hh⟩
    refine .inl ?_
    rcases hst with hst | hst <;> rw [hst] at hoff <;> rw [show s.thread i = _ from hoff] <;> rfl

theorem Placed.not_own (P : Placed s) {i : Fin n} (hl : s.lock (.proc i) = none) :
    Lock.proc i ∉ (s.thread i).top.held (some i) ∨ (s.thread i).top.Resumes ∨
      (s.thread i).top = .dead := by
  by_cases hc : ∃ h, s.ctl h = .thread i
  · obtain ⟨h, hc⟩ := hc
    refine .inl ?_
    have := P.locks.not_held hl h
    unfold Sys.held at this
    rwa [hc] at this
  · have hoff := P.off i fun h hh => hc ⟨h, hh⟩
    refine .inr ?_
    cases hst : (s.slot i).state <;> rw [hst] at hoff
    · exact .inr (by rw [show s.thread i = _ from hoff]; rfl)
    · exact .inl (by rw [show s.thread i = _ from hoff]; trivial)
    · obtain ⟨w, hw⟩ := hoff
      exact .inl (by rw [hw]; trivial)
    · exact .inl hoff
    · exact hoff.elim
    · exact .inr (by rw [show s.thread i = _ from hoff]; rfl)

end ZeptOS.Sched
