import ZeptOS.Lib.Locks
import ZeptOS.Sched.Step

/-!
# Where everybody is

The invariant everything else rests on. The locks are held by the harts that stand where
they are held, a process is executed by at most one hart, the state of a process that is
executed is what its program counter says, and one that is not executed waits at one of
the three places `swtch` comes back to.

`sched` gives `p->lock` to the scheduler and the scheduler gives it to the thread it picks.
Here that is a fact about `Sys.held`: the lock is held by the hart, before `swtch` because
the thread stands there and after it because the scheduler does.
-/

namespace ZeptOS.Sched

open Lib
open Function (update update_self update_of_ne)
open Mem (ProcState)

variable {n : Nat} {H : Type} {M : Monitor}
variable {st st' : ProcState}

def Sys.held (s : Sys n H M) (h : H) : List (Lock n M) :=
  match s.ctl h with
  | .scan _ => []
  | .skip k => [.proc k]
  | .back k => [.proc k]
  | .thread i => (s.thread i).top.held (some i)
  | .intr _ p => p.held none

def Ctl.runs : Ctl n M → Option (Fin n)
  | .thread i => some i
  | _ => none

def Pc.Resumes : Pc n M → Prop
  | .forkret | .sleepAwake _ | .yieldDone => True
  | _ => False

/-- What an interrupt handler, or `yield` in its place, goes through. -/
def Pc.Handler : Pc n M → Prop
  | .yield | .yieldSched | .yieldDone => True
  | .enter _ _ | .inside _ _ | .leave _ _ => True
  | .wakeup _ _ (.obj _ _) | .wakeupNext _ _ (.obj _ _) => True
  | .killed (.obj _ _ _) | .killedDone (.obj _ _ _) _ => True
  | .sleep (.obj _ _ _) | .sleepRelease (.obj _ _ _) | .sleepMark (.obj _ _ _) => True
  | .sleepSched (.obj _ _ _) | .sleepAwake (.obj _ _ _) | .sleepReacquire (.obj _ _ _) => True
  | _ => False

def Off (st : ProcState) (t : Thread n M) : Prop :=
  match st with
  | .running => False
  | .runnable => t.top.Resumes
  | .sleeping => ∃ w, t.top = .sleepAwake w
  | .used => t = ⟨.forkret, none⟩
  | .zombie => t = ⟨.dead, none⟩
  | .unused => t = ⟨.dead, none⟩

structure Placed (s : Sys n H M) : Prop where
  locks : Agree s.lock s.noff s.held
  one : ∀ h h' i, s.ctl h = .thread i → s.ctl h' = .thread i → h = h'
  on : ∀ h i, s.ctl h = .thread i → (s.slot i).state = (s.thread i).top.state
  off : ∀ i, (∀ h, s.ctl h ≠ .thread i) → Off (s.slot i).state (s.thread i)
  base : ∀ i p, (s.thread i).intr = some p → p.Handler ∧ (s.thread i).pc.held (some i) = []
  fork : ∀ i np, (s.thread i).pc.child = some np → (s.slot np).state = .used
  forker : ∀ i j np, (s.thread i).pc.child = some np → (s.thread j).pc.child = some np → i = j

/-! ## Program counters -/

variable {p : Pc n M}

theorem Pc.state_of_held {i : Fin n} (h : p.held (some i) = []) : p.state = .running := by
  cases p <;> simp [Pc.held, Pc.held.own] at h <;> rfl

theorem Pc.Resumes.held {i : Fin n} (h : p.Resumes) : p.held (some i) = [.proc i] := by
  cases p <;> first | exact h.elim | rfl

theorem Pc.Resumes.state (h : p.Resumes) : p.state = .running := by
  cases p <;> first | exact h.elim | rfl

theorem Pc.own_of_state {i : Fin n} (h : p.state ≠ .running) : Lock.proc i ∈ p.held (some i) := by
  cases p <;> first | exact absurd rfl h | simp [Pc.held, Pc.held.own]

theorem Pc.state_ne : p.state ≠ .used ∧ p.state ≠ .unused := by
  cases p <;> exact ⟨ProcState.noConfusion, ProcState.noConfusion⟩

theorem sched_state {q : Pc n M} (h : p.sched = some q) : q = .dead ∧ p = .exitSched ∨
    p.state = .runnable ∧ q = .yieldDone ∨ ∃ w, p = .sleepSched w ∧ q = .sleepAwake w := by
  cases p <;> cases h
  · exact .inl ⟨rfl, rfl⟩
  · exact .inr (.inr ⟨_, rfl, rfl⟩)
  · exact .inr (.inl ⟨rfl, rfl⟩)

theorem Acts.handler {s : Sys n H M} {self : Option (Fin n)} {m : Move n M}
    (ha : Acts s self p m) (hp : p.Handler) : m.pc.Handler ∨ ∃ r, m.pc = .user r := by
  cases ha with
  | leave => exact .inr ⟨_, rfl⟩
  | @skip _ _ k | @look _ _ k | @past _ _ k | @next _ _ k =>
    cases k <;> first | exact hp.elim | exact .inl trivial
  | _ => exact .inl trivial

theorem code_handler {s : Sys n H M} {i : Fin n} {inp : Input M} {m : Move n M}
    (hp : p.Handler) (hm : code s i inp p = .next m) : m.pc.Handler ∨ ∃ r, m.pc = .user r := by
  revert hm
  fun_cases code s i inp p <;> intro hm <;> first
    | exact hp.elim
    | exact (job_acts hm).handler hp
    | cases hm
  all_goals first
    | exact .inl trivial
    | exact .inr ⟨_, rfl⟩
    | (rename_i q k; cases q <;> first | exact hp.elim | exact .inl trivial)
    | (rename_i w; cases w <;> first | exact hp.elim | exact .inl trivial)

section Goto

variable {t : Thread n M} {p : Pc n M} {i : Fin n}

theorem goto_top (h : t.intr = none) : (t.goto p).top = p := by
  simp [Thread.goto, Thread.top, h]

theorem goto_pc_of_none (h : t.intr = none) : (t.goto p) = ⟨p, none⟩ := by
  simp [Thread.goto, h]

theorem goto_of_some {q : Pc n M} (h : t.intr = some q) :
    t.goto p = ⟨t.pc, match p with | .user _ => none | p => some p⟩ := by
  unfold Thread.goto
  rw [h]
  cases p <;> rfl

theorem goto_cases (t : Thread n M) (p : Pc n M) : (t.goto p).top = p ∨
    (∃ r, p = .user r) ∧ (∃ q, t.intr = some q) ∧ (t.goto p).top = t.pc := by
  cases h : t.intr with
  | none => exact .inl (goto_top h)
  | some q =>
    rw [goto_of_some h]
    cases p <;> first | exact .inl rfl | exact .inr ⟨⟨_, rfl⟩, ⟨q, rfl⟩, rfl⟩

theorem goto_both {Q : Pc n M → Prop} (hpc : (∃ q, t.intr = some q) → Q t.pc) (hp : Q p) :
    Q (t.goto p).pc ∧ ∀ q, (t.goto p).intr = some q → Q q := by
  cases h : t.intr with
  | none =>
    rw [goto_pc_of_none h]
    exact ⟨hp, nofun⟩
  | some q =>
    rw [goto_of_some h]
    refine ⟨hpc ⟨q, h⟩, ?_⟩
    cases p <;> rintro q ⟨⟩ <;> exact hp

theorem goto_held (hb : ∀ q, t.intr = some q → t.pc.held (some i) = []) :
    (t.goto p).top.held (some i) = p.held (some i) := by
  rcases goto_cases t p with h | ⟨⟨r, rfl⟩, ⟨q, hq⟩, h⟩ <;> rw [h]
  exact hb q hq

theorem goto_state (hb : ∀ q, t.intr = some q → t.pc.held (some i) = []) :
    (t.goto p).top.state = p.state := by
  rcases goto_cases t p with h | ⟨⟨r, rfl⟩, ⟨q, hq⟩, h⟩ <;> rw [h]
  exact Pc.state_of_held (hb q hq)

end Goto

/-! ## Tables -/

section Tables

variable {s : Sys n H M} {eff : Eff n M}

@[simp] theorem modify_slot_self {j : Fin n} {f : Slot n M → Slot n M} :
    (s.modify j f).slot j = f (s.slot j) := update_self ..

theorem modify_slot_of_ne {j k : Fin n} {f : Slot n M → Slot n M} (h : k ≠ j) :
    (s.modify j f).slot k = s.slot k := update_of_ne h _ _

theorem modify_state {j : Fin n} {f : Slot n M → Slot n M} (hf : (f (s.slot j)).state = (s.slot j).state)
    (k : Fin n) : ((s.modify j f).slot k).state = (s.slot k).state := by
  by_cases h : k = j
  · rw [h, modify_slot_self, hf]
  · rw [modify_slot_of_ne h]

def Eff.target : Eff n M → Option (Fin n)
  | .alloc j | .allocFail j | .free j | .setParent j _ | .ready j | .kill j => some j
  | .exit i _ | .sleep i _ | .tidy i => some i
  | .none | .write _ _ | .exiting _ _ | .waited _ _ => Option.none

theorem apply_slot_of_ne {j : Fin n} (h : eff.target ≠ some j) :
    (eff.apply s).slot j = s.slot j := by
  cases eff with
  | none | write | exiting | waited => rfl
  | _ => exact update_of_ne (fun he => h (congrArg some he.symm)) _ _

theorem apply_thread_of_ne {j : Fin n} (h : eff.target ≠ some j) :
    (eff.apply s).thread j = s.thread j := by
  cases eff with
  | alloc k => exact update_of_ne (fun he => h (congrArg some he.symm)) _ _
  | _ => rfl

theorem apply_thread_of_not_alloc {j : Fin n} (h : eff ≠ .alloc j) :
    (eff.apply s).thread j = s.thread j := by
  cases eff with
  | alloc k => exact update_of_ne (fun he => h (by rw [he])) _ _
  | _ => rfl

theorem Eff.Quiet.state (h : eff.Quiet) (j : Fin n) :
    ((eff.apply s).slot j).state = (s.slot j).state := by
  cases eff with
  | none | write | exiting | waited => rfl
  | setParent k p => exact @modify_state _ _ _ s k (fun q => { q with parent := some p }) rfl j
  | tidy k => exact @modify_state _ _ _ s k (fun p => { p with chan := Option.none }) rfl j
  | _ => exact h.elim

theorem Eff.Quiet.thread (h : eff.Quiet) : (eff.apply s).thread = s.thread := by
  cases eff <;> first | exact h.elim | rfl

theorem job_thread {m : Move n M} (hj : job s none p = .next m) :
    (m.eff.apply s).thread = s.thread := by
  rcases job_change hj with h0 | ⟨l, x, d, -, h0⟩ | ⟨c, j, w, -, -, -, h0⟩ <;> rw [h0] <;> rfl

end Tables

/-- What a process can do to the slot and the thread of another one, and to its own
    without a word of its program counter. -/
inductive Outside : ProcState → Thread n M → ProcState → Thread n M → Prop
  | alloc {t} : Outside .unused t .used ⟨.forkret, none⟩
  | fork {t} : Outside .used t .runnable t
  | wake {t} : Outside .sleeping t .runnable t
  | free {t} : Outside .zombie t .unused t

theorem Outside.thread {t t' : Thread n M} (h : Outside st t st' t') :
    t' = t ∨ t' = ⟨.forkret, none⟩ := by
  cases h
  · exact .inr rfl
  all_goals exact .inl rfl

theorem Off.outside {t t' : Thread n M} (h : Off st t) (ho : Outside st t st' t') : Off st' t' := by
  cases ho with
  | alloc => rfl
  | fork =>
    rw [show t = ⟨.forkret, none⟩ from h]
    trivial
  | wake =>
    obtain ⟨w, hw⟩ := h
    show t.top.Resumes
    rw [hw]
    trivial
  | free => exact h

variable {s s' : Sys n H M} {h : H} {inp : Input M} {i : Fin n} {m : Move n M}

theorem Placed.top (P : Placed s) (i : Fin n) :
    (s.thread i).top = (s.thread i).pc ∧ (s.thread i).intr = none ∨
      (s.thread i).intr = some (s.thread i).top ∧ (s.thread i).top.Handler := by
  unfold Thread.top
  cases h : (s.thread i).intr with
  | none => exact .inl ⟨rfl, rfl⟩
  | some q => exact .inr ⟨rfl, (P.base i q h).1⟩

theorem Placed.top_pc (P : Placed s) (hp : (s.thread i).top = p) (hn : ¬ p.Handler) :
    (s.thread i).pc = p ∧ (s.thread i).intr = none := by
  rcases P.top i with ⟨he, hi⟩ | ⟨-, hh⟩
  · exact ⟨he ▸ hp, hi⟩
  · exact absurd (hp ▸ hh) hn

theorem Placed.others [DecidableEq H] (P : Placed s) (hm : Change s i (s.thread i).top m)
    (he : m.op.enabled h s) {j : Fin n} (hj : j ≠ i) :
    ((m.eff.apply s).slot j).state = (s.slot j).state ∧ (m.eff.apply s).thread j = s.thread j ∨
    s.lock (.proc j) = none ∧ Outside (s.slot j).state (s.thread j)
      ((m.eff.apply s).slot j).state ((m.eff.apply s).thread j) := by
  by_cases ht : m.eff.target = some j
  · cases hm with
    | quiet hq _ _ => exact .inl ⟨hq.state j, by rw [hq.thread]⟩
    | alloc _ hu =>
      cases ht
      refine .inr ⟨he, ?_⟩
      simp only [Eff.apply, modify_slot_self, update_self, hu]
      exact .alloc
    | allocFail _ hu =>
      cases ht
      refine .inl ⟨?_, rfl⟩
      simp [Eff.apply, Slot.empty, hu]
    | fork hp =>
      cases ht
      have hu := P.fork i j (by rw [(P.top_pc hp fun hh => hh).1]; rfl)
      refine .inr ⟨he, ?_⟩
      simp only [Eff.apply, modify_slot_self, hu]
      exact .fork
    | wake _ _ hs _ =>
      cases ht
      refine .inr ⟨he, ?_⟩
      simp only [Eff.apply, modify_slot_self, hs]
      exact .wake
    | kill _ _ =>
      cases ht
      by_cases hs : (s.slot j).state = .sleeping
      · refine .inr ⟨he, ?_⟩
        simp only [Eff.apply, modify_slot_self, hs, if_true]
        exact .wake
      · refine .inl ⟨?_, rfl⟩
        simp [Eff.apply, hs]
    | free _ hz =>
      cases ht
      refine .inr ⟨he, ?_⟩
      simp only [Eff.apply, modify_slot_self, hz]
      exact .free
    | exit _ | sleep _ | yield _ => exact absurd (Option.some.inj ht).symm hj
  · exact .inl ⟨by rw [apply_slot_of_ne ht], apply_thread_of_ne ht⟩

theorem Placed.self [DecidableEq H] (P : Placed s) (hc : s.ctl h = .thread i)
    (hm : Change s i (s.thread i).top m) (he : m.op.enabled h s) :
    ((m.eff.apply s).slot i).state = m.pc.state ∧ (m.eff.apply s).thread i = s.thread i := by
  have hon := P.on h i hc
  by_cases ht : m.eff.target = some i
  · cases hm with
    | quiet hq hs _ => exact ⟨by rw [hq.state, hon, hs], by rw [hq.thread]⟩
    | alloc _ hu | allocFail _ hu =>
      cases ht
      exact absurd (hon.symm.trans hu) Pc.state_ne.2
    | fork hp =>
      cases ht
      have hu := P.fork i i (by rw [(P.top_pc hp fun hh => hh).1]; rfl)
      exact absurd (hon.symm.trans hu) Pc.state_ne.1
    | wake _ hne _ _ => exact absurd (Option.some.inj ht) hne
    | kill hp _ =>
      cases ht
      have hr : (s.slot i).state = .running := by rw [hon, hp]; rfl
      exact ⟨by simp [Eff.apply, hr, Pc.state], rfl⟩
    | free hp hz =>
      cases ht
      rw [hon, hp] at hz
      cases hz
    | exit _ | sleep _ | yield _ => exact ⟨by simp [Eff.apply, Pc.state], rfl⟩
  · refine ⟨?_, apply_thread_of_ne ht⟩
    rw [apply_slot_of_ne ht, hon]
    cases hm with
    | quiet _ hs _ => exact hs.symm
    | exit _ | sleep _ | yield _ => exact absurd rfl ht
    | alloc hp _ | allocFail hp _ | fork hp | wake hp _ _ _ | kill hp _ | free hp _ =>
      rw [hp]
      rfl

theorem Placed.not_outside (P : Placed s) {g : H} {j : Fin n} {t' : Thread n M}
    (hg : s.ctl g = .thread j) (hl : s.lock (.proc j) = none) :
    ¬ Outside (s.slot j).state (s.thread j) st' t' := by
  have hheld : s.held g = (s.thread j).top.held (some j) := by unfold Sys.held; rw [hg]
  have hrun : (s.slot j).state = .running := by
    by_contra hne
    rw [P.on g j hg] at hne
    exact P.locks.not_held hl g (hheld ▸ Pc.own_of_state hne)
  intro ho
  rw [hrun] at ho
  cases ho

theorem Placed.used_stays [DecidableEq H] (P : Placed s) (hc : s.ctl h = .thread i)
    (hm : Change s i (s.thread i).top m) {np : Fin n} (hu : (s.slot np).state = .used) :
    ((m.eff.apply s).slot np).state = .used ∨ ∃ pid, (s.thread i).top = .forkRun np pid := by
  by_cases ht : m.eff.target = some np
  · cases hm with
    | quiet hq _ _ => exact .inl ((hq.state np).trans hu)
    | alloc _ hu' => cases ht; rw [hu] at hu'; cases hu'
    | allocFail _ hu' => cases ht; rw [hu] at hu'; cases hu'
    | fork hp => cases ht; exact .inr ⟨_, hp⟩
    | wake _ _ hs _ => cases ht; rw [hu] at hs; cases hs
    | kill _ _ => cases ht; exact .inl (by simp [Eff.apply, hu])
    | free _ hz => cases ht; rw [hu] at hz; cases hz
    | exit _ | sleep _ | yield _ =>
      cases ht
      exact absurd ((P.on h i hc).symm.trans hu) Pc.state_ne.1
  · exact .inl (by rw [apply_slot_of_ne ht, hu])

theorem Placed.op [DecidableEq H] (P : Placed s) {op : Op n M} (he : op.enabled h s)
    (hl : s'.lock = (op.after h s).lock) (hn : s'.noff = (op.after h s).noff)
    (h1 : s'.held h = op.onHeld (s.held h)) (h2 : ∀ g, g ≠ h → s'.held g = s.held g) :
    Agree s'.lock s'.noff s'.held := by
  rw [hl, hn]
  cases op with
  | tau =>
    refine P.locks.congr fun g => ?_
    by_cases hg : g = h
    · rw [hg, h1]
      rfl
    · exact h2 g hg
  | acquire l => exact P.locks.acquire he h1 h2
  | release l => exact P.locks.release he h1 h2

/-- A step of the hart that executes process `i`: what is left to show is about the process itself. -/
theorem Placed.onHart [DecidableEq H] (P : Placed s) (op : Op n M) (he : op.enabled h s)
    (hc : s.ctl h = .thread i)
    (hothers : ∀ j, j ≠ i → (s'.slot j).state = (s.slot j).state ∧ s'.thread j = s.thread j ∨
      s.lock (.proc j) = none ∧
        Outside (s.slot j).state (s.thread j) (s'.slot j).state (s'.thread j))
    (hcg : ∀ g, g ≠ h → s'.ctl g = s.ctl g)
    (hch : s'.ctl h = .thread i ∧ (s'.slot i).state = (s'.thread i).top.state ∨
      s'.ctl h = .back i ∧ Off (s'.slot i).state (s'.thread i))
    (hheld : s'.held h = op.onHeld (s.held h)) (hlock : s'.lock = (op.after h s).lock)
    (hnoff : s'.noff = (op.after h s).noff)
    (hbase : ∀ q, (s'.thread i).intr = some q → q.Handler ∧ (s'.thread i).pc.held (some i) = [])
    (hfork : ∀ j np, (s'.thread j).pc.child = some np → (s'.slot np).state = .used)
    (hforker : ∀ j k np, (s'.thread j).pc.child = some np → (s'.thread k).pc.child = some np → j = k) :
    Placed s' := by
  have hne (g : H) (j : Fin n) (hg : s.ctl g = .thread j) (hgh : g ≠ h) : j ≠ i := by
    rintro rfl
    exact hgh (P.one g h j hg hc)
  -- nothing happens to a process on another hart
  have hstay (g : H) (j : Fin n) (hg : s.ctl g = .thread j) (hj : j ≠ i) :=
    (hothers j hj).resolve_right fun ho => P.not_outside hg ho.1 ho.2
  have hth (g : H) (j : Fin n) (hg : s'.ctl g = .thread j) : s.ctl g = .thread j := by
    by_cases hgh : g = h
    · rw [hgh] at hg ⊢
      rcases hch with ⟨h', -⟩ | ⟨h', -⟩ <;> rw [h'] at hg <;> cases hg
      exact hc
    · rwa [← hcg g hgh]
  refine ⟨P.op he hlock hnoff hheld fun g hg => ?_, fun g g' j hg hg' => ?_, fun g j hg => ?_,
    fun j hj => ?_, fun j q hq => ?_, hfork, hforker⟩
  · unfold Sys.held
    rw [hcg g hg]
    cases hcg' : s.ctl g with
    | thread j => simp only [(hstay g j hcg' (hne g j hcg' hg)).2]
    | _ => rfl
  · exact P.one g g' j (hth g j hg) (hth g' j hg')
  · by_cases hj : j = i
    · obtain rfl : g = h := P.one g h j (hth g j hg) (hj ▸ hc)
      rw [hj]
      rcases hch with ⟨-, hon⟩ | ⟨h', -⟩
      · exact hon
      · rw [h'] at hg
        cases hg
    · obtain ⟨h1, h2⟩ := hstay g j (hth g j hg) hj
      rw [h1, h2, P.on g j (hth g j hg)]
  · by_cases hji : j = i
    · subst hji
      rcases hch with ⟨h', -⟩ | ⟨-, hoff⟩
      · exact absurd h' (hj h)
      · exact hoff
    · have hoff := P.off j fun g hg => by
        by_cases hgh : g = h
        · rw [hgh, hc] at hg
          cases hg
          exact hji rfl
        · exact hj g ((hcg g hgh).trans hg)
      rcases hothers j hji with ⟨h1, h2⟩ | ⟨-, ho⟩
      · rw [h1, h2]
        exact hoff
      · exact hoff.outside ho
  · by_cases hj : j = i
    · subst hj
      exact hbase q hq
    · rcases hothers j hj with ⟨-, h2⟩ | ⟨-, ho⟩
      · rw [h2] at hq ⊢
        exact P.base j q hq
      · rcases ho.thread with h2 | h2 <;> rw [h2] at hq ⊢
        · exact P.base j q hq
        · cases hq

theorem Placed.move [DecidableEq H] (P : Placed s) (hc : s.ctl h = .thread i)
    (hm : code s i inp (s.thread i).top = .next m) (he : m.op.enabled h s)
    (hslot : s'.slot = (m.eff.apply s).slot)
    (hthread : s'.thread = update (m.eff.apply s).thread i ((s.thread i).goto m.pc))
    (hctl : s'.ctl = s.ctl) (hlock : s'.lock = (m.op.after h s).lock)
    (hnoff : s'.noff = (m.op.after h s).noff) : Placed s' := by
  have hch := code_change hm
  have hself := P.self hc hch he
  have hti : s'.thread i = (s.thread i).goto m.pc := by rw [hthread, update_self]
  have hb : ∀ q, (s.thread i).intr = some q → (s.thread i).pc.held (some i) = [] :=
    fun q hq => (P.base i q hq).2
  have hothers (j : Fin n) (hj : j ≠ i) := P.others hch he hj
  have htj (j : Fin n) (hj : j ≠ i) : (m.eff.apply s).thread j = s'.thread j := by
    rw [hthread, update_of_ne hj]
  -- who makes a child now made it before, and is not through with it, or has just begun
  have hchild : ∀ j np, (s'.thread j).pc.child = some np →
      ((s.thread j).pc.child = some np ∧ ∀ pid, (s.thread i).top ≠ .forkRun np pid) ∨
      (j = i ∧ (s.slot np).state = .unused ∧ ((m.eff.apply s).slot np).state = .used) := by
    intro j np hnp
    by_cases hj : j = i
    · subst hj
      rw [hti] at hnp
      rcases P.top j with ⟨htop, hn⟩ | ⟨hn, hh⟩
      · rw [goto_pc_of_none hn] at hnp
        have hnot : ∀ pid, (s.thread j).top ≠ .forkRun np pid := by
          intro pid hp
          rw [hp] at hm
          cases hm
          cases hnp
        cases hch with
        | quiet _ _ hq =>
          rcases hq with hq | hq <;> rw [hnp] at hq
          · exact .inl ⟨htop ▸ hq.symm, hnot⟩
          · cases hq
        | alloc _ hu =>
          cases hnp
          exact .inr ⟨rfl, hu, by simp [Eff.apply]⟩
        | _ => cases hnp
      · rw [goto_of_some hn] at hnp
        refine .inl ⟨hnp, fun pid hp => ?_⟩
        rw [hp] at hh
        exact hh
    · have hkeep := (hothers j hj).elim (fun ho => .inl ho.2) fun ho => ho.2.thread
      rw [htj j hj] at hkeep
      rcases hkeep with h0 | h0 <;> rw [h0] at hnp
      · refine .inl ⟨hnp, fun pid hp => hj ?_⟩
        exact P.forker j i np hnp (by rw [(P.top_pc hp fun hh => hh).1]; rfl)
      · cases hnp
  refine P.onHart m.op he hc (fun j hj => ?_) (fun g _ => by rw [hctl]) (.inl ⟨by rw [hctl, hc], ?_⟩) ?_ hlock
    hnoff (fun q hq => ?_) (fun j np hnp => ?_) fun j k np hj hk => ?_
  · rw [hslot, ← htj j hj]
    exact hothers j hj
  · rw [hti, hslot, goto_state hb, hself.1]
  · unfold Sys.held
    rw [hctl, hc]
    simp only
    rw [hti, goto_held hb, code_held hm]
  · rw [hti] at hq ⊢
    rcases P.top i with ⟨-, hn⟩ | ⟨hn, hh⟩
    · rw [goto_pc_of_none hn] at hq
      cases hq
    · rw [goto_of_some hn] at hq ⊢
      refine ⟨?_, hb _ hn⟩
      rcases code_handler hh hm with hh' | ⟨r, hr⟩
      · cases hpc : m.pc <;> rw [hpc] at hq hh' <;> first | exact hh'.elim | (cases hq; exact hh')
      · rw [hr] at hq
        cases hq
  · rw [hslot]
    rcases hchild j np hnp with ⟨hold, hfork⟩ | ⟨-, -, hnew⟩
    · exact (P.used_stays hc hch (P.fork j np hold)).resolve_right fun ⟨pid, hp⟩ => hfork pid hp
    · exact hnew
  · rcases hchild j np hj with ⟨hj, -⟩ | ⟨hj, hu, -⟩ <;>
      rcases hchild k np hk with ⟨hk, -⟩ | ⟨hk, hu', -⟩
    · exact P.forker j k np hj hk
    · rw [P.fork j np hj] at hu'
      cases hu'
    · rw [P.fork k np hk] at hu
      cases hu
    · exact hj.trans hk.symm

theorem Placed.scheduler [DecidableEq H] (P : Placed s) (op : Op n M) {c : Ctl n M}
    (he : op.enabled h s) (hthread : s'.thread = s.thread)
    (hslot : ∀ j, (s'.slot j).state = (s.slot j).state ∨ s.lock (.proc j) = none ∧
      (s.slot j).state = .sleeping ∧ (s'.slot j).state = .runnable)
    (hctl : s'.ctl = update s.ctl h c) (hold : (s.ctl h).runs = none)
    (hnew : c.runs = none) (hheld : s'.held h = op.onHeld (s.held h))
    (hlock : s'.lock = (op.after h s).lock) (hnoff : s'.noff = (op.after h s).noff) :
    Placed s' := by
  have hcg : ∀ g, g ≠ h → s'.ctl g = s.ctl g := fun g hg => by rw [hctl, update_of_ne hg]
  have hth : ∀ g i, s'.ctl g = .thread i ↔ s.ctl g = .thread i := by
    intro g i
    by_cases hg : g = h
    · rw [hg, hctl, update_self]
      constructor <;> intro hc
      · rw [hc] at hnew
        cases hnew
      · rw [hc] at hold
        cases hold
    · rw [hcg g hg]
  have hstate : ∀ j, (s'.slot j).state = (s.slot j).state ∨ s.lock (.proc j) = none ∧
      Outside (s.slot j).state (s.thread j) (s'.slot j).state (s.thread j) := by
    intro j
    rcases hslot j with h1 | ⟨h1, h2, h3⟩
    · exact .inl h1
    · rw [h2, h3]
      exact .inr ⟨h1, .wake⟩
  refine ⟨P.op he hlock hnoff hheld fun g hg => ?_, fun g g' i hg hg' => ?_, fun g i hg => ?_,
    fun i hi => ?_, ?_, fun i np hnp => ?_, ?_⟩
  · unfold Sys.held
    rw [hcg g hg, hthread]
  · exact P.one g g' i ((hth g i).mp hg) ((hth g' i).mp hg')
  · rw [hth] at hg
    rw [hthread, ← P.on g i hg]
    exact (hstate i).resolve_right fun ho => P.not_outside hg ho.1 ho.2
  · have hoff := P.off i fun g hg => hi g ((hth g i).mpr hg)
    rw [hthread]
    rcases hstate i with h1 | ⟨-, ho⟩
    · rw [h1]
      exact hoff
    · exact hoff.outside ho
  · rw [hthread]
    exact P.base
  · rw [hthread] at hnp
    have hu := P.fork i np hnp
    rcases hslot np with h1 | ⟨-, h2, -⟩
    · rw [h1, hu]
    · rw [hu] at h2
      cases h2
  · rw [hthread]
    exact P.forker

theorem Placed.pick [DecidableEq H] (P : Placed s) {k : Fin n} (hc : s.ctl h = .scan k)
    (hl : s.lock (.proc k) = none) (hr : (s.slot k).state = .runnable)
    (hslot : s'.slot = update s.slot k { s.slot k with state := .running })
    (hthread : s'.thread = s.thread) (hctl : s'.ctl = update s.ctl h (.thread k))
    (hlock : s'.lock = ((Op.acquire (.proc k)).after h s).lock)
    (hnoff : s'.noff = ((Op.acquire (.proc k)).after h s).noff) : Placed s' := by
  have hoff : ∀ g, s.ctl g ≠ .thread k := by
    intro g hg
    have hown : Lock.proc k ∈ s.held g := by
      unfold Sys.held
      rw [hg]
      exact Pc.own_of_state (by rw [← P.on g k hg, hr]; exact nofun)
    exact P.locks.not_held hl g hown
  have hres : (s.thread k).top.Resumes := by
    have := P.off k hoff
    rw [hr] at this
    exact this
  have hch : s'.ctl h = .thread k := by rw [hctl, update_self]
  have hcg : ∀ g, g ≠ h → s'.ctl g = s.ctl g := fun g hg => by rw [hctl, update_of_ne hg]
  have hsj : ∀ j, j ≠ k → s'.slot j = s.slot j := fun j hj => by rw [hslot, update_of_ne hj]
  have hsk : (s'.slot k).state = .running := by rw [hslot, update_self]
  have hth : ∀ g i, s'.ctl g = .thread i → g = h ∧ i = k ∨ g ≠ h ∧ i ≠ k ∧ s.ctl g = .thread i := by
    intro g i hg
    by_cases hgh : g = h
    · rw [hgh, hch] at hg
      cases hg
      exact .inl ⟨hgh, rfl⟩
    · rw [hcg g hgh] at hg
      refine .inr ⟨hgh, ?_, hg⟩
      rintro rfl
      exact hoff g hg
  refine ⟨@Placed.op _ _ _ _ _ _ _ P (.acquire (.proc k)) hl hlock hnoff ?_ fun g hg => ?_, fun g g' i hg hg' => ?_,
    fun g i hg => ?_, fun i hi => ?_, ?_, fun i np hnp => ?_, ?_⟩
  · unfold Sys.held
    rw [hch, hc]
    simp only [hthread, hres.held]
    rfl
  · unfold Sys.held
    rw [hcg g hg, hthread]
  · rcases hth g i hg with ⟨h1, h2⟩ | ⟨h1, h2, h3⟩ <;>
      rcases hth g' i hg' with ⟨h1', h2'⟩ | ⟨h1', h2', h3'⟩
    · exact h1.trans h1'.symm
    · exact absurd h2 h2'
    · exact absurd h2' h2
    · exact P.one g g' i h3 h3'
  · rw [hthread]
    rcases hth g i hg with ⟨-, rfl⟩ | ⟨-, h2, h3⟩
    · rw [hsk, hres.state]
    · rw [hsj i h2, P.on g i h3]
  · have hik : i ≠ k := by
      rintro rfl
      exact hi h hch
    rw [hthread, hsj i hik]
    refine P.off i fun g hg => ?_
    by_cases hgh : g = h
    · rw [hgh, hc] at hg
      cases hg
    · exact hi g ((hcg g hgh).trans hg)
  · rw [hthread]
    exact P.base
  · rw [hthread] at hnp
    have hu := P.fork i np hnp
    rw [hsj np, hu]
    rintro rfl
    rw [hr] at hu
    cases hu
  · rw [hthread]
    exact P.forker

theorem Placed.trap [DecidableEq H] (P : Placed s) (hc : s.ctl h = .thread i)
    (h0 : s.noff h = 0) (hi : (s.thread i).intr = none) (hp : p = .yield ∨ ∃ l x, p = .enter l x)
    (hslot : s'.slot = s.slot) (hthread : s'.thread = update s.thread i ⟨(s.thread i).pc, some p⟩)
    (hctl : s'.ctl = s.ctl) (hlock : s'.lock = s.lock) (hnoff : s'.noff = s.noff) : Placed s' := by
  have htop : (s.thread i).top = (s.thread i).pc := by rw [Thread.top, hi]; rfl
  have hh : s.held h = (s.thread i).pc.held (some i) := by unfold Sys.held; rw [hc, ← htop]
  have hheld : (s.thread i).pc.held (some i) = [] :=
    List.length_eq_zero_iff.mp (hh ▸ (P.locks.count h).symm.trans h0)
  have hp' : p.Handler ∧ p.held (some i) = [] ∧ p.state = .running := by
    rcases hp with rfl | ⟨l, x, rfl⟩ <;> exact ⟨trivial, rfl, rfl⟩
  have hti : s'.thread i = ⟨(s.thread i).pc, some p⟩ := by rw [hthread, update_self]
  have htj : ∀ j, j ≠ i → s'.thread j = s.thread j := fun j hj => by
    rw [hthread, update_of_ne hj]
  have hpc : ∀ j, (s'.thread j).pc = (s.thread j).pc := by
    intro j
    by_cases hj : j = i
    · rw [hj, hti]
    · rw [htj j hj]
  refine P.onHart .tau trivial hc (fun j hj => .inl ⟨by rw [hslot], htj j hj⟩) (fun g _ => by rw [hctl])
    (.inl ⟨by rw [hctl, hc], ?_⟩) ?_ hlock hnoff (fun q hq => ?_) (fun j np hnp => ?_) fun j k np hj hk => ?_
  · rw [hti, hslot, P.on h i hc, htop, Pc.state_of_held hheld]
    exact hp'.2.2.symm
  · rw [hh, hheld]
    unfold Sys.held
    rw [hctl, hc]
    simp only [hti]
    exact hp'.2.1
  · rw [hti] at hq ⊢
    cases hq
    exact ⟨hp'.1, hheld⟩
  · rw [hpc] at hnp
    rw [hslot]
    exact P.fork j np hnp
  · rw [hpc] at hj hk
    exact P.forker j k np hj hk

theorem Placed.sched (P : Placed s) [DecidableEq H] {q : Pc n M} (hc : s.ctl h = .thread i)
    (hq : (s.thread i).top.sched = some q) (hl : s.lock (.proc i) = some h) (h1 : s.noff h = 1)
    (hslot : s'.slot = s.slot) (hthread : s'.thread = update s.thread i ((s.thread i).goto q))
    (hctl : s'.ctl = update s.ctl h (.back i)) (hlock : s'.lock = s.lock)
    (hnoff : s'.noff = s.noff) : Placed s' := by
  have hheld : s.held h = [.proc i] := by
    obtain ⟨l, hl'⟩ := List.length_eq_one_iff.mp ((P.locks.count h).symm.trans h1)
    have := (P.locks.lock _ _).mp hl
    rw [hl'] at this ⊢
    rw [List.mem_singleton.mp this]
  have hti : s'.thread i = (s.thread i).goto q := by rw [hthread, update_self]
  have htj : ∀ j, j ≠ i → s'.thread j = s.thread j := fun j hj => by
    rw [hthread, update_of_ne hj]
  have hback : s'.ctl h = .back i := by rw [hctl, update_self]
  -- a thread in `fork` is in front of no `swtch`, unless in a handler
  have hchild : ∀ j np, (s'.thread j).pc.child = some np → (s.thread j).pc.child = some np := by
    intro j np hnp
    by_cases hj : j = i
    · subst hj
      rw [hti] at hnp
      rcases P.top j with ⟨-, hn⟩ | ⟨hn, -⟩
      · rw [goto_pc_of_none hn] at hnp
        rcases sched_state hq with ⟨rfl, -⟩ | ⟨-, rfl⟩ | ⟨w, -, rfl⟩ <;> cases hnp
      · rw [goto_of_some hn] at hnp
        exact hnp
    · rw [htj j hj] at hnp
      exact hnp
  refine P.onHart .tau trivial hc (fun j hj => .inl ⟨by rw [hslot], htj j hj⟩)
    (fun g hg => by rw [hctl, update_of_ne hg]) (.inr ⟨hback, ?_⟩) ?_ hlock hnoff (fun p hp => ?_)
    (fun j np hnp => ?_) fun j k np hj hk => P.forker j k np (hchild j np hj) (hchild k np hk)
  · rw [hti, hslot, P.on h i hc]
    rcases sched_state hq with ⟨rfl, hp⟩ | ⟨hr, rfl⟩ | ⟨w, hp, rfl⟩
    · rw [goto_pc_of_none (P.top_pc hp fun hh => hh).2, hp]
      rfl
    · rw [hr]
      show Pc.Resumes _
      rcases goto_cases (s.thread i) .yieldDone with ht | ⟨⟨r, hr⟩, -⟩
      · rw [ht]
        trivial
      · cases hr
    · rw [hp]
      refine ⟨w, (goto_cases (s.thread i) (.sleepAwake w)).resolve_right ?_⟩
      rintro ⟨⟨r, hr⟩, -⟩
      cases hr
  · unfold Sys.held at hheld ⊢
    rw [hback, hheld]
    rfl
  · rw [hti] at hp ⊢
    rcases P.top i with ⟨-, hn⟩ | ⟨hn, hh⟩
    · rw [goto_pc_of_none hn] at hp
      cases hp
    · rw [goto_of_some hn] at hp ⊢
      refine ⟨?_, (P.base i _ hn).2⟩
      rcases sched_state hq with ⟨-, htop⟩ | ⟨-, rfl⟩ | ⟨w, htop, rfl⟩
      · rw [htop] at hh
        exact hh.elim
      · cases hp
        trivial
      · cases hp
        rw [htop] at hh
        cases w
        · exact hh.elim
        · trivial
  · rw [hslot]
    exact P.fork j np (hchild j np hnp)

/-- **A step keeps everybody in place.** -/
theorem Placed.step [DecidableEq H] (P : Placed s) (hs : Step s h inp s') : Placed s' := by
  cases hs with
  | wrap hc _ | irq hc _ =>
    exact P.scheduler .tau trivial rfl (fun _ => .inl rfl) rfl (by rw [hc]; rfl) rfl
      (by simp [Sys.held, hc, Op.onHeld, Pc.held]) rfl rfl
  | @skip k hc hl hr =>
    exact P.scheduler (.acquire (.proc k)) hl rfl (fun _ => .inl rfl) rfl (by rw [hc]; rfl) rfl
      (by simp [Sys.held, hc, Op.onHeld]) rfl rfl
  | pick hc hl hr => exact P.pick hc hl hr rfl rfl rfl rfl rfl
  | @next k hc hl | @back k hc hl =>
    exact P.scheduler (.release (.proc k)) hl rfl (fun _ => .inl rfl) rfl (by rw [hc]; rfl) rfl
      (by simp [Sys.held, hc, Op.onHeld]) rfl rfl
  | @job k p m hc hj he =>
    refine P.scheduler m.op he (after_thread.trans (job_thread hj)) (fun j => ?_) rfl (by rw [hc]; rfl) ?_ ?_
      after_apply_lock after_apply_noff
    · simp only [after_slot]
      rcases job_change hj with h0 | ⟨l, x, d, -, h0⟩ | ⟨c, j', w, -, hs, -, rfl⟩
      · exact .inl (by rw [h0]; rfl)
      · exact .inl (by rw [h0]; rfl)
      · by_cases hjj : j = j'
        · subst hjj
          exact .inr ⟨he, hs, by simp [Eff.apply]⟩
        · have ht : (Eff.ready j' : Eff n M).target ≠ some j := fun ht => hjj (Option.some.inj ht).symm
          exact .inl (by rw [apply_slot_of_ne ht])
    · cases m.pc <;> rfl
    · have hheld := job_held hj
      unfold Sys.held
      simp only [update_self, hc]
      rw [← hheld]
      cases m.pc <;> rfl
  | trap hc h0 hi hp =>
    exact P.trap hc h0 hi (hp.imp_right (.imp fun _ => .imp fun _ => And.left)) rfl rfl rfl rfl rfl
  | sched hc hq hl h1 _ => exact P.sched hc hq hl h1 rfl rfl rfl rfl rfl
  | move hc _ hm he =>
    exact P.move hc hm he after_slot rfl (after_ctl.trans apply_ctl) after_apply_lock
      after_apply_noff

theorem Boot.thread_of {T : Thread n M → Prop} (hb : Boot s) (h1 : T ⟨.forkret, none⟩)
    (h2 : T ⟨.dead, none⟩) (i : Fin n) : T (s.thread i) := by
  by_cases hi : i = s.initproc
  · rw [hi, hb.thread]
    exact h1
  · rw [hb.threads i hi]
    exact h2

theorem Boot.live {j : Fin n} (hb : Boot s) (hl : (s.slot j).state ≠ .unused) : j = s.initproc := by
  by_contra hj
  rw [hb.slot j hj] at hl
  exact hl rfl

theorem Placed.of_boot (hb : Boot s) : Placed s := by
  have hheld : ∀ h, s.held h = [] := fun h => by unfold Sys.held; rw [hb.ctl]
  have hchild := hb.thread_of (T := fun t => t.pc.child = none) rfl rfl
  refine ⟨⟨fun l h => ?_, fun h => ?_, fun h => ?_⟩, fun h h' i hi _ => ?_, fun h i hi => ?_,
    fun i _ => ?_, fun i p hp => ?_, fun i np hnp => ?_, fun i j np hnp _ => ?_⟩
  · simp [hb.lock, hheld]
  · rw [hb.noff, hheld]
    rfl
  · rw [hheld]
    exact List.nodup_nil
  · rw [hb.ctl] at hi
    cases hi
  · rw [hb.ctl] at hi
    cases hi
  · by_cases hi : i = s.initproc
    · rw [hi, hb.init, hb.thread]
      trivial
    · rw [hb.slot i hi, hb.threads i hi]
      rfl
  · have hintr := hb.thread_of (T := fun t => t.intr = none) rfl rfl i
    rw [hintr] at hp
    cases hp
  · rw [hchild] at hnp
    cases hnp
  · rw [hchild] at hnp
    cases hnp

/-- **In every run everybody is in place.** -/
theorem Placed.of_reach [DecidableEq H] {ok : Sys n H M → H × Input M → Prop}
    (hr : Reach Boot Sched.step ok s) : Placed s :=
  hr.invariant (fun _ => .of_boot) fun _ _ _ P _ hs => P.step (.of_step hs)

/-! ## Threads along a step -/

/-- What becomes of the thread of process `j` in a step of hart `h` from `s` to `s'`. -/
inductive Runs (s : Sys n H M) (h : H) (inp : Input M) (s' : Sys n H M) (j : Fin n) : Prop
  | stays (hc : s.ctl h ≠ .thread j) (e : s'.thread j = s.thread j)
  | born (hu : (s.slot j).state = .unused) (e : s'.thread j = ⟨.forkret, none⟩)
  | trap {p : Pc n M} (hc : s.ctl h = .thread j) (hi : (s.thread j).intr = none)
      (hp : p = .yield ∨ ∃ l x, p = .enter l x ∧ M.handler l x = true)
      (ht : SameTables s' s) (e : s'.thread j = ⟨(s.thread j).pc, some p⟩)
  | swtch {q : Pc n M} (hc : s.ctl h = .thread j) (hq : (s.thread j).top.sched = some q)
      (ht : SameTables s' s) (e : s'.thread j = (s.thread j).goto q)
  | moves {m : Move n M} (hc : s.ctl h = .thread j)
      (hm : code s j inp (s.thread j).top = .next m) (he : m.op.enabled h s)
      (ht : SameTables s' (m.eff.apply s)) (e : s'.thread j = (s.thread j).goto m.pc)

theorem Step.runs [DecidableEq H] (hs : Step s h inp s') (j : Fin n) : Runs s h inp s' j := by
  have hother : ∀ {i}, s.ctl h = .thread i → j ≠ i → s.ctl h ≠ .thread j := by
    intro i hc hj hc'
    rw [hc] at hc'
    cases hc'
    exact hj rfl
  cases hs with
  | wrap hc _ | skip hc _ _ | pick hc _ _ | next hc _ | back hc _ | irq hc _ =>
    exact .stays (by rw [hc]; exact nofun) rfl
  | job hc hj _ =>
    exact .stays (by rw [hc]; exact nofun) (by rw [after_thread, job_thread hj])
  | @trap i p hc _ hi hp =>
    by_cases hj : j = i
    · subst hj
      exact .trap hc hi hp ⟨rfl, rfl, rfl, rfl, rfl, rfl, rfl⟩ (update_self ..)
    · exact .stays (hother hc hj) (update_of_ne hj _ _)
  | @sched i q hc hq _ _ _ =>
    by_cases hj : j = i
    · subst hj
      exact .swtch hc hq ⟨rfl, rfl, rfl, rfl, rfl, rfl, rfl⟩ (update_self ..)
    · exact .stays (hother hc hj) (update_of_ne hj _ _)
  | @move i m hc _ hm he =>
    by_cases hj : j = i
    · subst hj
      exact .moves hc hm he ⟨after_slot, after_data, after_nextpid, after_births, after_birth,
        after_exits, after_waits⟩ (update_self ..)
    · by_cases ht : m.eff = .alloc j
      · have hch := code_change hm
        cases hch with
        | alloc _ hu =>
          cases ht
          exact .born hu (by simp [Eff.apply, update_of_ne hj])
        | quiet hq _ _ =>
          rw [ht] at hq
          exact hq.elim
        | _ => cases ht
      · exact .stays (hother hc hj)
          (by simp only [update_of_ne hj, apply_thread_of_not_alloc ht])

/-- How the program counter of a thread, below its handlers, changes. -/
inductive Goes (s : Sys n H M) (h : H) (inp : Input M) (s' : Sys n H M) (j : Fin n) : Prop
  | stays (e : (s'.thread j).pc = (s.thread j).pc)
  | born (hu : (s.slot j).state = .unused) (e : (s'.thread j).pc = .forkret)
  | swtch {q : Pc n M} (hc : s.ctl h = .thread j) (hq : (s.thread j).pc.sched = some q)
      (e : (s'.thread j).pc = q)
  | moves {m : Move n M} (hc : s.ctl h = .thread j) (hi : (s.thread j).intr = none)
      (hm : code s j inp (s.thread j).pc = .next m) (he : m.op.enabled h s)
      (ht : SameTables s' (m.eff.apply s)) (e : (s'.thread j).pc = m.pc)

theorem Placed.goes [DecidableEq H] (P : Placed s) (hs : Step s h inp s') (j : Fin n) :
    Goes s h inp s' j := by
  cases hs.runs j with
  | stays _ e => exact .stays (by rw [e])
  | born hu e => exact .born hu (by rw [e])
  | trap _ _ _ _ e => exact .stays (by rw [e])
  | swtch hc hq _ e =>
    rcases P.top j with ⟨htop, hn⟩ | ⟨hn, -⟩
    · exact .swtch hc (htop ▸ hq) (by rw [e, goto_pc_of_none hn])
    · exact .stays (by rw [e, goto_of_some hn])
  | moves hc hm he ht e =>
    rcases P.top j with ⟨htop, hn⟩ | ⟨hn, -⟩
    · exact .moves hc hn (htop ▸ hm) he ht (by rw [e, goto_pc_of_none hn])
    · exact .stays (by rw [e, goto_of_some hn])

/-- What a program counter says that is not said at the places a thread is switched to: it has
    said it before, or a move of the thread has come to say it. -/
theorem Placed.goes_some [DecidableEq H] {α : Type} {f : Pc n M → Option α}
    (hf : f .forkret = none ∧ f .dead = none ∧ f .yieldDone = none ∧ ∀ w, f (.sleepAwake w) = none)
    (P : Placed s) (hs : Step s h inp s') {j : Fin n} {a : α} (ha : f (s'.thread j).pc = some a) :
    (s'.thread j).pc = (s.thread j).pc ∨ ∃ m, s.ctl h = .thread j ∧ (s.thread j).intr = none ∧
      code s j inp (s.thread j).pc = .next m ∧ SameTables s' (m.eff.apply s) ∧
      (s'.thread j).pc = m.pc := by
  obtain ⟨h1, h2, h3, h4⟩ := hf
  cases P.goes hs j with
  | stays e => exact .inl e
  | born _ e =>
    rw [e, h1] at ha
    cases ha
  | swtch _ hq e =>
    rw [e] at ha
    rcases sched_state hq with ⟨rfl, -⟩ | ⟨-, rfl⟩ | ⟨w, -, rfl⟩
    · rw [h2] at ha
      cases ha
    · rw [h3] at ha
      cases ha
    · rw [h4] at ha
      cases ha
  | moves hc hi hm _ ht e => exact .inr ⟨_, hc, hi, hm, ht, e⟩

end ZeptOS.Sched
