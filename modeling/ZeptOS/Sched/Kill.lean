import ZeptOS.Sched.Acts
import ZeptOS.Sched.Loops
import ZeptOS.Sched.Reaps

/-!
# Killing a process that goes to sleep

`kill` marks a process and, if it is asleep, wakes it. A loop that sleeps asks `killed` first;
but `killed` takes `p->lock` and gives it back before `sleep` takes it again. A `kill` that
comes in between finds the process awake, and the process goes to sleep with the mark.

If no `kill` comes there, the mark and the loops agree: whoever has asked and goes on to sleep
is unmarked, until it has `p->lock`, and from then on `kill` has to wait.
-/

namespace ZeptOS.Sched

open Lib
open Mem (ProcState)

variable {n : Nat} {H : Type} {M : Monitor} {s s' : Sys n H M} {h : H} {inp : Input M}
variable {id : Nat} {b : Bool} {pi : Pipe}

/-! ## Where a process has asked -/

variable {i : Fin n}

section Ask

variable (A : Asks M)

def Why.tests : Why M → Bool
  | .wait _ => true
  | .obj _ k _ => A.tests k

/-- The process has been told it is not killed, and may go to sleep without asking again. -/
def Pc.window : Pc n M → Bool
  | .inside l x => A.asked l x
  | .wakeup _ _ (.obj l x) | .wakeupNext _ _ (.obj l x) => A.asked l x
  | .sleep w => w.tests A
  | _ => false

/-- It has taken `p->lock` to go to sleep. -/
def Pc.dozes : Pc n M → Bool
  | .sleepRelease w | .sleepMark w | .sleepSched w => w.tests A
  | _ => false

/-- Where the code goes on after it has slept, or if it has been killed, it has not asked. -/
def Pc.Fresh : Pc n M → Prop
  | .enter l x => A.asked l x = false
  | .killed (.obj l yes _) | .killedDone (.obj l yes _) _ => A.asked l yes = false
  | .sleep (.obj l _ x) | .sleepRelease (.obj l _ x) | .sleepMark (.obj l _ x) => A.asked l x = false
  | .sleepSched (.obj l _ x) | .sleepAwake (.obj l _ x) | .sleepReacquire (.obj l _ x) =>
    A.asked l x = false
  | _ => True

def Pc.Heard (killed : Bool) (p : Pc n M) : Prop :=
  (∀ q k, p = .killedDone q k → k = killed) ∧
    (p.window A = true ∨ p.dozes A = true → killed = false)

variable {A} {p : Pc n M}

theorem Pc.heard_of_held (hp : p.held (some i) = []) : p.Heard A b := by
  refine ⟨?_, ?_⟩
  · rintro q k rfl
    cases hp
  · cases p <;> first | (cases hp; done) | simp [Pc.window, Pc.dozes]

theorem Pc.heard_of_own (hp : Lock.proc i ∉ p.held (some i))
    (hw : p.window A = false) : p.Heard A b := by
  refine ⟨?_, ?_⟩
  · rintro q k rfl
    simp [Pc.held, Pc.held.own] at hp
  · rintro (hx | hx)
    · rw [hw] at hx
      cases hx
    · cases p <;> first | cases hx | simp [Pc.held, Pc.held.own] at hp

theorem Pc.Resumes.heard (hp : p.Resumes) : p.Heard A b := by
  refine ⟨?_, ?_⟩
  · rintro q k rfl
    exact hp.elim
  · cases p <;> first | exact hp.elim | simp [Pc.window, Pc.dozes]

theorem Pc.heard_of_gone (hp : p = .dead ∨ p.state = .zombie) : p.Heard A b := by
  refine ⟨?_, ?_⟩
  · rintro q k rfl
    rcases hp with hp | hp <;> cases hp
  · cases p <;> first | (rcases hp with hp | hp <;> cases hp; done) | simp [Pc.window, Pc.dozes]

theorem Pc.fresh_of_away (hp : p.Away) : p.Fresh A := by
  cases p <;> first | exact hp.elim | trivial

theorem Pc.heard_of_away (hp : p.Away) : p.Heard A b := by
  cases p <;> first | exact hp.elim | exact ⟨nofun, by simp [Pc.window, Pc.dozes]⟩

theorem Pc.not_gone (hp : ¬ p.Away) :
    ¬ ((∃ pid j, p = .kill pid j) ∨ p = .dead ∨ p.state = .zombie) := by
  rintro (⟨pid, j, rfl⟩ | rfl | hz)
  · exact hp trivial
  · exact hp trivial
  · cases p <;> first | exact hp trivial | cases hz

theorem Pc.heard_wakeup {c : Option (Chan n M)} {k : Waker M} {j : Nat}
    (hh : (Pc.wakeup c j k).Heard A b) :
    (∀ j, (Pc.wakeup c j k).Heard A b) ∧ (∀ j, (Pc.wakeupNext c j k).Heard A b) ∧
      (k.resume : Pc n M).Fresh A ∧ (k.resume : Pc n M).Heard A b := by
  cases k <;> exact ⟨fun _ => ⟨nofun, hh.2⟩, fun _ => ⟨nofun, hh.2⟩, trivial, nofun, hh.2⟩

theorem Acts.heard {self : Option (Fin n)} {m : Move n M} (ha : Acts s self p m)
    (hf : p.Fresh A) (hh : p.Heard A b) : m.pc.Fresh A ∧ m.pc.Heard A b := by
  cases ha with
  | @enter l x =>
    replace hf : A.asked l x = false := hf
    exact ⟨trivial, nofun, by simp [Pc.window, Pc.dozes, hf]⟩
  | @write l x x' d ha =>
    have hk := @Asks.keeps _ A l x (s.data l)
    rw [ha] at hk
    refine ⟨trivial, nofun, fun hx => hh.2 (.inl (hk ?_))⟩
    simpa [Pc.window, Pc.dozes] using hx
  | @wake l x x' c ha =>
    have hk := @Asks.keeps _ A l x (s.data l)
    rw [ha] at hk
    refine ⟨trivial, nofun, fun hx => hh.2 (.inl (hk ?_))⟩
    simpa [Pc.window, Pc.dozes] using hx
  | @wait l x x' k ha =>
    have hk := @Asks.keeps _ A l x (s.data l)
    rw [ha] at hk
    refine ⟨hk.2, nofun, fun hx => hh.2 (.inl (hk.1 ?_))⟩
    simpa [Pc.window, Pc.dozes, Why.tests] using hx
  | @check l x yes no ha =>
    have hk := @Asks.keeps _ A l x (s.data l)
    rw [ha] at hk
    exact ⟨hk, nofun, by simp [Pc.window, Pc.dozes]⟩
  | done _ => exact ⟨trivial, nofun, by simp [Pc.window, Pc.dozes]⟩
  | leave => exact ⟨trivial, nofun, by simp [Pc.window, Pc.dozes]⟩
  | skip _ => exact ⟨trivial, (Pc.heard_wakeup hh).1 _⟩
  | look _ => exact ⟨trivial, (Pc.heard_wakeup hh).2.1 _⟩
  | past _ => exact (Pc.heard_wakeup hh).2.2
  | @next c j k =>
    have hh' : (Pc.wakeup c (j + 1) k).Heard A b := by
      cases k <;> exact ⟨nofun, hh.2⟩
    exact ⟨trivial, hh'⟩

/-- **What a process hears of its mark it hears under `p->lock`.** -/
theorem code_heard {m : Move n M} (hm : code s i inp p = .next m)
    (hf : p.Fresh A) (hh : p.Heard A (s.slot i).killed)
    (hb : b = (s.slot i).killed ∨ (∃ pid j, p = .kill pid j) ∨ p = .dead ∨ p.state = .zombie) :
    m.pc.Fresh A ∧ m.pc.Heard A b := by
  by_cases hp : p.Away
  · cases code_sleeps hm with
    | away _ hpc _ => exact ⟨Pc.fresh_of_away hpc, Pc.heard_of_away hpc⟩
    | @wakes _ _ c k _ hpc hk _ =>
      rw [hpc]
      cases k with
      | obj l x => exact absurd rfl (hk l x)
      | _ => exact ⟨trivial, by simp, by simp [Pc.window, Pc.dozes]⟩
    | call hx =>
      have := A.entry (.inl hx)
      exact ⟨this, by simp, by simp [Pc.window, Pc.dozes]⟩
    | ask => exact ⟨trivial, by simp, by simp [Pc.window, Pc.dozes]⟩
    | acts ha => cases ha <;> exact hp.elim
    | _ => exact hp.elim
  · obtain rfl := hb.resolve_right (Pc.not_gone hp)
    cases code_sleeps hm with
    | away hp' _ _ | wakes hp' _ _ _ => exact absurd hp' hp
    | call _ | ask => exact absurd trivial hp
    | acts ha => exact ha.heard hf hh
    | @killed q =>
      refine ⟨by cases q <;> exact hf, ?_, by simp [Pc.window, Pc.dozes]⟩
      rintro q k ⟨⟩
      rfl
    | @answer q k =>
      obtain rfl := hh.1 q k rfl
      cases q with
      | wait addr =>
        simp only [Asker.resume]
        cases (s.slot i).killed <;> exact ⟨trivial, by simp, by simp [Pc.window, Pc.dozes]⟩
      | obj l yes no =>
        refine ⟨trivial, by simp [Asker.resume], ?_⟩
        replace hf : A.asked l yes = false := hf
        cases (s.slot i).killed <;> simp [Asker.resume, Pc.window, Pc.dozes, hf]
    | @sleep w => cases w <;> exact ⟨hf, by simp, fun hx => hh.2 (.inl (by simpa [Pc.window, Pc.dozes] using hx))⟩
    | @release w | @mark w =>
      cases w <;> exact ⟨hf, by simp, fun hx => hh.2 (.inr (by simpa [Pc.window, Pc.dozes] using hx))⟩
    | @awake w => cases w <;> exact ⟨hf, by simp, by simp [Pc.window, Pc.dozes]⟩
    | @reacquire w =>
      cases w with
      | wait addr => exact ⟨trivial, by simp [Why.resume], by simp [Why.resume, Pc.window, Pc.dozes]⟩
      | obj l k x =>
        replace hf : A.asked l x = false := hf
        exact ⟨trivial, by simp [Why.resume], by simp [Why.resume, Pc.window, Pc.dozes, hf]⟩

end Ask

/-! ## The mark along a step -/

def Sys.marks (s : Sys n H M) (h : H) (i : Fin n) : Bool :=
  match s.ctl h with
  | .thread k =>
    match (s.thread k).top with
    | .kill pid j => j = i.val ∧ (s.slot i).pid = pid
    | _ => false
  | _ => false

theorem marks_of_kill {k : Fin n} (hc : s.ctl h = .thread k)
    (hp : (s.thread k).top = .kill (s.slot i).pid i) : s.marks h i = true := by
  simp [Sys.marks, hc, hp]

theorem Placed.killed_turns [DecidableEq H] (P : Placed s) (hs : Step s h inp s') (i : Fin n) :
    (s'.slot i).killed = (s.slot i).killed ∨
    ((s.thread i).top = .dead ∨ (s.thread i).top.state = .zombie) ∨
    (∃ k, s.ctl h = .thread k ∧ (s.thread k).top = .kill (s.slot i).pid i) ∧
      s.lock (.proc i) = none ∧ (s'.slot i).state ≠ .sleeping := by
  cases P.turns hs i with
  | stays e | run _ _ e | alloc _ _ _ _ _ _ e | parent _ _ _ e | ready _ _ _ e | wake _ _ e
  | reparent _ _ _ _ e | exit _ _ _ e | sleep _ _ e | tidy _ _ e | yield _ _ e =>
    exact .inl (by rw [e])
  | allocFail _ _ hu _ => exact .inr (.inl (P.gone (.inl hu)))
  | free _ _ hz _ _ => exact .inr (.inl (P.gone (.inr hz)))
  | kill hc hp hi hpid hl e =>
    refine .inr (.inr ⟨⟨_, hc, by rw [Thread.top, hi, hpid]; exact hp⟩, hl, ?_⟩)
    rw [e]
    simp only
    split
    · exact ProcState.noConfusion
    · assumption

/-! ## The invariant -/

structure Heard (A : Asks M) (s : Sys n H M) : Prop where
  fresh : ∀ i, (s.thread i).pc.Fresh A ∧ ∀ p, (s.thread i).intr = some p → p.Fresh A
  heard : ∀ i, (s.thread i).top.Heard A (s.slot i).killed
  asleep : ∀ i w, (s.slot i).state = .sleeping → (s.thread i).top = .sleepAwake w →
    w.tests A = true → (s.slot i).killed = false

def Sys.killsWell (A : Asks M) (s : Sys n H M) (h : H) : Prop :=
  ∀ i, s.marks h i = true → (s.thread i).top.window A = false

instance (A : Asks M) (s : Sys n H M) (h : H) : Decidable (s.killsWell A h) :=
  inferInstanceAs (Decidable (∀ _, _))

variable {A : Asks M}

theorem Heard.top (R : Heard A s) (i : Fin n) : (s.thread i).top.Fresh A := by
  unfold Thread.top
  cases hi : (s.thread i).intr with
  | none => exact (R.fresh i).1
  | some p => exact (R.fresh i).2 p hi

theorem goto_heard {t : Thread n M} {p : Pc n M}
    (hb : ∀ q, t.intr = some q → t.pc.held (some i) = []) (hp : p.Heard A b) :
    (t.goto p).top.Heard A b := by
  rcases goto_cases t p with h | ⟨-, ⟨q, hq⟩, h⟩ <;> rw [h]
  · exact hp
  · exact Pc.heard_of_held (hb q hq)

section Step

variable [DecidableEq H] (R : Heard A s) (P : Placed s) (hs : Step s h inp s')
  (hok : s.killsWell A h)
include R hs

theorem Heard.step_fresh (i : Fin n) :
    (s'.thread i).pc.Fresh A ∧ ∀ p, (s'.thread i).intr = some p → p.Fresh A := by
  cases hs.runs i with
  | stays _ e =>
    rw [e]
    exact R.fresh i
  | born _ e =>
    rw [e]
    exact ⟨trivial, nofun⟩
  | trap _ _ hp _ e =>
    rw [e]
    refine ⟨(R.fresh i).1, ?_⟩
    rintro p ⟨⟩
    rcases hp with rfl | ⟨l, x, rfl, hx⟩
    · trivial
    · exact A.entry (.inr hx)
  | swtch _ hq _ e =>
    rw [e]
    refine goto_both (fun _ => (R.fresh i).1) ?_
    rcases sched_state hq with ⟨rfl, -⟩ | ⟨-, rfl⟩ | ⟨w, hp, rfl⟩
    · trivial
    · trivial
    · have := R.top i
      rw [hp] at this
      cases w <;> exact this
  | moves hc hm _ _ e =>
    rw [e]
    exact goto_both (fun _ => (R.fresh i).1) (code_heard hm (R.top i) (R.heard i) (.inl rfl)).1

include P

theorem Heard.step_asleep (i : Fin n) (w : Why M) (hst : (s'.slot i).state = .sleeping)
    (htop : (s'.thread i).top = .sleepAwake w) (hw : w.tests A = true) :
    (s'.slot i).killed = false := by
  cases hs.runs i with
  | stays _ e =>
    rw [e] at htop
    rcases P.sleeping_turns hs hst with hst0 | ⟨w', -, hp⟩
    · rcases P.killed_turns hs i with hk | hgone | ⟨-, -, hne⟩
      · rw [hk]
        exact R.asleep i w hst0 htop hw
      · rw [htop] at hgone
        rcases hgone with hgone | hgone <;> cases hgone
      · exact absurd hst hne
    · rw [htop] at hp
      cases hp
  | born _ e =>
    rw [e] at htop
    cases htop
  | trap _ _ hp _ e =>
    rw [e] at htop
    rcases hp with rfl | ⟨l, x, rfl, -⟩ <;> cases htop
  | @swtch q _ hq ht e =>
    -- on the way to sleep the process holds `p->lock`, and has been told no
    rw [e] at htop
    rcases goto_cases (s.thread i) q with h | ⟨⟨r, rfl⟩, -⟩
    · rw [h] at htop
      rcases sched_state hq with ⟨rfl, -⟩ | ⟨-, rfl⟩ | ⟨w', hp, rfl⟩ <;> cases htop
      have hh := R.heard i
      rw [hp] at hh
      rw [ht.slot]
      exact hh.2 (.inr hw)
    · rcases sched_state hq with ⟨h, -⟩ | ⟨-, h⟩ | ⟨w', -, h⟩ <;> cases h
  | @moves m _ hm _ _ e =>
    rw [e] at htop
    rcases goto_cases (s.thread i) m.pc with h | ⟨-, ⟨q, hq⟩, h⟩ <;> rw [h] at htop
    · exact absurd htop (code_to_sleep hm w).2.2
    · have := (P.base i q hq).2
      rw [htop] at this
      cases this

include hok

theorem Heard.step_heard (i : Fin n) : (s'.thread i).top.Heard A (s'.slot i).killed := by
  have hbase : ∀ q, (s.thread i).intr = some q → (s.thread i).pc.held (some i) = [] :=
    fun q hq => (P.base i q hq).2
  cases hs.runs i with
  | stays _ e =>
    rw [e]
    rcases P.killed_turns hs i with hk | hgone | ⟨hmark, hl, -⟩
    · rw [hk]
      exact R.heard i
    · exact Pc.heard_of_gone hgone
    · rcases P.not_own hl with hown | hres | hd
      · obtain ⟨k, hc, hp⟩ := hmark
        exact Pc.heard_of_own hown (hok i (marks_of_kill hc hp))
      · exact hres.heard
      · exact Pc.heard_of_gone (.inl hd)
  | born _ e =>
    rw [e]
    exact @Pc.heard_of_away _ _ _ _ .forkret trivial
  | trap _ _ hp _ e =>
    rw [e]
    rcases hp with rfl | ⟨l, x, rfl, hx⟩
    · exact @Pc.heard_of_away _ _ _ _ .yield trivial
    · exact ⟨by simp [Thread.top], by simp [Thread.top, Pc.window, Pc.dozes]⟩
  | swtch _ hq _ e =>
    rw [e]
    refine goto_heard hbase ?_
    rcases sched_state hq with ⟨rfl, -⟩ | ⟨-, rfl⟩ | ⟨w, hp, rfl⟩
    · exact @Pc.heard_of_away _ _ _ _ .dead trivial
    · exact @Pc.heard_of_away _ _ _ _ .yieldDone trivial
    · exact ⟨by simp, by simp [Pc.window, Pc.dozes]⟩
  | moves hc hm _ _ e =>
    rw [e]
    refine goto_heard hbase (code_heard hm (R.top i) (R.heard i) ?_).2
    rcases P.killed_turns hs i with hk | hgone | ⟨⟨k, hck, hp⟩, -⟩
    · exact .inl hk
    · exact .inr (.inr hgone)
    · rw [hc] at hck
      cases hck
      exact .inr (.inl ⟨_, _, hp⟩)

theorem Heard.step : Heard A s' :=
  ⟨R.step_fresh hs, R.step_heard P hs hok, R.step_asleep P hs⟩

end Step

theorem Heard.of_boot (hb : Boot s) : Heard A s := by
  have hthread := hb.thread_of (T := fun t => t.pc.Away ∧ t.intr = none) ⟨trivial, rfl⟩ ⟨trivial, rfl⟩
  have htop : ∀ i, (s.thread i).top = (s.thread i).pc := fun i => by
    rw [Thread.top, (hthread i).2]
    rfl
  refine ⟨fun i => ⟨Pc.fresh_of_away (hthread i).1, fun p hp => ?_⟩, fun i => ?_,
    fun i w _ hp => ?_⟩
  · rw [(hthread i).2] at hp
    cases hp
  · rw [htop i]
    exact Pc.heard_of_away (hthread i).1
  · have := (hthread i).1
    rw [← htop i, hp] at this
    exact this.elim

theorem Heard.of_reach [DecidableEq H]
    (hr : Reach Boot Sched.step (fun s a => s.killsWell A a.1) s) : Heard A s :=
  hr.invariant_of (fun _ => .of_boot) fun _ _ _ hr R hok hs =>
    R.step (.of_reach hr) (.of_step hs) hok

/-! ## The loops of the kernel -/

/-- Where the functions have asked `killed`, and been told no. -/
def objAsked : Local → Bool
  | .pipewriteAlive _ _ | .pipewriteSleep _ _ => true
  | .pipereadSleep _ _ => true
  | .sysSleepSleep _ _ => true
  | .consolereadSleep _ _ _ => true
  | _ => false

def ObjCond.tests : ObjCond → Bool
  | .sleeplock _ => false
  | _ => true

variable {x : Local}

theorem pipereadCopy_asks {n : Int} {room i : Nat} :
    (pipereadCopy id pi n room i).Asks objAsked ObjCond.tests x := by
  unfold pipereadCopy
  split
  · split
    · exact nofun
    · split <;> exact nofun
  · exact nofun

theorem pipe_asks : (pipeCode id pi x).Asks objAsked ObjCond.tests x := by
  cases x
  case pipewrite src i =>
    cases src with
    | nil => exact nofun
    | cons c src =>
      simp only [pipeCode]
      split
      · exact rfl
      · trivial
  case pipewriteAlive src i =>
    cases src with
    | nil => exact nofun
    | cons c src =>
      simp only [pipeCode]
      split
      · exact fun _ => rfl
      · cases c <;> exact nofun
  case pipewriteSleep src i | pipereadSleep n room => exact ⟨fun _ => rfl, rfl⟩
  case piperead n room =>
    simp only [pipeCode]
    split
    · exact rfl
    · exact pipereadCopy_asks
  case pipereadCopy n room i ch => exact pipereadCopy_asks
  case pipeclose writable | pipecloseEnd writable => cases writable <;> exact nofun
  case pipereadEnd i ch => exact nofun
  all_goals trivial

theorem ticks_asks {t : UInt32} : (ticksCode t x).Asks objAsked ObjCond.tests x := by
  cases x
  case sysSleep n | sysSleepLoop ticks0 n =>
    simp only [ticksCode, sysSleepLoop]
    split
    · exact rfl
    · trivial
  case sysSleepSleep ticks0 n => exact ⟨fun _ => rfl, rfl⟩
  case clockintr | clockintrEnd => exact nofun
  all_goals trivial

theorem cons_asks {c : Console} : (consCode c x).Asks objAsked ObjCond.tests x := by
  cases x
  case consoleread target n room =>
    simp only [consCode]
    split
    · split
      · exact rfl
      · split
        · split
          · trivial
          · exact nofun
        · split
          · exact nofun
          · split <;> exact nofun
    · trivial
  case consolereadSleep target n room => exact ⟨fun _ => rfl, rfl⟩
  case consoleintr ch =>
    simp only [consCode]
    repeat' split
    all_goals first | trivial | (intro hx; cases hx)
  case consoleintrEnd => exact nofun
  all_goals trivial

theorem sleeplock_asks {lk : Sleeplock} :
    (sleeplockCode id lk x).Asks objAsked ObjCond.tests x := by
  cases x
  case acquiresleep pid =>
    simp only [sleeplockCode]
    split
    · exact ⟨nofun, rfl⟩
    · exact nofun
  case releasesleep | releasesleepEnd => exact nofun
  all_goals trivial

def objAsks : Asks objects where
  asked _ := objAsked
  tests := ObjCond.tests
  entry {l x} hx := by
    cases x <;> first | rfl | (cases l <;> rcases hx with hx | hx <;> cases hx)
  keeps {l x d} := by
    show (objCode l x d).Asks objAsked ObjCond.tests x
    cases l <;> cases d <;>
      first | exact pipe_asks | exact ticks_asks | exact cons_asks | exact sleeplock_asks | trivial

/-- In the `sleep` of `piperead`, `pipewrite`, `wait`, `sys_sleep` or `consoleread`. -/
def Pc.asleep : Pc n objects → Bool
  | .sleepSched w | .sleepAwake w => w.tests objAsks
  | _ => false

/-- **No kill is lost, if it does not come between `killed` and `sleep`.** -/
theorem kill_heard [DecidableEq H] {s : Sys n H objects}
    (hr : Reach Boot Sched.step (fun s a => s.killsWell objAsks a.1) s) (j : Fin n)
    (hst : (s.slot j).state = .sleeping) (hp : (s.thread j).top.asleep = true) :
    (s.slot j).killed = false := by
  have R := Heard.of_reach hr
  cases htop : (s.thread j).top <;> rw [htop] at hp <;> first | cases hp | skip
  case sleepSched w =>
    have hh := R.heard j
    rw [htop] at hh
    exact hh.2 (.inr hp)
  case sleepAwake w => exact R.asleep j w hst htop hp

/-! ### A run -/

def twoHarts : Sys 2 Bool objects := Sys.boot objInit 0

/-- `init` makes a child, and the other hart runs it: it calls `sys_sleep(5)`, takes `tickslock`
    and asks whether it has been killed. -/
def childAsks : List (Bool × Input objects) :=
  onHart true ([.go, .go, .fork] ++ List.replicate 8 .go) ++
    onHart false ([.go, .go, .go, .go, .call ObjLock.ticks (Local.sysSleep 5)] ++ List.replicate 4 .go)

def childSleeps : List (Bool × Input objects) := onHart false (List.replicate 6 .go)

def initKills : List (Bool × Input objects) := onHart true (.kill 2 :: List.replicate 4 .go)

/-- `init` kills the child in its sleep, so that it gets up, marked, and goes to sleep itself. -/
theorem kill_heard_asleep : ∃ s : Sys 2 Bool objects,
    Reach Boot Sched.step (fun s a => s.killsWell objAsks a.1) s ∧
      (s.slot 1).killed = true ∧ (s.slot 1).state = .runnable ∧
      (s.slot 0).state = .sleeping ∧ (s.slot 0).killed = false := by
  have hrun : (exec Sched.step (fun s a => s.killsWell objAsks a.1) twoHarts
      (childAsks ++ childSleeps ++ initKills ++
        onHart true (.call ObjLock.ticks (Local.sysSleep 5) :: List.replicate 10 .go))).any
      (fun s => (s.slot 1).killed = true ∧ (s.slot 1).state = .runnable ∧
        (s.slot 0).state = .sleeping ∧ (s.thread 0).top.asleep = true) = true := by
    decide +kernel
  obtain ⟨s, hr, hq⟩ := Reach.exec_any (Sys.boot_spec _ _) hrun
  obtain ⟨hk, hw, hst, hp⟩ := of_decide_eq_true hq
  exact ⟨s, hr, hk, hw, hst, kill_heard hr 0 hst hp⟩

/-- **A kill is lost**: `kill(2)` has returned 0, and the child sleeps, marked. -/
theorem kill_lost : ∃ s : Sys 2 Bool objects, Reach Boot Sched.step (fun _ _ => True) s ∧
    (s.slot 1).state = .sleeping ∧ (s.thread 1).top.asleep = true ∧ (s.slot 1).killed = true ∧
      (s.thread 0).pc.returned = some 0 := by
  have hrun : (exec Sched.step (fun _ _ => True) twoHarts
      (childAsks ++ initKills ++ childSleeps)).any
      (fun s => (s.slot 1).state = .sleeping ∧ (s.thread 1).top.asleep = true ∧
        (s.slot 1).killed = true ∧ (s.thread 0).pc.returned = some 0) = true := by
    decide +kernel
  obtain ⟨s, hr, hq⟩ := Reach.exec_any (Sys.boot_spec _ _) hrun
  exact ⟨s, hr, of_decide_eq_true hq⟩

end ZeptOS.Sched
