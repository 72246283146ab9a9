import ZeptOS.Sched.Kill

/-!
# No wakeup is lost

`sleep` gives up the lock of the condition before the process is asleep, and `wakeup` looks at
one process at a time while the others go on. That is safe because `sleep` takes `p->lock` before
it gives up the other lock: a waker that comes after that has to wait for `p->lock` until the
process is `SLEEPING` and off its hart.

For a channel with a `Discipline` the invariant is this. Whoever is about to sleep has seen its
condition false, and while it holds the lock nobody makes it true. If it is true later, somebody
owes a wakeup of the channel, or is in one and has not come to the sleeper yet.

That a process which has been woken runs again is not covered: of the order in which the harts
move nothing is assumed, so a hart may leave it `RUNNABLE` for ever.
-/

namespace ZeptOS.Sched

open Lib Function
open Mem (ProcState)

variable {n : Nat} {H : Type} {M : Monitor} {s s' : Sys n H M} {h g : H} {inp : Input M}
  {self : Option (Fin n)} {i : Fin n} {p : Pc n M} {m : Move n M}

/-! ## Where the harts are -/

def Sys.at (s : Sys n H M) (g : H) : Option (Pc n M) :=
  match s.ctl g with
  | .thread i => some (s.thread i).top
  | .intr _ p => some p
  | _ => none

def Does (s : Sys n H M) : Option (Fin n) → Pc n M → Move n M → Prop
  | none => Acts s none
  | some i => Sleeps s i

theorem at_thread (hc : s.ctl h = .thread i) : s.at h = some (s.thread i).top := by
  simp only [Sys.at, hc]

theorem at_intr {k : Nat} (hc : s.ctl h = .intr k p) : s.at h = some p := by
  simp only [Sys.at, hc]

theorem held_at (hp : s.at g = some p) : ∃ self, s.held g = p.held self := by
  unfold Sys.at at hp
  unfold Sys.held
  cases hc : s.ctl g with
  | thread i =>
    simp only [hc, Option.some.injEq] at hp
    exact ⟨some i, by rw [← hp]⟩
  | intr k q =>
    simp only [hc, Option.some.injEq] at hp
    exact ⟨none, by rw [← hp]⟩
  | _ =>
    simp only [hc] at hp
    cases hp

theorem Step.ctl_other [DecidableEq H] (hs : Step s h inp s') (hg : g ≠ h) :
    s'.ctl g = s.ctl g := by
  cases hs with
  | trap _ _ _ _ => rfl
  | move _ _ _ _ => exact congrFun (after_ctl.trans apply_ctl) g
  | _ => exact update_of_ne hg _ _

theorem Placed.at_other [DecidableEq H] (P : Placed s) (hs : Step s h inp s') (hg : g ≠ h) :
    s'.at g = s.at g := by
  unfold Sys.at
  rw [hs.ctl_other hg]
  cases hc : s.ctl g with
  | thread j =>
    simp only [Option.some.injEq]
    cases hs.runs j with
    | stays _ e => rw [e]
    | born hu _ =>
      rw [P.on g j hc] at hu
      exact absurd hu Pc.state_ne.2
    | trap hc' _ _ _ _ | swtch hc' _ _ _ | moves hc' _ _ _ _ => exact absurd (P.one g h j hc hc') hg
  | _ => rfl

theorem Step.hart [DecidableEq H] (hs : Step s h inp s') (hp : s.at h = some p) :
    s.noff h = 0 ∧ s'.data = s.data ∨ (∃ q, p.sched = some q) ∧ s'.data = s.data ∨
    ∃ self m, Does s self p m ∧ (∀ i, self = some i → s.ctl h = .thread i) ∧
      m.op.enabled h s ∧ SameTables s' (m.eff.apply s) ∧
      (s'.at h = some m.pc ∨ ∃ r, m.pc = .user r) := by
  cases hs with
  | wrap hc _ | skip hc _ _ | pick hc _ _ | next hc _ | back hc _ | irq hc _ =>
    simp only [Sys.at, hc] at hp
    cases hp
  | @job k q m hc hj he =>
    rw [at_intr hc] at hp
    cases hp
    refine .inr (.inr ⟨none, m, job_acts hj, nofun, he, ⟨after_slot, after_data, after_nextpid,
      after_births, after_birth, after_exits, after_waits⟩, ?_⟩)
    cases hpc : m.pc
    case user r => exact .inr ⟨r, rfl⟩
    all_goals exact .inl (by simp [Sys.at])
  | trap _ h0 _ _ => exact .inl ⟨h0, rfl⟩
  | sched hc hq _ _ _ =>
    rw [at_thread hc] at hp
    cases hp
    exact .inr (.inl ⟨⟨_, hq⟩, rfl⟩)
  | @move i m hc _ hm he =>
    rw [at_thread hc] at hp
    cases hp
    refine .inr (.inr ⟨some i, m, code_sleeps hm, fun j hj => ?_, he, ⟨after_slot, after_data,
      after_nextpid, after_births, after_birth, after_exits, after_waits⟩, ?_⟩)
    · cases hj
      exact hc
    · rcases goto_cases (s.thread i) m.pc with htop | ⟨hu, -⟩
      · exact .inl (by simp [Sys.at, hc, htop])
      · exact .inr hu

theorem Acts.data (ha : Acts s self p m) (l : M.L) : (m.eff.apply s).data l = s.data l ∨
    ∃ x d x', p = .inside l x ∧ M.code l x (s.data l) = .write d x' ∧
      (m.eff.apply s).data l = d ∧ m.pc = .inside l x' := by
  cases ha with
  | @write l' x x' d ha =>
    by_cases hl : l = l'
    · subst hl
      exact .inr ⟨x, d, x', rfl, ha, by simp [Eff.apply], rfl⟩
    · exact .inl (by simp [Eff.apply, hl])
  | look _ =>
    refine .inl ?_
    split <;> rfl
  | _ => exact .inl rfl

theorem Does.data (hm : Does s self p m) (l : M.L) : (m.eff.apply s).data l = s.data l ∨
    ∃ x d x', p = .inside l x ∧ M.code l x (s.data l) = .write d x' ∧
      (m.eff.apply s).data l = d ∧ m.pc = .inside l x' := by
  cases self with
  | none => exact Acts.data hm l
  | some j =>
    cases hm with
    | acts ha => exact ha.data l
    | wakes _ _ _ he | away _ _ he =>
      refine .inl ?_
      cases heff : m.eff <;> first | rfl | exact absurd heff (he _ _)
    | _ => exact .inl rfl

theorem Step.data [DecidableEq H] (hs : Step s h inp s') (l : M.L) : s'.data l = s.data l ∨
    ∃ x d x', s.at h = some (.inside l x) ∧ M.code l x (s.data l) = .write d x' ∧
      s'.data l = d ∧ s'.at h = some (.inside l x') := by
  cases hp : s.at h with
  | none =>
    refine .inl ?_
    cases hs with
    | job hc _ _ =>
      rw [at_intr hc] at hp
      cases hp
    | move hc _ _ _ =>
      rw [at_thread hc] at hp
      cases hp
    | _ => rfl
  | some p =>
    rcases hs.hart hp with ⟨-, hd⟩ | ⟨-, hd⟩ | ⟨self, m, hm, -, -, ht, hpc⟩
    · exact .inl (by rw [hd])
    · exact .inl (by rw [hd])
    · rw [ht.data]
      rcases hm.data l with hd | ⟨x, d, x', rfl, ha, hd, hpc'⟩
      · exact .inl hd
      · refine .inr ⟨x, d, x', rfl, ha, hd, ?_⟩
        rw [hpc'] at hpc
        rcases hpc with hpc | ⟨r, hr⟩
        · exact hpc
        · cases hr

theorem Placed.on_of_held (P : Placed s) {l : M.L}
    (hl : Lock.obj l ∈ (s.thread i).top.held (some i)) : ∃ g, s.ctl g = .thread i := by
  by_contra hc
  have hoff := P.off i fun g hg => hc ⟨g, hg⟩
  cases hst : (s.slot i).state <;> rw [hst] at hoff
  · rw [show s.thread i = _ from hoff] at hl
    simp [Thread.top, Pc.held] at hl
  · rw [show s.thread i = _ from hoff] at hl
    simp [Thread.top, Pc.held, Pc.held.own] at hl
  · obtain ⟨w, hw⟩ := hoff
    simp [hw, Pc.held, Pc.held.own] at hl
  · rw [Pc.Resumes.held hoff] at hl
    simp at hl
  · exact hoff
  · rw [show s.thread i = _ from hoff] at hl
    simp [Thread.top, Pc.held] at hl

theorem Placed.held_other (P : Placed s) {l : M.L} (hc : s.ctl h ≠ .thread i)
    (hp : p = (s.thread i).pc ∨ (s.thread i).intr = some p) (hl : Lock.obj l ∈ p.held (some i)) :
    ∃ g, g ≠ h ∧ Lock.obj l ∈ s.held g := by
  have htop : Lock.obj l ∈ (s.thread i).top.held (some i) := by
    rcases P.top i with ⟨ht, hn⟩ | ⟨hi, -⟩
    · rw [ht]
      rcases hp with rfl | hp
      · exact hl
      · rw [hn] at hp
        cases hp
    · rcases hp with rfl | hp
      · rw [(P.base i _ hi).2] at hl
        cases hl
      · rw [hi] at hp
        cases hp
        exact hl
  obtain ⟨g, hg⟩ := P.on_of_held htop
  refine ⟨g, fun hgh => hc (hgh ▸ hg), ?_⟩
  unfold Sys.held
  rw [hg]
  exact htop

/-! ## What code knows of its data -/

section Known

variable {c : M.C} (Δ : Discipline M c)

/-- What holds of the data `d` of the lock where a process or a handler stands. -/
def Pc.Knows (d : M.D) : Pc n M → Prop
  | .enter l x => l = Δ.lock → ∀ d', Δ.knows x d'
  | .inside l x => l = Δ.lock → Δ.knows x d
  | .wakeup _ _ (.obj l x) | .wakeupNext _ _ (.obj l x) => l = Δ.lock → Δ.knows x d
  | .killed (.obj l yes no) | .killedDone (.obj l yes no) _ =>
    l = Δ.lock → Δ.knows yes d ∧ Δ.knows no d
  | .sleep (.obj l k x) | .sleepRelease (.obj l k x) =>
    (M.chan k = c → l = Δ.lock ∧ Δ.cond k d = false) ∧ (l = Δ.lock → ∀ d', Δ.knows x d')
  | .sleepMark (.obj l k x) | .sleepSched (.obj l k x) | .sleepAwake (.obj l k x) =>
    (M.chan k = c → l = Δ.lock) ∧ (l = Δ.lock → ∀ d', Δ.knows x d')
  | .sleepReacquire (.obj l _ x) => l = Δ.lock → ∀ d', Δ.knows x d'
  | _ => True

variable {Δ} {d d' : M.D}

theorem Pc.knows_of_not_held (hk : p.Knows Δ d) (hl : Lock.obj Δ.lock ∉ p.held self) :
    p.Knows Δ d' := by
  cases p
  case inside l x =>
    refine fun hll => absurd ?_ hl
    simp [Pc.held, hll]
  case wakeup ch j k | wakeupNext ch j k =>
    cases k
    case obj l x =>
      refine fun hll => absurd ?_ hl
      simp [Pc.held, Waker.lock, hll]
    all_goals trivial
  case killed q | killedDone q b =>
    cases q
    case obj l yes no =>
      refine fun hll => absurd ?_ hl
      simp [Pc.held, Asker.lock, hll]
    all_goals trivial
  case sleep w | sleepRelease w =>
    cases w
    case obj l k x =>
      refine ⟨fun hc => absurd ?_ hl, hk.2⟩
      simp [Pc.held, Why.lock, (hk.1 hc).1]
    all_goals trivial
  case sleepMark w | sleepSched w | sleepAwake w | sleepReacquire w => cases w <;> exact hk
  case enter l x => exact hk
  all_goals trivial

theorem Pc.knows_of_away (hp : p.Away) : p.Knows Δ d := by
  cases p <;> first | exact hp.elim | trivial

theorem keeps_of {l : M.L} {x : M.X} {a : Act M.C M.K M.D M.X} (ha : M.code l x (s.data l) = a)
    (hl : l = Δ.lock) (hx : Δ.knows x (s.data Δ.lock)) :
    a.Keeps M.chan c Δ.cond Δ.owes Δ.knows x (s.data Δ.lock) := by
  subst hl
  rw [← ha]
  exact Δ.keeps hx

theorem Acts.knows (ha : Acts s self p m) (hk : p.Knows Δ (s.data Δ.lock)) :
    m.pc.Knows Δ ((m.eff.apply s).data Δ.lock) := by
  cases ha with
  | enter => exact fun hl => hk hl _
  | write ha =>
    intro hl
    have hkeeps := keeps_of ha hl (hk hl)
    subst hl
    simpa [Eff.apply] using hkeeps.1
  | wake ha => exact fun hl => (keeps_of ha hl (hk hl)).1
  | wait ha =>
    refine ⟨fun hc => ?_, fun hl => (keeps_of ha hl (hk hl)).1⟩
    have hl := Δ.waits ha hc
    exact ⟨hl, (keeps_of ha hl (hk hl)).2.2 hc⟩
  | check ha =>
    intro hl
    have hkeeps := keeps_of ha hl (hk hl)
    exact ⟨hkeeps.1, hkeeps.2.1⟩
  | done _ | leave => trivial
  | @skip _ _ k _ | @past _ _ k _ | @next _ _ k => cases k <;> exact hk
  | @look ch j k _ =>
    have hd : ((if (s.slot j).state = .sleeping ∧ (s.slot j).chan = ch then Eff.ready j
        else .none).apply s).data = s.data := by
      split <;> rfl
    cases k
    case obj l x =>
      intro hl
      simp only [hd]
      exact hk hl
    all_goals trivial

theorem Sleeps.knows (hm : Sleeps s i p m) (hk : p.Knows Δ (s.data Δ.lock)) :
    m.pc.Knows Δ ((m.eff.apply s).data Δ.lock) := by
  cases hm with
  | acts ha => exact ha.knows hk
  | call hx =>
    rintro rfl
    exact Δ.entry (.inl hx)
  | @wakes _ _ _ k _ hpc hobj _ =>
    rw [hpc]
    cases k with
    | obj l x => exact absurd rfl (hobj l x)
    | _ => trivial
  | ask => trivial
  | @killed q => cases q <;> exact hk
  | @answer q k =>
    cases q with
    | wait addr => cases k <;> trivial
    | obj l yes no =>
      intro hl
      cases k
      · exact (hk hl).2
      · exact (hk hl).1
  | @sleep w => cases w <;> exact hk
  | @release w =>
    cases w with
    | wait addr => trivial
    | obj l k x => exact ⟨fun hc => (hk.1 hc).1, hk.2⟩
  | @mark w => cases w <;> exact hk
  | @awake w =>
    cases w with
    | wait addr => trivial
    | obj l k x => exact hk.2
  | @reacquire w =>
    cases w with
    | wait addr => trivial
    | obj l k x => exact fun hl => hk hl _
  | away _ hpc _ => exact Pc.knows_of_away hpc

/-! ## Who owes a wakeup -/

variable (Δ)

/-- A wakeup of `c` is going to reach process `i`: it is owed, or it is on its way. -/
def Pc.Pending (i : Fin n) : Pc n M → Prop
  | .inside l x => l = Δ.lock ∧ Δ.owes x = true
  | .killed (.obj l yes no) | .killedDone (.obj l yes no) _ =>
    l = Δ.lock ∧ Δ.owes yes = true ∧ Δ.owes no = true
  | .wakeup ch j k =>
    ch = some (.obj c) ∧ j ≤ i ∨ ∃ x, k = .obj Δ.lock x ∧ Δ.owes x = true
  | .wakeupNext ch j k =>
    ch = some (.obj c) ∧ j < i ∨ ∃ x, k = .obj Δ.lock x ∧ Δ.owes x = true
  | _ => False

variable {Δ}

theorem Acts.pending (ha : Acts s self p m) (hk : p.Knows Δ (s.data Δ.lock))
    (hp : p.Pending Δ i) : m.pc.Pending Δ i ∨ self = some i ∨ m.op = .acquire (.proc i) ∧
        m.eff = (if (s.slot i).state = .sleeping ∧ (s.slot i).chan = some (.obj c) then .ready i
          else .none) := by
  cases ha with
  | enter | leave => exact hp.elim
  | write ha =>
    obtain ⟨hl, ho⟩ := hp
    exact .inl ⟨hl, (keeps_of ha hl (hk hl)).2.1 ho⟩
  | wake ha =>
    obtain ⟨rfl, ho⟩ := hp
    rcases (keeps_of ha rfl (hk rfl)).2 ho with rfl | ho'
    · exact .inl (.inl ⟨rfl, Nat.zero_le _⟩)
    · exact .inl (.inr ⟨_, rfl, ho'⟩)
  | wait ha =>
    obtain ⟨hl, ho⟩ := hp
    rw [(keeps_of ha hl (hk hl)).2.1] at ho
    cases ho
  | check ha =>
    obtain ⟨hl, ho⟩ := hp
    exact .inl ⟨hl, (keeps_of ha hl (hk hl)).2.2 ho⟩
  | done ha =>
    obtain ⟨hl, ho⟩ := hp
    have hno : Δ.owes _ = false := keeps_of ha hl (hk hl)
    rw [hno] at ho
    cases ho
  | @skip ch j k hj =>
    rcases hp with ⟨hc, hle⟩ | hp
    · rcases Nat.lt_or_eq_of_le hle with hlt | heq
      · exact .inl (.inl ⟨hc, hlt⟩)
      · exact .inr (.inl (by rw [hj, Fin.ext heq]))
    · exact .inl (.inr hp)
  | @look ch j k hj =>
    rcases hp with ⟨hc, hle⟩ | hp
    · rcases Nat.lt_or_eq_of_le hle with hlt | heq
      · exact .inl (.inl ⟨hc, hlt⟩)
      · obtain rfl := Fin.ext heq
        exact .inr (.inr ⟨rfl, by rw [hc]⟩)
    · exact .inl (.inr hp)
  | past hj =>
    rcases hp with ⟨-, hle⟩ | ⟨x, rfl, ho⟩
    · have := i.isLt
      omega
    · exact .inl ⟨rfl, ho⟩
  | next =>
    rcases hp with ⟨hc, hlt⟩ | hp
    · exact .inl (.inl ⟨hc, hlt⟩)
    · exact .inl (.inr hp)

theorem Does.pending (hm : Does s self p m) (hk : p.Knows Δ (s.data Δ.lock))
    (hp : p.Pending Δ i) : m.pc.Pending Δ i ∨ self = some i ∨ m.op = .acquire (.proc i) ∧
        m.eff = (if (s.slot i).state = .sleeping ∧ (s.slot i).chan = some (.obj c) then .ready i
          else .none) := by
  cases self with
  | none => exact Acts.pending hm hk hp
  | some j =>
    cases hm with
    | acts ha => exact ha.pending hk hp
    | @killed q =>
      cases q with
      | wait addr => exact hp.elim
      | obj l yes no => exact .inl hp
    | @answer q k =>
      cases q with
      | wait addr => exact hp.elim
      | obj l yes no =>
        cases k
        · exact .inl ⟨hp.1, hp.2.2⟩
        · exact .inl ⟨hp.1, hp.2.1⟩
    | wakes hp' _ _ _ | away hp' _ _ => cases p <;> first | exact hp.elim | exact hp'.elim
    | _ => exact hp.elim

theorem Pc.Pending.held (hp : p.Pending Δ i) : p.held self ≠ [] ∧ p.sched = none := by
  cases p
  case killed q | killedDone q b => cases q <;> first | exact hp.elim | simp [Pc.held, Pc.sched]
  all_goals first | exact hp.elim | simp [Pc.held, Pc.sched]

/-! ## The invariant -/

/-- The process sleeps, or has `p->lock` and is about to. -/
def Sys.asleep (s : Sys n H M) (i : Fin n) (w : Why M) : Prop :=
  (s.thread i).top = .sleepMark w ∨ (s.thread i).top = .sleepSched w ∨
    (s.thread i).top = .sleepAwake w ∧ (s.slot i).state = .sleeping

variable (Δ)

structure Awaited (s : Sys n H M) : Prop where
  known : ∀ i, (s.thread i).pc.Knows Δ (s.data Δ.lock) ∧
    ∀ p, (s.thread i).intr = some p → p.Knows Δ (s.data Δ.lock)
  handler : ∀ g k p, s.ctl g = .intr k p → p.Knows Δ (s.data Δ.lock)
  chan : ∀ i w, s.asleep i w → (s.thread i).top ≠ .sleepMark w →
    (s.slot i).chan = some (w.chan i)
  woken : ∀ i k x, s.asleep i (.obj Δ.lock k x) → M.chan k = c →
    Δ.cond k (s.data Δ.lock) = true → ∃ g p, s.at g = some p ∧ p.Pending Δ i

variable {Δ}

theorem Awaited.top (R : Awaited Δ s) (i : Fin n) : (s.thread i).top.Knows Δ (s.data Δ.lock) := by
  unfold Thread.top
  cases hi : (s.thread i).intr with
  | none => exact (R.known i).1
  | some p => exact (R.known i).2 p hi

theorem Awaited.at (R : Awaited Δ s) (hp : s.at g = some p) : p.Knows Δ (s.data Δ.lock) := by
  unfold Sys.at at hp
  cases hc : s.ctl g <;> simp only [hc] at hp <;> cases hp
  · exact R.top _
  · exact R.handler g _ _ hc

section Step

variable [DecidableEq H] (R : Awaited Δ s) (P : Placed s) (hs : Step s h inp s')
include P hs

theorem Placed.knows_other
    (hc : Lock.obj Δ.lock ∈ p.held self → ∃ g, g ≠ h ∧ Lock.obj Δ.lock ∈ s.held g)
    (hk : p.Knows Δ (s.data Δ.lock)) : p.Knows Δ (s'.data Δ.lock) := by
  rcases hs.data Δ.lock with hd | ⟨x, d, x', hp, -⟩
  · rw [hd]
    exact hk
  · refine Pc.knows_of_not_held hk fun (hl : Lock.obj Δ.lock ∈ p.held self) => ?_
    obtain ⟨g, hg, hheld⟩ := hc hl
    obtain ⟨self', hself⟩ := held_at hp
    refine hg (P.locks.unique hheld ?_)
    rw [hself]
    exact List.mem_singleton.mpr rfl

include R

theorem Awaited.step_known (i : Fin n) : (s'.thread i).pc.Knows Δ (s'.data Δ.lock) ∧
    ∀ p, (s'.thread i).intr = some p → p.Knows Δ (s'.data Δ.lock) := by
  cases hs.runs i with
  | stays hc e =>
    rw [e]
    exact ⟨P.knows_other hs (P.held_other hc (.inl rfl)) (R.known i).1,
      fun p hp => P.knows_other hs (P.held_other hc (.inr hp)) ((R.known i).2 p hp)⟩
  | born _ e =>
    rw [e]
    exact ⟨trivial, nofun⟩
  | trap _ _ hp ht e =>
    rw [e, ht.data]
    refine ⟨(R.known i).1, ?_⟩
    rintro p ⟨⟩
    rcases hp with rfl | ⟨l, x, rfl, hx⟩
    · trivial
    · rintro rfl
      exact Δ.entry (.inr hx)
  | swtch _ hq ht e =>
    rw [e, ht.data]
    refine goto_both (fun _ => (R.known i).1) ?_
    rcases sched_state hq with ⟨rfl, -⟩ | ⟨-, rfl⟩ | ⟨w, hp, rfl⟩
    · trivial
    · trivial
    · have hk := R.top i
      rw [hp] at hk
      cases w <;> exact hk
  | moves _ hm _ ht e =>
    rw [e, ht.data]
    refine goto_both (fun ⟨q, hq⟩ => ?_) ((code_sleeps hm).knows (R.top i))
    have hfree : Lock.obj Δ.lock ∉ (s.thread i).pc.held (some i) := by
      rw [(P.base i q hq).2]
      exact List.not_mem_nil
    exact Pc.knows_of_not_held (R.known i).1 hfree

theorem Awaited.step_handler (g : H) (k : Nat) (p : Pc n M) (hg : s'.ctl g = .intr k p) :
    p.Knows Δ (s'.data Δ.lock) := by
  by_cases hgh : g = h
  · subst hgh
    cases hs with
    | irq _ hx =>
      simp only [update_self] at hg
      cases hg
      rintro rfl
      exact Δ.entry (.inr hx)
    | @job k' q m hc hj he =>
      have hk := (job_acts hj).knows (R.handler g k' q hc)
      simp only [after_data]
      simp only [update_self] at hg
      cases hpc : m.pc <;> rw [hpc] at hg hk <;> cases hg <;> exact hk
    | wrap | skip | pick | next | back | sched =>
      simp only [update_self] at hg
      cases hg
    | trap hc _ _ _ =>
      rw [show s.ctl g = _ from hg] at hc
      cases hc
    | move hc _ _ _ =>
      simp only [after_ctl, apply_ctl, hc] at hg
      cases hg
  · rw [hs.ctl_other hgh] at hg
    have hheld : Lock.obj Δ.lock ∈ p.held none → Lock.obj Δ.lock ∈ s.held g := by
      unfold Sys.held
      rw [hg]
      exact id
    exact P.knows_other hs (fun hl => ⟨g, hgh, hheld hl⟩) (R.handler g k p hg)

omit R in
theorem Placed.asleep_turns {w : Why M} (ha : s'.asleep i w) :
    s.ctl h ≠ .thread i ∧ s'.thread i = s.thread i ∧ s.asleep i w ∨
    (s'.thread i).top = .sleepMark w ∧ (s.thread i).top = .sleepRelease w ∧ s'.data = s.data ∨
    (s.thread i).top = .sleepMark w ∧ (s'.slot i).chan = some (w.chan i) ∨
    (s.thread i).top = .sleepSched w ∧ s'.slot = s.slot := by
  unfold Sys.asleep at ha
  cases hs.runs i with
  | stays hc e =>
    rw [e] at ha
    refine .inl ⟨hc, e, ha.imp_right (Or.imp_right fun ⟨htop, hst⟩ => ⟨htop, ?_⟩)⟩
    refine (P.sleeping_turns hs hst).resolve_right ?_
    rintro ⟨w', hc', -⟩
    exact hc hc'
  | born _ e =>
    rw [e] at ha
    rcases ha with ha | ha | ⟨ha, -⟩ <;> cases ha
  | trap _ _ hp _ e =>
    rw [e] at ha
    rcases hp with rfl | ⟨l, x, rfl, -⟩ <;> rcases ha with ha | ha | ⟨ha, -⟩ <;> cases ha
  | @swtch q _ hq ht e =>
    rw [e] at ha
    refine .inr (.inr (.inr ⟨?_, ht.slot⟩))
    rcases goto_cases (s.thread i) q with htop | ⟨⟨r, rfl⟩, -⟩
    · rw [htop] at ha
      rcases sched_state hq with ⟨rfl, -⟩ | ⟨-, rfl⟩ | ⟨w', hp, rfl⟩ <;>
        rcases ha with ha | ha | ⟨ha, -⟩ <;> cases ha
      exact hp
    · rcases sched_state hq with ⟨h, -⟩ | ⟨-, h⟩ | ⟨w', -, h⟩ <;> cases h
  | @moves m hc hm _ ht e =>
    rw [e] at ha ⊢
    obtain ⟨h1, h2, h3⟩ := code_to_sleep hm w
    rcases goto_cases (s.thread i) m.pc with htop | ⟨-, ⟨q, hq⟩, htop⟩ <;> rw [htop] at ha ⊢
    · rcases ha with ha | ha | ⟨ha, -⟩
      · obtain ⟨hp, heff⟩ := h1 ha
        refine .inr (.inl ⟨ha, hp, ?_⟩)
        rw [ht.data, heff]
        rfl
      · obtain ⟨hp, heff⟩ := h2 ha
        refine .inr (.inr (.inl ⟨hp, ?_⟩))
        rw [ht.slot, heff]
        simp [Eff.apply]
      · exact absurd ha h3
    · have := (P.base i q hq).2
      rcases ha with ha | ha | ⟨ha, -⟩ <;> rw [ha] at this <;> cases this

theorem Awaited.step_chan (i : Fin n) (w : Why M) (ha : s'.asleep i w)
    (hne : (s'.thread i).top ≠ .sleepMark w) : (s'.slot i).chan = some (w.chan i) := by
  rcases P.asleep_turns hs ha with ⟨hc, e, ha⟩ | ⟨htop, -⟩ | ⟨-, hchan⟩ | ⟨htop, hsl⟩
  · rw [e] at hne
    have hchan := R.chan i w ha hne
    have hlive : ¬ ((s.thread i).top = .dead ∨ (s.thread i).top.state = .zombie) := by
      rcases ha with ha | ha | ⟨ha, -⟩ <;> rw [ha] <;> rintro (hg | hg) <;> cases hg
    cases P.turns hs i with
    | stays e | run _ _ e | alloc _ _ _ _ _ _ e | parent _ _ _ e | ready _ _ _ e | wake _ _ e
    | kill _ _ _ _ _ e | reparent _ _ _ _ e =>
      rw [e]
      exact hchan
    | exit hc' _ _ _ | sleep hc' _ _ | tidy hc' _ _ | yield hc' _ _ => exact absurd hc' hc
    | allocFail _ _ hst _ => exact absurd (P.gone (.inl hst)) hlive
    | free _ _ hst _ _ => exact absurd (P.gone (.inr hst)) hlive
  · exact absurd htop hne
  · exact hchan
  · rw [hsl]
    exact R.chan i w (.inr (.inl htop)) (by rw [htop]; exact nofun)

omit [DecidableEq H] hs in
theorem Awaited.sleeping {w : Why M} (ha : s.asleep i w) (hl : s.lock (.proc i) = none) :
    (s.thread i).top = .sleepAwake w ∧ (s.slot i).state = .sleeping ∧
      (s.slot i).chan = some (w.chan i) := by
  have hawake : (s.thread i).top = .sleepAwake w ∧ (s.slot i).state = .sleeping := by
    rcases ha with htop | htop | htop
    · rcases P.not_own hl with h | h | h <;> rw [htop] at h
      · exact absurd List.mem_cons_self h
      · exact h.elim
      · cases h
    · rcases P.not_own hl with h | h | h <;> rw [htop] at h
      · exact absurd List.mem_cons_self h
      · exact h.elim
      · cases h
    · exact htop
  exact ⟨hawake.1, hawake.2, R.chan i w ha (by rw [hawake.1]; exact nofun)⟩

theorem Awaited.pending_stays {w : Why M} (ha : s.asleep i w) (ha' : s'.asleep i w)
    (hw : w.chan i = .obj c) (hp : s.at g = some p) (hpend : p.Pending Δ i) :
    ∃ g p, s'.at g = some p ∧ p.Pending Δ i := by
  by_cases hgh : g = h
  · subst hgh
    rcases hs.hart hp with ⟨h0, -⟩ | ⟨⟨q, hq⟩, -⟩ | ⟨self, m, hm, hself, he, ht, hpc⟩
    · obtain ⟨self, hheld⟩ := held_at hp
      have hcount := P.locks.count g
      rw [h0, hheld] at hcount
      exact absurd (List.length_eq_zero_iff.mp hcount.symm) hpend.held.1
    · rw [(@Pc.Pending.held _ _ none _ _ _ _ hpend).2] at hq
      cases hq
    · rcases hm.pending (R.at hp) hpend with hpend' | hi | ⟨hop, heff⟩
      · rcases hpc with hpc | ⟨r, hr⟩
        · exact ⟨g, m.pc, hpc, hpend'⟩
        · rw [hr] at hpend'
          exact hpend'.elim
      · -- a process that wakes others is not asleep
        rw [at_thread (hself i hi), Option.some.injEq] at hp
        rw [← hp] at hpend
        rcases ha with htop | htop | ⟨htop, -⟩ <;> rw [htop] at hpend <;> exact hpend.elim
      · rw [hop] at he
        obtain ⟨htop, hst, hchan⟩ := R.sleeping P ha he
        rw [if_pos ⟨hst, hchan.trans (congrArg some hw)⟩] at heff
        have hst' : (s'.slot i).state = .runnable := by
          rw [ht.slot, heff]
          simp [Eff.apply]
        rcases P.asleep_turns hs ha' with ⟨-, e, -⟩ | ⟨-, h, -⟩ | ⟨h, -⟩ | ⟨h, -⟩
        · unfold Sys.asleep at ha'
          rw [e, htop, hst'] at ha'
          rcases ha' with h | h | ⟨-, h⟩ <;> cases h
        all_goals
          rw [htop] at h
          cases h
  · exact ⟨g, p, (P.at_other hs hgh).trans hp, hpend⟩

theorem Awaited.step_woken (i : Fin n) (k : M.K) (x : M.X) (ha : s'.asleep i (.obj Δ.lock k x))
    (hc : M.chan k = c) (ht : Δ.cond k (s'.data Δ.lock) = true) :
    ∃ g p, s'.at g = some p ∧ p.Pending Δ i := by
  have hold : s.asleep i (.obj Δ.lock k x) → ∃ g p, s'.at g = some p ∧ p.Pending Δ i := by
    intro ha0
    cases hcond : Δ.cond k (s.data Δ.lock) with
    | true =>
      obtain ⟨g, p, hp, hpend⟩ := R.woken i k x ha0 hc hcond
      exact R.pending_stays P hs ha0 ha (congrArg Chan.obj hc) hp hpend
    | false =>
      rcases hs.data Δ.lock with hd | ⟨y, d, y', hp, hw, hd, hp'⟩
      · rw [hd, hcond] at ht
        cases ht
      · have hkeeps := keeps_of hw rfl (R.at hp rfl)
        rw [hd] at ht
        exact ⟨h, _, hp', rfl, hkeeps.2.2 k hc hcond ht⟩
  rcases P.asleep_turns hs ha with ⟨-, -, ha0⟩ | ⟨-, htop, hd⟩ | ⟨htop, -⟩ | ⟨htop, -⟩
  · exact hold ha0
  · -- it has seen the condition false with the lock held
    have hk := R.top i
    rw [htop] at hk
    rw [hd, (hk.1 hc).2] at ht
    cases ht
  · exact hold (.inl htop)
  · exact hold (.inr (.inl htop))

theorem Awaited.step : Awaited Δ s' :=
  ⟨R.step_known P hs, R.step_handler P hs, R.step_chan P hs, R.step_woken P hs⟩

end Step

theorem Awaited.of_boot (hb : Boot s) : Awaited Δ s := by
  have hthread := hb.thread_of (T := fun t => t.pc.Away ∧ t.intr = none) ⟨trivial, rfl⟩ ⟨trivial, rfl⟩
  have htop : ∀ i w, ¬ s.asleep i w := by
    intro i w ha
    have haway : (s.thread i).top.Away := by
      rw [Thread.top, (hthread i).2]
      exact (hthread i).1
    rcases ha with h | h | ⟨h, -⟩ <;> rw [h] at haway <;> exact haway
  refine ⟨fun i => ⟨Pc.knows_of_away (hthread i).1, fun p hp => ?_⟩, fun g k p hg => ?_,
    fun i w ha => absurd ha (htop i w), fun i k x ha => absurd ha (htop i _)⟩
  · rw [(hthread i).2] at hp
    cases hp
  · rw [hb.ctl] at hg
    cases hg

theorem Awaited.of_reach [DecidableEq H] {ok : Sys n H M → H × Input M → Prop}
    (hr : Reach Boot Sched.step ok s) : Awaited Δ s :=
  hr.invariant_of (fun _ => .of_boot) fun _ _ _ hr R _ hs => R.step (.of_reach hr) (.of_step hs)

theorem Placed.asleep_of_sleeping (P : Placed s) (hst : (s.slot i).state = .sleeping) :
    ∃ w, s.asleep i w ∧ (s.thread i).top ≠ .sleepMark w := by
  by_cases hc : ∃ g, s.ctl g = .thread i
  · obtain ⟨g, hc⟩ := hc
    rw [P.on g i hc] at hst
    obtain ⟨w, hw⟩ : ∃ w, (s.thread i).top = .sleepSched w := by
      cases htop : (s.thread i).top <;> rw [htop] at hst <;> cases hst
      exact ⟨_, rfl⟩
    exact ⟨w, .inr (.inl hw), by rw [hw]; exact nofun⟩
  · have hoff := P.off i fun g hg => hc ⟨g, hg⟩
    rw [hst] at hoff
    obtain ⟨w, hw⟩ := hoff
    exact ⟨w, .inr (.inr ⟨hw, hst⟩), by rw [hw]; exact nofun⟩

/-- **No wakeup is lost.** In every state of every run, if a process is `SLEEPING` on a channel
    with a discipline, it waits for one of the conditions of that channel, and if this condition
    is true some hart is between making it true and the end of its `wakeup` of the channel, and
    has not come to the process yet. -/
theorem no_lost_wakeup [DecidableEq H] (Δ : Discipline M c)
    (hr : Reach Boot Sched.step (fun _ _ => True) s) (hst : (s.slot i).state = .sleeping)
    (hchan : (s.slot i).chan = some (.obj c)) : ∃ k x, s.asleep i (.obj Δ.lock k x) ∧ M.chan k = c ∧
      (Δ.cond k (s.data Δ.lock) = true → ∃ g p, s.at g = some p ∧ p.Pending Δ i) := by
  have P := Placed.of_reach hr
  have R : Awaited Δ s := Awaited.of_reach hr
  obtain ⟨w, ha, hne⟩ := P.asleep_of_sleeping hst
  have hw := R.chan i w ha hne
  rw [hchan] at hw
  cases w with
  | wait addr => cases hw
  | obj l k x =>
    have hk : M.chan k = c := by
      cases hw
      rfl
    have hl : l = Δ.lock := by
      have htop := R.top i
      rcases ha with h | h | ⟨h, -⟩ <;> rw [h] at htop <;> exact htop.1 hk
    subst hl
    exact ⟨k, x, ha, hk, R.woken i k x ha hk⟩

end Known

/-! ## Disciplines -/

/-- Places of `acquire(lk); while(!cond) sleep(chan, lk); ...; release(lk)` and of
    `acquire(lk); ...; wakeup(chan); release(lk)`. -/
inductive LoopX (D : Type) where
  | sleeper (act : D → D)
  | waker (act : D → D)
  | wake
  | ret

/-- Any number of locks with a condition each, the lock being the channel. -/
def loops (I D : Type) [DecidableEq I] (cond : I → D → Bool) : Monitor where
  L := I
  C := I
  K := I
  D := D
  X := LoopX D
  chan := id
  entry
    | _, .sleeper _ | _, .waker _ => true
    | _, _ => false
  handler
    | _, .waker _ => true
    | _, _ => false
  code
    | l, .sleeper act, d => if cond l d then .write (act d) .ret else .wait l (.sleeper act)
    | _, .waker act, d => .write (act d) .wake
    | l, .wake, _ => .wake l .ret
    | _, .ret, _ => .done 0

def loopsDiscipline (I D : Type) [DecidableEq I] (cond : I → D → Bool) (c : I) :
    Discipline (loops I D cond) c where
  lock := c
  cond := cond
  owes
    | .wake => true
    | _ => false
  knows _ _ := True
  entry _ _ := trivial
  keeps {x d} _ := by
    cases x with
    | sleeper act =>
      simp only [loops]
      cases hcond : cond c d with
      | true =>
        refine ⟨trivial, nofun, fun k hk hfalse => ?_⟩
        obtain rfl : k = c := hk
        exact absurd (hcond.symm.trans hfalse) nofun
      | false => exact ⟨fun _ => trivial, rfl, fun hk => hk ▸ hcond⟩
    | waker act => exact ⟨trivial, nofun, fun _ _ _ _ => rfl⟩
    | wake => exact ⟨trivial, fun _ => .inl rfl⟩
    | ret => rfl
  waits {l x x' d k} h hk := by
    cases x with
    | sleeper act =>
      simp only [loops] at h
      split at h
      · cases h
      · cases h
        exact hk
    | _ => cases h

def ObjCond.lock : ObjCond → ObjLock
  | .piperead i | .pipewrite i => .pipe i
  | .sysSleep _ _ => .ticks
  | .consoleread => .cons
  | .sleeplock i => .sleeplock i

theorem obj_waits {l : ObjLock} {x x' : Local} {d : Obj} {k : ObjCond}
    (h : objCode l x d = .wait k x') : k.lock = l := by
  cases l <;> cases d <;> simp only [objCode, reduceCtorEq] at h
  case pipe.pipe id pi =>
    cases x
    case pipewrite src i =>
      cases src <;> simp only [pipeCode] at h
      · cases h
      · split at h <;> cases h
    case pipewriteAlive src i =>
      cases src <;> simp only [pipeCode] at h
      · cases h
      · (repeat' split at h) <;> cases h
    case piperead n room =>
      simp only [pipeCode, pipereadCopy] at h
      (repeat' split at h) <;> cases h
    case pipereadCopy n room i ch =>
      simp only [pipeCode, pipereadCopy] at h
      (repeat' split at h) <;> cases h
    case pipeclose w | pipecloseEnd w => cases w <;> cases h
    all_goals cases h <;> rfl
  case ticks.ticks t =>
    cases x
    case sysSleep n | sysSleepLoop t0 n =>
      simp only [ticksCode, sysSleepLoop] at h
      split at h <;> cases h
    all_goals cases h <;> rfl
  case cons.cons c =>
    cases x
    case consoleread target n room | consoleintr ch =>
      simp only [consCode] at h
      (repeat' split at h) <;> cases h
    all_goals cases h <;> rfl
  case sleeplock.sleeplock id lk =>
    cases x
    case acquiresleep pid =>
      simp only [sleeplockCode] at h
      split at h <;> cases h
      rfl
    all_goals cases h

def Obj.free : Obj → Bool
  | .sleeplock lk => !lk.locked
  | _ => false

def sleeplockDiscipline (id : Nat) : @Discipline objects (.sleeplock id) where
  lock := .sleeplock id
  cond _ := Obj.free
  owes
    | .releasesleepEnd => true
    | _ => false
  knows
    | .releasesleepEnd, d => ∃ lk, d = .sleeplock lk
    | _, _ => True
  entry {x} hx d := by
    cases x <;> first | trivial | (rcases hx with hx | hx <;> cases hx)
  keeps {x d} hx := by
    show (objCode (.sleeplock id) x d).Keeps _ _ _ _ _ _ _
    cases d with
    | sleeplock lk =>
      cases x
      case acquiresleep pid =>
        simp only [objCode, sleeplockCode]
        cases hlk : lk.locked with
        | true => exact ⟨fun _ => trivial, rfl, fun _ => by simp [Obj.free, hlk]⟩
        | false => exact ⟨trivial, nofun, by simp [Obj.free]⟩
      case releasesleep => exact ⟨⟨_, rfl⟩, nofun, fun _ _ _ _ => rfl⟩
      case releasesleepEnd => exact ⟨trivial, fun _ => .inl rfl⟩
      all_goals rfl
    | _ =>
      cases x
      case releasesleepEnd =>
        obtain ⟨lk, hlk⟩ := hx
        cases hlk
      all_goals rfl
  waits {l x x' d k} h hk := by
    have hl := obj_waits h
    cases k <;> cases hk
    exact hl.symm

def ticksDiscipline : @Discipline objects .ticks where
  lock := .ticks
  cond
    | .sysSleep ticks0 n, .ticks t => ¬ t - ticks0 < n
    | _, _ => false
  owes
    | .clockintrEnd => true
    | _ => false
  knows
    | .sysSleepSleep ticks0 n, d => ∃ t, d = .ticks t ∧ t - ticks0 < n
    | .clockintrEnd, d => ∃ t, d = .ticks t
    | _, _ => True
  entry {x} hx d := by
    cases x <;> first | trivial | (rcases hx with hx | hx <;> cases hx)
  keeps {x d} hx := by
    show (objCode .ticks x d).Keeps _ _ _ _ _ _ _
    cases d with
    | ticks t =>
      cases x
      case sysSleep n | sysSleepLoop ticks0 n =>
        simp only [objCode, ticksCode, sysSleepLoop]
        split
        · exact ⟨trivial, ⟨t, rfl, ‹_›⟩, nofun⟩
        · rfl
      case sysSleepSleep ticks0 n =>
        obtain ⟨t', ht, hlt⟩ := hx
        cases ht
        exact ⟨fun _ => trivial, rfl, fun _ => by simp [hlt]⟩
      case clockintr => exact ⟨⟨_, rfl⟩, nofun, fun _ _ _ _ => rfl⟩
      case clockintrEnd => exact ⟨trivial, fun _ => .inl rfl⟩
      all_goals rfl
    | _ =>
      cases x
      case clockintrEnd =>
        obtain ⟨t, ht⟩ := hx
        cases ht
      all_goals rfl
  waits {l x x' d k} h hk := by
    have hl := obj_waits h
    cases k <;> cases hk
    exact hl.symm

/-- The child waits for a sleep lock, and `init`, in `releasesleep`, has made it free. -/
theorem no_lost_wakeup_released : ∃ s : Sys 2 Bool objects,
    Reach Boot Sched.step (fun _ _ => True) s ∧ (s.slot 1).state = .sleeping ∧
      (s.data (.sleeplock 0)).free = true ∧
      ∃ g p, s.at g = some p ∧ p.Pending (sleeplockDiscipline 0) 1 := by
  have hrun : (exec Sched.step (fun _ _ => True) twoHarts
      (onHart true ([.go, .go, .fork] ++ List.replicate 8 .go ++
          [.call (ObjLock.sleeplock 0) (Local.acquiresleep 1), .go, .go, .go, .go]) ++
        onHart false ([.go, .go, .go, .go, .call (ObjLock.sleeplock 0) (Local.acquiresleep 2)] ++
          List.replicate 7 .go) ++
        onHart true [.call (ObjLock.sleeplock 0) Local.releasesleep, .go, .go])).any
      (fun s => (s.slot 1).state = .sleeping ∧
        (s.slot 1).chan = some (.obj (ObjChan.sleeplock 0)) ∧
        (s.data (ObjLock.sleeplock 0)).free = true) = true := by
    decide +kernel
  obtain ⟨s, hr, hq⟩ := Reach.exec_any (Sys.boot_spec _ _) hrun
  obtain ⟨hst, hchan, hfree⟩ := of_decide_eq_true hq
  obtain ⟨k, x, -, -, hwake⟩ := no_lost_wakeup (sleeplockDiscipline 0) hr hst hchan
  exact ⟨s, hr, hst, hfree, hwake hfree⟩

end ZeptOS.Sched
