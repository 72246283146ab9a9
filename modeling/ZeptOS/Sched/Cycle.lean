import ZeptOS.Sched.Pids

/-!
# A system that forks continuously

The run on which pids run out: `init` forks and there is no memory for the child, again and again.
`allocproc` has taken a pid by then and does not give it back, so that such a turn takes one pid and
leaves everything else as it was; after any number of turns the machine stands where it stood, and after
2 147 483 646 of them `nextpid` is negative.

`Scene` is where the machine stands on that run, as far as it matters for the next step.
-/

namespace ZeptOS.Sched

open Lib Function
open Mem (ProcState)

variable {s : Pair} {h : Bool} {l : Lock NPROC noMonitor} {lk : Lock NPROC noMonitor → Option Bool}
  {pid : Int}

abbrev Pair := Sys NPROC Bool noMonitor

abbrev Reached (s : Pair) : Prop := Reach Boot Sched.step (fun _ _ => True) s

/-- `init` is executed by the first hart and stands at `p`, and the process in slot 1 is `u`. -/
structure Scene (p : Pc NPROC noMonitor) (u : Slot NPROC noMonitor)
    (lk : Lock NPROC noMonitor → Option Bool) (pid : Int) (s : Pair) : Prop where
  reached : Reached s
  ctl : s.ctl false = .thread 0
  thread : s.thread 0 = ⟨p, none⟩
  slot0 : s.slot 0 = { Slot.empty with state := .running, pid := 1 }
  slot1 : s.slot 1 = u
  lock : s.lock = lk
  nextpid : s.nextpid = pid

def Op.onLock (h : Bool) (lk : Lock NPROC noMonitor → Option Bool) :
    Op NPROC noMonitor → Lock NPROC noMonitor → Option Bool
  | .tau => lk
  | .acquire l => Function.update lk l (some h)
  | .release l => Function.update lk l none

def Op.ready (h : Bool) (lk : Lock NPROC noMonitor → Option Bool) : Op NPROC noMonitor → Prop
  | .tau => True
  | .acquire l => lk l = none
  | .release l => lk l = some h

section Moves

variable {p p' : Pc NPROC noMonitor} {u u' : Slot NPROC noMonitor} {pid' : Int}
  {inp : Input noMonitor} {op : Op NPROC noMonitor} {eff : Eff NPROC noMonitor}

def Input.calm : Input noMonitor → Bool
  | .timer => false
  | .intr _ _ => false
  | _ => true

theorem step_of_code {i : Fin NPROC} (hc : s.ctl h = .thread i) (ht : s.thread i = ⟨p, none⟩)
    (hinp : inp.calm = true) (hq : p.sched = none) (hm : code s i inp p = .next ⟨op, eff, p'⟩)
    (hl : s.lock = lk) (he : op.ready h lk) :
    Sched.step s (h, inp) = .next { op.after h (eff.apply s) with
      thread := update (eff.apply s).thread i ⟨p', none⟩ } := by
  have hen : op.enabled h s := by
    cases op with
    | tau => trivial
    | acquire l => exact (congrFun hl l).trans he
    | release l => exact (congrFun hl l).trans he
  have htop : (s.thread i).top = p := by rw [ht]; rfl
  have hrun := (@runThread_eq _ _ _ _ s _ h inp i ⟨op, eff, p'⟩ (htop ▸ hq) (htop ▸ hm)).mpr
    ⟨hen, rfl⟩
  rw [ht] at hrun
  have hstep : Sched.step s (h, inp) = runThread h i inp s := by
    cases inp <;> simp_all [Sched.step, Input.calm]
  exact hstep.trans hrun

theorem onLock_eq (hl : s.lock = lk) : (op.after h (eff.apply s)).lock = op.onLock h lk := by
  rw [after_apply_lock]
  cases op <;> simp [Op.after, Op.onLock, hl]

theorem Scene.move (S : Scene p u lk pid s) (hinp : inp.calm = true) (hq : p.sched = none)
    (hm : code s 0 inp p = .next ⟨op, eff, p'⟩) (he : op.ready false lk)
    (hslot : (eff.apply s).slot 0 = s.slot 0) (hslot1 : (eff.apply s).slot 1 = u')
    (hpid : (eff.apply s).nextpid = pid') : ∃ s', Scene p' u' (op.onLock false lk) pid' s' := by
  have hs := step_of_code S.ctl S.thread hinp hq hm S.lock he
  refine ⟨_, S.reached.step trivial hs, ?_, ?_, ?_, ?_, ?_, ?_⟩
  · simp only [after_ctl, apply_ctl, S.ctl]
  · simp only [update_self]
  · simp only [after_slot, hslot, S.slot0]
  · simp only [after_slot, hslot1]
  · exact onLock_eq S.lock
  · exact after_nextpid.trans hpid

theorem Scene.quiet (S : Scene p u lk pid s) (hinp : inp.calm = true) (hq : p.sched = none)
    (hm : code s 0 inp p = .next ⟨op, .none, p'⟩) (he : op.ready false lk) :
    ∃ s', Scene p' u (op.onLock false lk) pid s' :=
  S.move hinp hq hm he rfl S.slot1 S.nextpid

theorem Scene.at_child (S : Scene p u lk pid s) (hinp : inp.calm = true) (hq : p.sched = none)
    (hm : code s 0 inp p = .next ⟨op, eff, p'⟩) (he : op.ready false lk) (ht : eff.target = some 1)
    (hslot1 : (eff.apply s).slot 1 = u') (hpid : (eff.apply s).nextpid = pid') :
    ∃ s', Scene p' u' (op.onLock false lk) pid' s' :=
  S.move hinp hq hm he (apply_slot_of_ne (by rw [ht]; decide)) hslot1 hpid

end Moves

/-! ## A turn -/

def free : Lock NPROC noMonitor → Option Bool := fun _ => none

theorem relock (hl : lk l = none) : (Op.release l).onLock h ((Op.acquire l).onLock h lk) = lk := by
  simp [Op.onLock, ← hl]

theorem held : (Op.release l).ready h ((Op.acquire l).onLock h lk) := by
  simp [Op.onLock, Op.ready]

section Turn

variable {r : Int}

def child (pid : Int) : Slot NPROC noMonitor :=
  { Slot.empty with state := .runnable, pid := pid, parent := some 0 }

theorem Scene.alloc_first (S : Scene (.user r) .empty free pid s) :
    ∃ s', Scene (.alloc 1) .empty free pid s' := by
  obtain ⟨s, S⟩ := @Scene.quiet _ _ _ _ (.alloc 0) _ .fork .tau S rfl rfl rfl trivial
  obtain ⟨s, S⟩ := @Scene.quiet _ _ _ _ (.allocNext 0) _ .go (.acquire (.proc 0)) S rfl rfl
    (by simp [code, Sched.move, S.slot0]) rfl
  obtain ⟨s, S⟩ := @Scene.quiet _ _ _ _ (.alloc 1) _ .go (.release (.proc 0)) S rfl rfl rfl held
  rw [relock rfl] at S
  exact ⟨s, S⟩

/-- **One turn takes one pid**: there is no memory for the child. -/
theorem Scene.turn (S : Scene (.user r) .empty free pid s) :
    ∃ s', Scene (.user (-1)) .empty free (incPid pid) s' := by
  obtain ⟨s, S⟩ := S.alloc_first
  obtain ⟨s, S⟩ := @Scene.at_child _ _ _ _ (.forkFail 1) _ .empty (incPid pid) .fault
    (.acquire (.proc 1)) (.allocFail 1) S rfl rfl
    (by simp [code, Sched.move, S.slot1, Slot.empty]) rfl rfl (by simp [Eff.apply])
    (by simp [Eff.apply, S.nextpid])
  obtain ⟨s, S⟩ := @Scene.quiet _ _ _ _ (.user (-1)) _ .go (.release (.proc 1)) S rfl rfl rfl held
  rw [relock rfl] at S
  exact ⟨s, S⟩

theorem Scene.fork (S : Scene (.user r) .empty free pid s) :
    ∃ s', Scene (.user pid) (child pid) free (incPid pid) s' := by
  obtain ⟨s, S⟩ := S.alloc_first
  obtain ⟨s, S⟩ := @Scene.at_child _ _ _ _ (.forkDone 1 pid) _
    { Slot.empty with state := .used, pid := pid } (incPid pid) .go (.acquire (.proc 1))
    (.alloc 1) S rfl rfl (by simp [code, Sched.move, S.slot1, S.nextpid, Slot.empty]) rfl rfl
    (by simp [Eff.apply, S.slot1, S.nextpid]) (by simp [Eff.apply, S.nextpid])
  obtain ⟨s, S⟩ := @Scene.quiet _ _ _ _ (.forkParent 1 pid) _ .go (.release (.proc 1)) S rfl rfl
    rfl held
  rw [relock rfl] at S
  obtain ⟨s, S⟩ := @Scene.at_child _ _ _ _ (.forkParentDone 1 pid) _
    { Slot.empty with state := .used, pid := pid, parent := some 0 } (incPid pid) .go (.acquire .wait)
    (.setParent 1 0) S rfl rfl rfl rfl rfl (by simp [Eff.apply, S.slot1]) S.nextpid
  obtain ⟨s, S⟩ := @Scene.quiet _ _ _ _ (.forkRun 1 pid) _ .go (.release .wait) S rfl rfl rfl held
  rw [relock rfl] at S
  obtain ⟨s, S⟩ := @Scene.at_child _ _ _ _ (.forkRunDone 1 pid) _ (child pid) (incPid pid) .go
    (.acquire (.proc 1)) (.ready 1) S rfl rfl rfl rfl rfl (by simp [Eff.apply, S.slot1, child]) S.nextpid
  obtain ⟨s, S⟩ := @Scene.quiet _ _ _ _ (.user pid) _ .go (.release (.proc 1)) S rfl rfl rfl held
  rw [relock rfl] at S
  exact ⟨s, S⟩

end Turn

/-! ## Any number of turns -/

def bootedPair : Pair := Sys.boot (fun _ => ()) 0

theorem scene_boot : ∃ s, Scene (.user 0) .empty free 2 s := by
  have hr₀ : Reached bootedPair := .start (Sys.boot_spec _ _)
  have hpick : Sched.step bootedPair (false, .go) = .next { (Op.acquire (.proc 0)).after false
        (bootedPair.modify 0 fun p => { p with state := .running }) with
      proc := update bootedPair.proc false (some 0)
      ctl := update bootedPair.ctl false (.thread 0) } := by
    simp [Sched.step, bootedPair, Sys.boot, scan, Op.run, Op.after, Sys.modify]
  have hr₁ := hr₀.step trivial hpick
  generalize hs₁ : ({ (Op.acquire (.proc 0)).after false
        (bootedPair.modify 0 fun p => { p with state := .running }) with
      proc := update bootedPair.proc false (some 0)
      ctl := update bootedPair.ctl false (.thread 0) } : Pair) = s₁ at hr₁
  have hrel := @step_of_code s₁ false _ .forkret (.user 0) .go (.release (.proc 0)) .none 0
    (by simp [← hs₁]) (by simp [← hs₁, bootedPair, Sys.boot, Sys.modify]) rfl rfl rfl rfl
    (by simp [← hs₁, Op.ready, Op.after])
  refine ⟨_, hr₁.step trivial hrel, ?_, ?_, ?_, ?_, ?_, ?_⟩
  all_goals rw [← hs₁]
  all_goals simp [Op.after, Eff.apply, Sys.modify, bootedPair, Sys.boot]
  rfl

/-- **Whatever `nextpid` can be, it is.** -/
theorem scene_turns (k : Nat) : ∃ s r, Scene (.user r) .empty free ((2 + k : Int).bmod (2 ^ 32)) s := by
  induction k with
  | zero =>
    obtain ⟨s, S⟩ := scene_boot
    exact ⟨s, 0, S⟩
  | succ k ih =>
    obtain ⟨s, r, S⟩ := ih
    obtain ⟨s', S'⟩ := S.turn
    rw [incPid_bmod] at S'
    refine ⟨s', -1, ?_⟩
    rw [show (2 + (k + 1 : Nat) : Int) = 2 + k + 1 by push_cast; ring]
    exact S'

/-- **The pid after 2 147 483 647 is negative, and later there is a second process with the
    pid of `init`.** -/
theorem pids_run_out :
    (∃ s : Pair, Reach Boot Sched.step (fun _ _ => True) s ∧ (s.slot 1).state = .runnable ∧
      (s.slot 1).pid = -2147483648 ∧ (s.thread 0).pc = .user (-2147483648)) ∧
    ∃ s : Pair, Reach Boot Sched.step (fun _ _ => True) s ∧ (s.slot 0).state = .running ∧
      (s.slot 1).state = .runnable ∧ (s.slot 0).pid = (s.slot 1).pid := by
  constructor
  · obtain ⟨s, r, S⟩ := scene_turns 2147483646
    obtain ⟨s, S⟩ := S.fork
    have hpid : (2 + (2147483646 : Nat) : Int).bmod (2 ^ 32) = -2147483648 := by decide
    rw [hpid] at S
    exact ⟨s, S.reached, by rw [S.slot1]; rfl, by rw [S.slot1]; rfl, by rw [S.thread]⟩
  · obtain ⟨s, r, S⟩ := scene_turns 4294967295
    obtain ⟨s, S⟩ := S.fork
    have hpid : (2 + (4294967295 : Nat) : Int).bmod (2 ^ 32) = 1 := by decide
    rw [hpid] at S
    refine ⟨s, S.reached, by rw [S.slot0], by rw [S.slot1]; rfl, ?_⟩
    rw [S.slot0, S.slot1]
    rfl

end ZeptOS.Sched
