import ZeptOS.Sched.Step

/-!
# Moves of monitors and of `sleep`

The part of `code` and `job` that is about waiting, move by move. `Acts` is what the code of a
monitor and `wakeup` do, on a process or in a handler; `Sleeps` adds what only a process does,
`killed` and `sleep`. Where neither says anything a process is `Away` from all of it.
-/

namespace ZeptOS.Sched

open Lib
open Mem (ProcState)

variable {n : Nat} {H : Type} {M : Monitor} {s : Sys n H M} {self : Option (Fin n)} {i : Fin n}
  {inp : Input M} {p : Pc n M} {m : Move n M}

/-- A process is in no monitor, and neither asks nor sleeps. -/
def Pc.Away : Pc n M → Prop
  | .enter _ _ | .inside _ _ | .leave _ _ => False
  | .wakeup _ _ _ | .wakeupNext _ _ _ => False
  | .killed _ | .killedDone _ _ => False
  | .sleep _ | .sleepRelease _ | .sleepMark _ => False
  | .sleepSched _ | .sleepAwake _ | .sleepReacquire _ => False
  | _ => True

/-- The moves of `code`, as far as they are about waiting. -/
inductive Sleeps (s : Sys n H M) (i : Fin n) : Pc n M → Move n M → Prop
  | acts {p : Pc n M} {m : Move n M} (ha : Acts s (some i) p m) : Sleeps s i p m
  | call {r : Int} {l : M.L} {x : M.X} (hx : M.entry l x = true) :
      Sleeps s i (.user r) ⟨.tau, .none, .enter l x⟩
  | wakes {p : Pc n M} {m : Move n M} {c : Option (Fin n)} {k : Waker M} (hp : p.Away)
      (hpc : m.pc = .wakeup (c.map .proc) 0 k) (hk : ∀ l x, k ≠ .obj l x)
      (he : ∀ l d, m.eff ≠ .write l d) : Sleeps s i p m
  | ask {addr j : Nat} {kids : Bool} :
      Sleeps s i (.waitScan addr j kids) ⟨.tau, .none, .killed (.wait addr)⟩
  | killed {q : Asker M} :
      Sleeps s i (.killed q) ⟨.acquire (.proc i), .none, .killedDone q (s.slot i).killed⟩
  | answer {q : Asker M} {k : Bool} :
      Sleeps s i (.killedDone q k) ⟨.release (.proc i), .none, q.resume k⟩
  | sleep {w : Why M} : Sleeps s i (.sleep w) ⟨.acquire (.proc i), .none, .sleepRelease w⟩
  | release {w : Why M} : Sleeps s i (.sleepRelease w) ⟨.release w.lock, .none, .sleepMark w⟩
  | mark {w : Why M} : Sleeps s i (.sleepMark w) ⟨.tau, .sleep i (w.chan i), .sleepSched w⟩
  | awake {w : Why M} :
      Sleeps s i (.sleepAwake w) ⟨.release (.proc i), .tidy i, .sleepReacquire w⟩
  | reacquire {w : Why M} : Sleeps s i (.sleepReacquire w) ⟨.acquire w.lock, .none, w.resume⟩
  | away {p : Pc n M} {m : Move n M} (hp : p.Away) (hpc : m.pc.Away)
      (he : ∀ l d, m.eff ≠ .write l d) : Sleeps s i p m

theorem code_sleeps (hm : code s i inp p = .next m) : Sleeps s i p m := by
  revert hm
  fun_cases code s i inp p <;> intro hm <;> first
    | exact .acts (job_acts hm)
    | cases hm
  all_goals first
    | exact .away trivial trivial (by simp)
    | exact .call ‹_›
    | exact .wakes (c := some s.initproc) trivial rfl (by simp) (by simp)
    | exact .wakes trivial rfl (by simp) (by simp)
    | (split <;> first | exact .ask | exact .away trivial trivial (by simp))
    | exact .killed
    | exact .answer
    | exact .sleep
    | exact .release
    | exact .mark
    | exact .awake
    | exact .reacquire

theorem code_to_sleep (hm : code s i inp p = .next m) (w : Why M) :
    (m.pc = .sleepMark w → p = .sleepRelease w ∧ m.eff = .none) ∧
    (m.pc = .sleepSched w → p = .sleepMark w ∧ m.eff = .sleep i (w.chan i)) ∧
    m.pc ≠ .sleepAwake w := by
  cases code_sleeps hm with
  | away _ h _ =>
    refine ⟨fun hpc => ?_, fun hpc => ?_, fun hpc => ?_⟩ <;> rw [hpc] at h <;> exact h.elim
  | wakes _ h _ _ =>
    rw [h]
    exact ⟨nofun, nofun, nofun⟩
  | acts ha =>
    cases ha with
    | @past c j k _ => cases k <;> exact ⟨nofun, nofun, nofun⟩
    | _ => exact ⟨nofun, nofun, nofun⟩
  | @answer q k => cases q <;> cases k <;> exact ⟨nofun, nofun, nofun⟩
  | @reacquire w => cases w <;> exact ⟨nofun, nofun, nofun⟩
  | release =>
    refine ⟨?_, nofun, nofun⟩
    rintro ⟨⟩
    exact ⟨rfl, rfl⟩
  | mark =>
    refine ⟨nofun, ?_, nofun⟩
    rintro ⟨⟩
    exact ⟨rfl, rfl⟩
  | _ => exact ⟨nofun, nofun, nofun⟩

end ZeptOS.Sched
