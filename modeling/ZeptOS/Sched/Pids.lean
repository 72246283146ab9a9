import ZeptOS.Sched.Turns

/-!
# Process identifiers and the mark of death

Two invariants of the process table, and why neither holds.

`freeproc` clears a slot, and `allocproc` relies on that: it sets `pid` and `state` and nothing
else. A free slot has the pid 0, and `kill` compares pids without looking at states, so
`kill(0)` finds one, marks it and reports success. Whoever gets the slot next is born killed.

`nextpid` is an `int` that only grows. It is positive, and above every pid in use, until
2 147 483 647 has been given away.
-/

namespace ZeptOS.Sched

open Lib
open Mem (ProcState)

variable {n : Nat} {H : Type} {M : Monitor} {s s' : Sys n H M} {h : H} {inp : Input M}
variable {x : Int × Nat}

/-! ## Nobody is born killed -/

def Pc.victim : Pc n M → Option Int
  | .kill pid _ => some pid
  | .killNext pid _ => some pid
  | _ => none

def Pc.found : Pc n M → Option (Fin n)
  | .killFound j => some j
  | _ => none

def Input.victim : Input M → Option Int
  | .kill pid => some pid
  | _ => none

variable {p : Pc n M}

theorem Pc.victim_plain (h : p.Plain) : p.victim = none := by
  cases p <;> first | exact h.elim | rfl

theorem Pc.victim_leaving (h : p.leaving = some x) : p.victim = none := by
  cases p <;> first | rfl | cases h

/-- Free slots are clean, and no `kill` looks for the pid they have. -/
structure Clean (s : Sys n H M) : Prop where
  pid : ∀ j, (s.slot j).state = .unused → (s.slot j).pid = 0
  killed : ∀ j, (s.slot j).state = .unused → (s.slot j).killed = false
  kill : ∀ i, (s.thread i).pc.victim ≠ some 0

theorem Clean.step [DecidableEq H] (C : Clean s) (P : Placed s) (hs : Step s h inp s')
    (hok : inp.victim ≠ some 0) : Clean s' := by
  have hslot : ∀ j, (s'.slot j).state = .unused →
      (s'.slot j).pid = 0 ∧ (s'.slot j).killed = false := by
    intro j hu
    cases P.turns hs j with
    | stays e | parent _ _ _ e | reparent _ _ _ _ e | tidy _ _ e =>
      rw [e] at hu ⊢
      exact ⟨C.pid j hu, C.killed j hu⟩
    | allocFail _ _ _ e | free _ _ _ _ e =>
      rw [e]
      exact ⟨rfl, rfl⟩
    | @kill i pid _ hp _ hpid _ e =>
      -- the mark is put on a slot `kill` has found by a pid that is not 0
      rw [e] at hu
      simp only at hu
      split at hu
      · cases hu
      · refine absurd ?_ (C.kill i)
        rw [hp, ← hpid, C.pid j hu]
        rfl
    | run _ _ e | alloc _ _ _ _ _ _ e | ready _ _ _ e | wake _ _ e | exit _ _ _ e | sleep _ _ e
    | yield _ _ e =>
      rw [e] at hu
      cases hu
  refine ⟨fun j hu => (hslot j hu).1, fun j hu => (hslot j hu).2, fun i => ?_⟩
  intro hv
  rcases P.arrives (fun _ => Pc.victim_plain) hs hv with e | ⟨m, -, -, hpl, hm, -, e⟩ <;>
    rw [e] at hv
  · exact C.kill i hv
  · cases hm with
    | plain hpc => exact hpl hpc
    | kill _ hinp =>
      rw [hinp] at hok
      exact hok hv
    | killNext hp | killOn hp => exact C.kill i (by rw [hp]; exact hv)
    | wakes _ hpc =>
      rw [Pc.victim_leaving hpc] at hv
      cases hv
    | _ => cases hv

theorem Clean.of_boot (hb : Boot s) : Clean s := by
  have hslot : ∀ j, (s.slot j).state = .unused → s.slot j = .empty := by
    intro j hu
    by_cases hj : j = s.initproc
    · rw [hj, hb.init] at hu
      cases hu
    · exact hb.slot j hj
  refine ⟨fun j hu => by rw [hslot j hu]; rfl, fun j hu => by rw [hslot j hu]; rfl, fun i => ?_⟩
  exact hb.thread_of (T := fun t => t.pc.victim ≠ some 0) nofun nofun i

theorem Clean.of_reach [DecidableEq H]
    (hr : Reach Boot Sched.step (fun _ a => a.2.victim ≠ some 0) s) : Clean s :=
  hr.invariant_of (fun _ => .of_boot) fun _ _ _ hr C hok hs =>
    C.step (.of_reach hr) (.of_step hs) hok

theorem Placed.killed_of_alloc [DecidableEq H] (P : Placed s) (hs : Step s h inp s') {j : Fin n}
    (hu : (s.slot j).state = .unused) (hu' : (s'.slot j).state = .used) :
    (s'.slot j).killed = (s.slot j).killed := by
  cases P.turns hs j with
  | stays e | run _ _ e | alloc _ _ _ _ _ _ e | parent _ _ _ e | ready _ _ _ e | wake _ _ e
  | reparent _ _ _ _ e | exit _ _ _ e | sleep _ _ e | tidy _ _ e | yield _ _ e => rw [e]
  | allocFail _ _ _ e | free _ _ _ _ e =>
    rw [e] at hu'
    cases hu'
  | kill _ _ _ _ _ e =>
    rw [e] at hu'
    simp only [hu, reduceCtorEq, if_false] at hu'

/-- **Without a `kill(0)` nobody is born killed.** In every state of every such run free slots
    are unmarked, the step that takes a slot makes an unmarked process of it, and the step in
    which `kill` finds its process, after which it returns 0, has found one. -/
theorem nobody_born_killed [DecidableEq H]
    (hr : Reach Boot Sched.step (fun _ a => a.2.victim ≠ some 0) s) :
    (∀ j, (s.slot j).state = .unused → (s.slot j).killed = false) ∧
    (∀ a s' j, Sched.step s a = .next s' → (s.slot j).state = .unused →
      (s'.slot j).state = .used → (s'.slot j).killed = false) ∧
    (∀ a s' i (j : Fin n) pid, Sched.step s a = .next s' → (s.thread i).pc = .kill pid j →
      (s'.thread i).pc = .killFound j → (s.slot j).state ≠ .unused ∧ (s.slot j).pid = pid) := by
  have C := Clean.of_reach hr
  have P := Placed.of_reach hr
  refine ⟨C.killed, fun a s' j hs hu hu' => ?_, fun a s' i j pid hs hp hp' => ?_⟩
  · rw [P.killed_of_alloc (.of_step hs) hu hu', C.killed j hu]
  · have hfound : (s.slot j).pid = pid := by
      have hfound : (s'.thread i).pc.found = some j := by rw [hp']; rfl
      rcases P.goes_some ⟨rfl, rfl, rfl, fun _ => rfl⟩ (.of_step hs) hfound with
        e | ⟨m, -, -, hm, -, e⟩ <;> rw [hp'] at e
      · rw [hp] at e
        cases e
      · rw [hp] at hm
        simp only [code, Sched.move, j.isLt, dif_pos] at hm
        split at hm
        · assumption
        · cases hm
          cases e
    refine ⟨fun hu => C.kill i ?_, hfound⟩
    rw [hp, ← hfound, C.pid j hu]
    rfl

def noMonitor : Monitor where
  L := Empty
  C := Empty
  K := Empty
  D := Unit
  X := Unit
  chan := nofun
  entry := nofun
  handler := nofun
  code := nofun

def Pc.returned : Pc n M → Option Int
  | .user r => some r
  | _ => none

def booted : Sys NPROC Unit noMonitor := Sys.boot (fun _ => ()) 0

theorem booted_boot : Boot booted := Sys.boot_spec _ _

/-- The hart runs `init`, which does `calls` and is not interrupted. -/
def alone (calls : List (Input noMonitor)) : List (Unit × Input noMonitor) :=
  (.go :: .go :: calls).map fun a => ((), a)

/-- `init` makes a child and kills it: the child is marked, and the slots of later ones are not. -/
theorem nobody_born_killed_kill : ∃ s : Sys NPROC Unit noMonitor,
    Reach Boot Sched.step (fun _ a => a.2.victim ≠ some 0) s ∧ (s.slot 1).killed = true ∧
      (s.slot 2).state = .unused ∧ (s.slot 2).killed = false := by
  have hrun : (exec Sched.step (fun _ a => a.2.victim ≠ some 0) booted
      (alone ([.fork] ++ List.replicate 8 .go ++ [.kill 2, .go, .go, .go]))).any
      (fun s => (s.slot 1).killed = true ∧ (s.slot 2).state = .unused) = true := by
    decide +kernel
  obtain ⟨s, hr, hq⟩ := Reach.exec_any booted_boot hrun
  have hq := of_decide_eq_true hq
  exact ⟨s, hr, hq.1, hq.2, (nobody_born_killed hr).1 2 hq.2⟩

/-- **`kill(0)` marks a free slot and returns 0**, and the next `fork` takes it. -/
theorem kill_zero_marks_unused : (∃ s : Sys NPROC Unit noMonitor,
      Reach Boot Sched.step (fun _ _ => True) s ∧ (s.slot 1).state = .unused ∧
      (s.slot 1).killed = true ∧ (s.thread 0).pc.returned = some 0) ∧
    ∃ s : Sys NPROC Unit noMonitor, Reach Boot Sched.step (fun _ _ => True) s ∧
      (s.slot 1).state = .used ∧ (s.slot 1).killed = true := by
  have hkill : (exec Sched.step (fun _ _ => True) booted
      (alone [.kill 0, .go, .go, .go, .go])).any
      (fun s => (s.slot 1).state = .unused ∧ (s.slot 1).killed = true ∧
        (s.thread 0).pc.returned = some 0) = true := by
    decide +kernel
  have hfork : (exec Sched.step (fun _ _ => True) booted
      (alone [.kill 0, .go, .go, .go, .go, .fork, .go, .go, .go])).any
      (fun s => (s.slot 1).state = .used ∧ (s.slot 1).killed = true) = true := by
    decide +kernel
  obtain ⟨s, hr, hq⟩ := Reach.exec_any booted_boot hkill
  obtain ⟨s', hr', hq'⟩ := Reach.exec_any booted_boot hfork
  exact ⟨⟨s, hr, of_decide_eq_true hq⟩, s', hr', of_decide_eq_true hq'⟩

/-! ## Pids are positive and distinct, for a while -/

/-- How many pids are taken on a run of these steps. `allocproc` takes one when it has found a free
    slot, also if it fails afterwards, and nobody else writes `nextpid`. -/
def pidsTaken [DecidableEq H] (s : Sys n H M) : List (H × Input M) → Nat
  | [] => 0
  | a :: as =>
    match Sched.step s a with
    | .next s' => (if s'.nextpid = s.nextpid then 0 else 1) + pidsTaken s' as
    | _ => 0

def Pc.newPid : Pc n M → Option Int
  | .forkDone _ pid | .forkParent _ pid | .forkParentDone _ pid => some pid
  | .forkRun _ pid | .forkRunDone _ pid => some pid
  | _ => none

theorem Pc.newPid_plain (h : p.Plain) : p.newPid = none := by
  cases p <;> first | exact h.elim | rfl

theorem Pc.newPid_leaving (h : p.leaving = some x) : p.newPid = none := by
  cases p <;> first | rfl | cases h

theorem incPid_bmod (k : Int) : incPid (k.bmod (2 ^ 32)) = (k + 1).bmod (2 ^ 32) := by
  unfold incPid
  exact Int.bmod_add_bmod

theorem incPid_ne (p : Int) : incPid p ≠ p := by
  unfold incPid Int.bmod
  simp only
  split <;> omega

/-- After `k` pids have been taken, the last of which is at most 2 147 483 647: those in use are below
    2 + `k`, which is what `nextpid` would be as a number. -/
structure Distinct (s : Sys n H M) (k : Nat) : Prop where
  next : s.nextpid = (2 + k : Int).bmod (2 ^ 32)
  pid : ∀ j, (s.slot j).state ≠ .unused → 0 < (s.slot j).pid ∧ (s.slot j).pid < 2 + k
  inj : ∀ j k, (s.slot j).state ≠ .unused → (s.slot k).state ≠ .unused →
    (s.slot j).pid = (s.slot k).pid → j = k
  fork : ∀ i pid, (s.thread i).pc.newPid = some pid → 0 < pid

section Count

variable {k k' : Nat}

theorem Distinct.taken (D : Distinct s k) (hn : s'.nextpid = incPid s.nextpid)
    (hk : k' = (if s'.nextpid = s.nextpid then 0 else 1) + k) (hle : k' ≤ 2147483646) :
    k' = k + 1 ∧ s.nextpid = 2 + k := by
  rw [if_neg (by rw [hn]; exact incPid_ne _)] at hk
  have hnext := D.next
  unfold Int.bmod at hnext
  simp only at hnext
  split at hnext <;> omega

variable [DecidableEq H]

theorem Distinct.step (D : Distinct s k) (P : Placed s) (hs : Step s h inp s')
    (hk : k' = (if s'.nextpid = s.nextpid then 0 else 1) + k) (hle : k' ≤ 2147483646) :
    Distinct s' k' := by
  have htaken := fun hn => D.taken hn hk hle
  refine ⟨?_, fun j hl => ?_, fun i j hi hj hij => ?_, fun i pid hpid => ?_⟩
  · rcases hs.nextpid with hn | ⟨hn, -⟩
    · rw [hk, if_pos hn, Nat.zero_add, hn, D.next]
    · rw [hn, D.next, incPid_bmod, (htaken hn).1]
      push_cast
      ring_nf
  · rcases P.pid_turns hs hl with ⟨hl, e⟩ | ⟨e, hn, -⟩
    · have := D.pid j hl
      omega
    · have := htaken hn
      omega
  · rcases P.pid_turns hs hi with ⟨hi, ei⟩ | ⟨ei, hn, ⟨t, hc, hp⟩, -⟩ <;>
      rcases P.pid_turns hs hj with ⟨hj, ej⟩ | ⟨ej, hn', ⟨t', hc', hp'⟩, -⟩
    · exact D.inj i j hi hj (by rw [← ei, ← ej, hij])
    · have := D.pid i hi
      have := htaken hn'
      omega
    · have := D.pid j hj
      have := htaken hn
      omega
    · rw [hc] at hc'
      cases hc'
      rw [hp] at hp'
      exact Fin.ext (Pc.alloc.inj hp')
  · rcases P.arrives (fun _ => Pc.newPid_plain) hs hpid with e | ⟨m, -, -, hpl, hm, ht, e⟩ <;>
      rw [e] at hpid
    · exact D.fork i pid hpid
    · cases hm with
      | plain hpc => exact absurd hpc hpl
      | forkDone hp _ =>
        cases hpid
        have := htaken ht.nextpid
        omega
      | forkParent hp | forkParentDone hp | forkRun hp | forkRunDone hp =>
        exact D.fork i pid (by rw [hp]; exact hpid)
      | wakes _ hpc =>
        rw [Pc.newPid_leaving hpc] at hpid
        cases hpid
      | _ => cases hpid

theorem Distinct.run {as : List (H × Input M)} : ∀ {s : Sys n H M} {k : Nat},
    Reach Boot Sched.step (fun _ _ => True) s → Distinct s k →
    exec Sched.step (fun _ _ => True) s as = some s' → pidsTaken s as + k ≤ 2147483646 →
    Distinct s' (pidsTaken s as + k) := by
  induction as with
  | nil =>
    intro s k _ D he _
    cases he
    rwa [pidsTaken, Nat.zero_add]
  | cons a as ih =>
    intro s k hr D he hle
    simp only [exec, if_true] at he
    unfold pidsTaken at hle ⊢
    cases hs : Sched.step s a with
    | next s₁ =>
      simp only [hs] at he hle ⊢
      rw [Nat.add_right_comm, Nat.add_comm] at hle ⊢
      exact ih (hr.step trivial hs) (D.step (.of_reach hr) (.of_step hs) rfl (by omega)) he hle
    | blocked | panic => simp [hs] at he

end Count

theorem Distinct.of_boot (hb : Boot s) : Distinct s 0 := by
  refine ⟨by rw [hb.nextpid]; rfl, fun j hl => ?_, fun j k hj hk _ => ?_, fun i pid hp => ?_⟩
  · rw [hb.live hl, hb.init]
    exact ⟨Int.one_pos, Int.lt_succ 1⟩
  · rw [hb.live hj, hb.live hk]
  · exact hb.thread_of (T := fun t => t.pc.newPid = some pid → 0 < pid) nofun nofun i hp

/-- **Pids are positive and distinct as long as no more than 2 147 483 646 have been taken**, on
    every run from boot to `s'`. What `fork` returns is one of them. -/
theorem pids_positive_distinct [DecidableEq H] {as : List (H × Input M)} (hb : Boot s)
    (hr : exec Sched.step (fun _ _ => True) s as = some s') (hk : pidsTaken s as ≤ 2147483646) :
    (∀ j, (s'.slot j).state ≠ .unused → 0 < (s'.slot j).pid) ∧
    (∀ j k, (s'.slot j).state ≠ .unused → (s'.slot k).state ≠ .unused →
      (s'.slot j).pid = (s'.slot k).pid → j = k) ∧
    (∀ i np pid, (s'.thread i).pc = .forkRunDone np pid → 0 < pid) := by
  have D := (Distinct.of_boot hb).run (.start hb) hr hk
  exact ⟨fun j hl => (D.pid j hl).1, D.inj, fun i np pid hp => D.fork i pid (by rw [hp]; rfl)⟩

/-- `init` makes a child, fails to make a second one for want of memory, and makes a third. -/
def threeForks : List (Unit × Input noMonitor) :=
  alone ([.fork] ++ List.replicate 8 .go ++ [.fork, .go, .go, .go, .go, .fault, .go] ++
    [.fork, .go, .go, .go, .go, .go])

/-- The failed one has taken the pid 3. -/
theorem pids_positive_distinct_three : ∃ s : Sys NPROC Unit noMonitor,
    exec Sched.step (fun _ _ => True) booted threeForks = some s ∧ pidsTaken booted threeForks = 3 ∧
      (s.slot 1).state = .runnable ∧ (s.slot 2).state = .used ∧ (s.slot 2).pid = 4 ∧
      0 < (s.slot 1).pid ∧ (s.slot 1).pid ≠ (s.slot 2).pid := by
  have hrun : (exec Sched.step (fun _ _ => True) booted threeForks).any (fun s =>
      (s.slot 1).state = .runnable ∧ (s.slot 2).state = .used ∧ (s.slot 2).pid = 4) = true := by
    decide +kernel
  have hk : pidsTaken booted threeForks = 3 := by decide +kernel
  obtain ⟨s, he, hq⟩ := (Option.any_eq_true ..).mp hrun
  obtain ⟨h1, h2, h4⟩ := of_decide_eq_true hq
  have hl1 : (s.slot 1).state ≠ .unused := by rw [h1]; exact nofun
  have hl2 : (s.slot 2).state ≠ .unused := by rw [h2]; exact nofun
  obtain ⟨hpos, hinj, -⟩ := pids_positive_distinct booted_boot he (by omega)
  exact ⟨s, he, hk, h1, h2, h4, hpos 1 hl1, fun e => absurd (hinj 1 2 hl1 hl2 e) (by decide)⟩

end ZeptOS.Sched
