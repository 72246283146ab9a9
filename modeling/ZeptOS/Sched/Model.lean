import ZeptOS.Lib.Run
import ZeptOS.Lib.Monitor
import ZeptOS.Mem.Proc

/-!
# Processes, locks and harts

`kernel/proc.c` as the harts execute it, one lock operation at a time: `fork`, `exit`,
`wait`, `kill`, `sleep`, `wakeup`, `yield` and the scheduler. A program counter stands in
front of a lock operation or of code between two of them that reads what other processes
write; a step takes that operation and runs on to the next. `n` is `NPROC`, and there is
any number of harts.

The functions that sleep on something other than a child, and the interrupt handlers that
wake them, are code of a `Monitor`. Memory and files are left out: whether `kalloc` finds a
page and whether `copyout` finds one mapped is the environment's choice.

Four locks are not there: `pid_lock`, `kmem.lock`, `ftable.lock` and `itable.lock`. Each guards
code that is one operation here, or none, and no such section waits for a lock of this model
(`iput` takes a sleep lock under `itable.lock` only where it is free). So they hide nothing that
processes do, but no result here is about the order of all locks of the kernel: `allocpid` and
`kalloc` take theirs with `p->lock` held, and that this is never turned round has to be read off
the source.
-/

namespace ZeptOS.Sched

open Lib
open Mem (ProcState)

/-! ## Locks and channels -/

inductive Lock (n : Nat) (M : Monitor) where
  | proc (i : Fin n)         -- proc[i].lock
  | wait                     -- wait_lock
  | obj (l : M.L)
  deriving DecidableEq

inductive Chan (n : Nat) (M : Monitor) where
  | proc (i : Fin n)         -- &proc[i], for `wait`
  | obj (c : M.C)
  deriving DecidableEq

/-! ## The process table -/

structure Slot (n : Nat) (M : Monitor) where
  state : ProcState
  chan : Option (Chan n M)
  killed : Bool
  xstate : Int
  pid : Int
  parent : Option (Fin n)

/-- What `freeproc` leaves, and what the table is at boot. -/
def Slot.empty {n : Nat} {M : Monitor} : Slot n M where
  state := .unused
  chan := none
  killed := false
  xstate := 0
  pid := 0
  parent := none

/-- A child that a `wait` has found. `birth` says which of the processes that have had the
    slot it is. -/
structure Reap (n : Nat) where
  child : Fin n
  birth : Nat
  pid : Int
  status : Int
  parent : Option (Fin n)

structure Exited where
  birth : Nat
  pid : Int
  status : Int

/-! ## Program counters -/

inductive Why (M : Monitor) where
  | wait (addr : Nat)
  | obj (l : M.L) (k : M.K) (x : M.X)

inductive Asker (M : Monitor) where
  | wait (addr : Nat)
  | obj (l : M.L) (yes no : M.X)

inductive Waker (M : Monitor) where
  | reparent (st : Int) (j : Nat)
  | exit (st : Int)
  | obj (l : M.L) (x : M.X)

inductive Pc (n : Nat) (M : Monitor) where
  | dead
  | user (r : Int)                          -- in user space; `r` is what the last call returned
  | forkret
  -- fork
  | alloc (j : Nat)
  | allocNext (j : Fin n)
  | forkFail (np : Fin n)
  | forkDone (np : Fin n) (pid : Int)
  | forkParent (np : Fin n) (pid : Int)
  | forkParentDone (np : Fin n) (pid : Int)
  | forkRun (np : Fin n) (pid : Int)
  | forkRunDone (np : Fin n) (pid : Int)
  -- exit
  | exit (st : Int)
  | reparent (st : Int) (j : Nat)
  | exitZombie (st : Int)
  | exitRelease
  | exitSched
  -- wait
  | wait (addr : Nat)
  | waitScan (addr : Nat) (j : Nat) (havekids : Bool)
  | waitChild (addr : Nat) (pp : Fin n)
  | waitNext (addr : Nat) (pp : Fin n)
  | waitFault (pp : Fin n)
  | waitReap (r : Reap n)
  | waitReturn (r : Option (Reap n))
  -- killed
  | killed (q : Asker M)
  | killedDone (q : Asker M) (k : Bool)
  -- sleep
  | sleep (w : Why M)
  | sleepRelease (w : Why M)
  | sleepMark (w : Why M)
  | sleepSched (w : Why M)
  | sleepAwake (w : Why M)
  | sleepReacquire (w : Why M)
  -- wakeup
  | wakeup (c : Option (Chan n M)) (j : Nat) (k : Waker M)
  | wakeupNext (c : Option (Chan n M)) (j : Fin n) (k : Waker M)
  -- kill
  | kill (pid : Int) (j : Nat)
  | killNext (pid : Int) (j : Fin n)
  | killFound (j : Fin n)
  -- yield
  | yield
  | yieldSched
  | yieldDone
  -- code of the monitor
  | enter (l : M.L) (x : M.X)
  | inside (l : M.L) (x : M.X)
  | leave (l : M.L) (r : Int)

section Counters

variable {n : Nat} {M : Monitor}

def Why.chan (i : Fin n) : Why M → Chan n M
  | .wait _ => .proc i
  | .obj _ k _ => .obj (M.chan k)

def Why.lock : Why M → Lock n M
  | .wait _ => .wait
  | .obj l _ _ => .obj l

def Why.resume : Why M → Pc n M
  | .wait addr => .waitScan addr 0 false
  | .obj l _ x => .inside l x

def Asker.resume (k : Bool) : Asker M → Pc n M
  | .wait addr => if k then .waitReturn none else .sleep (.wait addr)
  | .obj l yes no => .inside l (if k then yes else no)

def Waker.resume : Waker M → Pc n M
  | .reparent st j => .reparent st j
  | .exit st => .exitZombie st
  | .obj l x => .inside l x

/-- Where `sched` switches to another context, and where this one goes on when it is
    switched back to. -/
def Pc.sched : Pc n M → Option (Pc n M)
  | .sleepSched w => some (.sleepAwake w)
  | .yieldSched => some .yieldDone
  | .exitSched => some .dead
  | _ => none

end Counters

/-! ## The machine -/

/-- The kernel thread of a process: where it is, and an interrupt handler on top. -/
structure Thread (n : Nat) (M : Monitor) where
  pc : Pc n M
  intr : Option (Pc n M)

inductive Ctl (n : Nat) (M : Monitor) where
  | scan (k : Nat)                       -- scheduler, in front of acquire(&proc[k].lock)
  | skip (k : Fin n)                     -- it is not RUNNABLE
  | thread (i : Fin n)
  | back (i : Fin n)                     -- the scheduler after its swtch
  | intr (k : Nat) (p : Pc n M)          -- scheduler, interrupted

structure Sys (n : Nat) (H : Type) (M : Monitor) where
  slot : Fin n → Slot n M
  thread : Fin n → Thread n M
  ctl : H → Ctl n M
  proc : H → Option (Fin n)              -- c->proc
  noff : H → Nat                         -- c->noff
  lock : Lock n M → Option H             -- lk->locked, lk->cpu
  data : M.L → M.D
  nextpid : Int
  initproc : Fin n
  -- history, read by no function
  births : Nat
  birth : Fin n → Nat
  exits : List Exited
  waits : List (Fin n × Reap n)

inductive Panic where
  | initExiting | acquire | release | schedLock | schedLocks | schedRunning
  deriving DecidableEq

inductive Input (M : Monitor) where
  | go
  | fault                                -- kalloc or copyout fails
  | fork
  | exit (st : Int)
  | wait (addr : Nat)
  | kill (pid : Int)
  | call (l : M.L) (x : M.X)
  | timer
  | intr (l : M.L) (x : M.X)

inductive Op (n : Nat) (M : Monitor) where
  | tau
  | acquire (l : Lock n M)
  | release (l : Lock n M)

inductive Eff (n : Nat) (M : Monitor) where
  | none
  | alloc (j : Fin n)
  | allocFail (j : Fin n)
  | free (j : Fin n)
  | setParent (j p : Fin n)
  | ready (j : Fin n)
  | kill (j : Fin n)
  | exit (i : Fin n) (st : Int)
  | sleep (i : Fin n) (c : Chan n M)
  | tidy (i : Fin n)
  | write (l : M.L) (d : M.D)
  | exiting (i : Fin n) (st : Int)
  | waited (i : Fin n) (r : Reap n)

structure Move (n : Nat) (M : Monitor) where
  op : Op n M
  eff : Eff n M
  pc : Pc n M

section Machine

variable {n : Nat} {H : Type} [DecidableEq H] {M : Monitor}

def Thread.top (t : Thread n M) : Pc n M := t.intr.getD t.pc

def Thread.goto (t : Thread n M) (p : Pc n M) : Thread n M :=
  match t.intr with
  | none => { t with pc := p }
  | some _ =>
    match p with
    | .user _ => { t with intr := none }
    | p => { t with intr := some p }

def Sys.modify (s : Sys n H M) (j : Fin n) (f : Slot n M → Slot n M) : Sys n H M :=
  { s with slot := Function.update s.slot j (f (s.slot j)) }

/-- `nextpid + 1`, on a 32-bit `int`. -/
def incPid (pid : Int) : Int := (pid + 1).bmod (2 ^ 32)

def Op.run (h : H) (s : Sys n H M) : Op n M → Outcome (Sys n H M) Panic
  | .tau => .next s
  | .acquire l =>
    match s.lock l with
    | none => .next { s with
        lock := Function.update s.lock l (some h)
        noff := Function.update s.noff h (s.noff h + 1) }
    | some h' => if h' = h then .panic .acquire else .blocked
  | .release l =>
    if s.lock l = some h then .next { s with
        lock := Function.update s.lock l none
        noff := Function.update s.noff h (s.noff h - 1) }
    else .panic .release

def Eff.apply (s : Sys n H M) : Eff n M → Sys n H M
  | .none => s
  | .alloc j =>
    { s.modify j fun p => { p with pid := s.nextpid, state := .used } with
      nextpid := incPid s.nextpid
      thread := Function.update s.thread j ⟨.forkret, Option.none⟩
      births := s.births + 1
      birth := Function.update s.birth j s.births }
  | .allocFail j => { s.modify j fun _ => .empty with nextpid := incPid s.nextpid }
  | .free j => s.modify j fun _ => .empty
  | .setParent j p => s.modify j fun q => { q with parent := some p }
  | .ready j => s.modify j fun p => { p with state := .runnable }
  | .kill j => s.modify j fun p =>
      { p with killed := true, state := if p.state = .sleeping then .runnable else p.state }
  | .exit i st => s.modify i fun p => { p with xstate := st, state := .zombie }
  | .sleep i c => s.modify i fun p => { p with chan := some c, state := .sleeping }
  | .tidy i => s.modify i fun p => { p with chan := Option.none }
  | .write l d => { s with data := Function.update s.data l d }
  | .exiting i st => { s with exits := ⟨s.birth i, (s.slot i).pid, st⟩ :: s.exits }
  | .waited i r => { s with waits := (i, r) :: s.waits }

/-! ## The code -/

def move (op : Op n M) (eff : Eff n M) (pc : Pc n M) : Outcome (Move n M) Panic :=
  .next ⟨op, eff, pc⟩

/-- The code that runs in interrupts, too: monitors and `wakeup`. -/
def job (s : Sys n H M) (self : Option (Fin n)) : Pc n M → Outcome (Move n M) Panic
  | .enter l x => move (.acquire (.obj l)) .none (.inside l x)
  | .inside l x =>
    match M.code l x (s.data l) with
    | .write d x => move .tau (.write l d) (.inside l x)
    | .wake c x => move .tau .none (.wakeup (some (.obj c)) 0 (.obj l x))
    | .wait k x => move .tau .none (.sleep (.obj l k x))
    | .check yes no => move .tau .none (.killed (.obj l yes no))
    | .done r => move .tau .none (.leave l r)
  | .leave l r => move (.release (.obj l)) .none (.user r)
  | .wakeup c j k =>
    if hj : j < n then
      if self = some ⟨j, hj⟩ then move .tau .none (.wakeup c (j + 1) k)
      else
        let p := s.slot ⟨j, hj⟩
        move (.acquire (.proc ⟨j, hj⟩))
          (if p.state = .sleeping ∧ p.chan = c then .ready ⟨j, hj⟩ else .none)
          (.wakeupNext c ⟨j, hj⟩ k)
    else move .tau .none k.resume
  | .wakeupNext c j k => move (.release (.proc j)) .none (.wakeup c (j + 1) k)
  | _ => .blocked

/-- The code only a process runs; `i` is `myproc()`. -/
def code (s : Sys n H M) (i : Fin n) (inp : Input M) : Pc n M → Outcome (Move n M) Panic
  | .user _ =>
    match inp with
    | .fork => move .tau .none (.alloc 0)
    | .exit st =>
      if i = s.initproc then .panic .initExiting else move .tau (.exiting i st) (.exit st)
    | .wait addr => move .tau .none (.wait addr)
    | .kill pid => move .tau .none (.kill pid 0)
    | .call l x => if M.entry l x then move .tau .none (.enter l x) else .blocked
    | _ => .blocked
  | .forkret => move (.release (.proc i)) .none (.user 0)
  -- allocproc
  | .alloc j =>
    if hj : j < n then
      if (s.slot ⟨j, hj⟩).state = .unused then
        match inp with
        | .fault => move (.acquire (.proc ⟨j, hj⟩)) (.allocFail ⟨j, hj⟩) (.forkFail ⟨j, hj⟩)
        | _ => move (.acquire (.proc ⟨j, hj⟩)) (.alloc ⟨j, hj⟩) (.forkDone ⟨j, hj⟩ s.nextpid)
      else move (.acquire (.proc ⟨j, hj⟩)) .none (.allocNext ⟨j, hj⟩)
    else move .tau .none (.user (-1))
  | .allocNext j => move (.release (.proc j)) .none (.alloc (j + 1))
  -- fork
  | .forkFail np => move (.release (.proc np)) .none (.user (-1))
  | .forkDone np pid => move (.release (.proc np)) .none (.forkParent np pid)
  | .forkParent np pid => move (.acquire .wait) (.setParent np i) (.forkParentDone np pid)
  | .forkParentDone np pid => move (.release .wait) .none (.forkRun np pid)
  | .forkRun np pid => move (.acquire (.proc np)) (.ready np) (.forkRunDone np pid)
  | .forkRunDone np pid => move (.release (.proc np)) .none (.user pid)
  -- exit
  | .exit st => move (.acquire .wait) .none (.reparent st 0)
  | .reparent st j =>
    if hj : j < n then
      if (s.slot ⟨j, hj⟩).parent = some i then
        move .tau (.setParent ⟨j, hj⟩ s.initproc)
          (.wakeup (some (.proc s.initproc)) 0 (.reparent st (j + 1)))
      else move .tau .none (.reparent st (j + 1))
    else move .tau .none (.wakeup ((s.slot i).parent.map .proc) 0 (.exit st))
  | .exitZombie st => move (.acquire (.proc i)) (.exit i st) .exitRelease
  | .exitRelease => move (.release .wait) .none .exitSched
  -- wait
  | .wait addr => move (.acquire .wait) .none (.waitScan addr 0 false)
  | .waitScan addr j havekids =>
    if hj : j < n then
      if (s.slot ⟨j, hj⟩).parent = some i then move .tau .none (.waitChild addr ⟨j, hj⟩)
      else move .tau .none (.waitScan addr (j + 1) havekids)
    else move .tau .none (if havekids then .killed (.wait addr) else .waitReturn none)
  | .waitChild addr pp =>
    let c := s.slot pp
    if c.state = .zombie then
      match inp, addr with
      | .fault, _ + 1 => move (.acquire (.proc pp)) .none (.waitFault pp)
      | _, _ => move (.acquire (.proc pp)) (.free pp)
          (.waitReap ⟨pp, s.birth pp, c.pid, c.xstate, c.parent⟩)
    else move (.acquire (.proc pp)) .none (.waitNext addr pp)
  | .waitNext addr pp => move (.release (.proc pp)) .none (.waitScan addr (pp + 1) true)
  | .waitFault pp => move (.release (.proc pp)) .none (.waitReturn none)
  | .waitReap r => move (.release (.proc r.child)) .none (.waitReturn (some r))
  | .waitReturn r =>
    match r with
    | none => move (.release .wait) .none (.user (-1))
    | some r => move (.release .wait) (.waited i r) (.user r.pid)
  -- killed
  | .killed q => move (.acquire (.proc i)) .none (.killedDone q (s.slot i).killed)
  | .killedDone q k => move (.release (.proc i)) .none (q.resume k)
  -- sleep
  | .sleep w => move (.acquire (.proc i)) .none (.sleepRelease w)
  | .sleepRelease w => move (.release w.lock) .none (.sleepMark w)
  | .sleepMark w => move .tau (.sleep i (w.chan i)) (.sleepSched w)
  | .sleepAwake w => move (.release (.proc i)) (.tidy i) (.sleepReacquire w)
  | .sleepReacquire w => move (.acquire w.lock) .none w.resume
  -- kill
  | .kill pid j =>
    if hj : j < n then
      if (s.slot ⟨j, hj⟩).pid = pid then
        move (.acquire (.proc ⟨j, hj⟩)) (.kill ⟨j, hj⟩) (.killFound ⟨j, hj⟩)
      else move (.acquire (.proc ⟨j, hj⟩)) .none (.killNext pid ⟨j, hj⟩)
    else move .tau .none (.user (-1))
  | .killNext pid j => move (.release (.proc j)) .none (.kill pid (j + 1))
  | .killFound j => move (.release (.proc j)) .none (.user 0)
  -- yield
  | .yield => move (.acquire (.proc i)) (.ready i) .yieldSched
  | .yieldDone => move (.release (.proc i)) .none (.user 0)
  | p => job s (some i) p

/-! ## Steps -/

/-- A lock operation and a change of the tables, by hart `h`. -/
def Move.run (h : H) (s : Sys n H M) (m : Move n M) : Outcome (Sys n H M) Panic :=
  match m.op.run h s with
  | .next s => .next (m.eff.apply s)
  | .blocked => .blocked
  | .panic p => .panic p

def sched (h : H) (i : Fin n) (q : Pc n M) (s : Sys n H M) : Outcome (Sys n H M) Panic :=
  if s.lock (.proc i) ≠ some h then .panic .schedLock
  else if s.noff h ≠ 1 then .panic .schedLocks
  else if (s.slot i).state = .running then .panic .schedRunning
  else .next { s with
    ctl := Function.update s.ctl h (.back i)
    thread := Function.update s.thread i ((s.thread i).goto q) }

def runThread (h : H) (i : Fin n) (inp : Input M) (s : Sys n H M) : Outcome (Sys n H M) Panic :=
  match (s.thread i).top.sched with
  | some q => sched h i q s
  | none =>
    match code s i inp (s.thread i).top with
    | .next m =>
      match m.run h s with
      | .next s' => .next { s' with
          thread := Function.update s'.thread i ((s.thread i).goto m.pc) }
      | .blocked => .blocked
      | .panic p => .panic p
    | .blocked => .blocked
    | .panic p => .panic p

/-- An interrupt on hart `h`, which has interrupts enabled: it holds no lock. -/
def interrupt (h : H) (i : Fin n) (p : Pc n M) (s : Sys n H M) : Outcome (Sys n H M) Panic :=
  if s.noff h = 0 ∧ (s.thread i).intr = none then
    .next { s with thread := Function.update s.thread i ⟨(s.thread i).pc, some p⟩ }
  else .blocked

def scan (h : H) (k : Nat) (s : Sys n H M) : Outcome (Sys n H M) Panic :=
  if hk : k < n then
    match (Op.acquire (.proc ⟨k, hk⟩)).run h s with
    | .next s =>
      if (s.slot ⟨k, hk⟩).state = .runnable then
        .next { s.modify ⟨k, hk⟩ fun p => { p with state := .running } with
          proc := Function.update s.proc h (some ⟨k, hk⟩)
          ctl := Function.update s.ctl h (.thread ⟨k, hk⟩) }
      else .next { s with ctl := Function.update s.ctl h (.skip ⟨k, hk⟩) }
    | .blocked => .blocked
    | .panic p => .panic p
  else .next { s with ctl := Function.update s.ctl h (.scan 0) }

/-- `release(&p->lock)` of the scheduler. -/
def scanNext (h : H) (k : Fin n) (s : Sys n H M) : Outcome (Sys n H M) Panic :=
  match (Op.release (.proc k)).run h s with
  | .next s => .next { s with ctl := Function.update s.ctl h (.scan (k + 1)) }
  | .blocked => .blocked
  | .panic p => .panic p

def runIntr (h : H) (k : Nat) (p : Pc n M) (s : Sys n H M) : Outcome (Sys n H M) Panic :=
  match job s none p with
  | .next m =>
    match m.run h s with
    | .next s => .next { s with
        ctl := Function.update s.ctl h (match m.pc with | .user _ => .scan k | q => .intr k q) }
    | .blocked => .blocked
    | .panic p => .panic p
  | .blocked => .blocked
  | .panic p => .panic p

def step (s : Sys n H M) (a : H × Input M) : Outcome (Sys n H M) Panic :=
  match s.ctl a.1 with
  | .scan k =>
    match a.2 with
    | .intr l x =>
      if M.handler l x then
        .next { s with ctl := Function.update s.ctl a.1 (.intr k (.enter l x)) }
      else .blocked
    | _ => scan a.1 k s
  | .skip k => scanNext a.1 k s
  | .back i => scanNext a.1 i { s with proc := Function.update s.proc a.1 none }
  | .intr k p => runIntr a.1 k p s
  | .thread i =>
    match a.2 with
    | .timer => interrupt a.1 i .yield s
    | .intr l x => if M.handler l x then interrupt a.1 i (.enter l x) s else .blocked
    | inp => runThread a.1 i inp s

/-- After `procinit` and `userinit`, with every hart in `scheduler`. -/
structure Boot (s : Sys n H M) : Prop where
  init : s.slot s.initproc = { Slot.empty with state := .runnable, pid := 1 }
  slot : ∀ j, j ≠ s.initproc → s.slot j = .empty
  thread : s.thread s.initproc = ⟨.forkret, none⟩
  threads : ∀ j, j ≠ s.initproc → s.thread j = ⟨.dead, none⟩
  ctl : ∀ h, s.ctl h = .scan 0
  proc : ∀ h, s.proc h = none
  noff : ∀ h, s.noff h = 0
  lock : ∀ l, s.lock l = none
  nextpid : s.nextpid = 2
  births : s.births = 1
  birth : ∀ j, s.birth j = 0
  exits : s.exits = []
  waits : s.waits = []

def Sys.boot (data : M.L → M.D) (ip : Fin n) : Sys n H M where
  slot := Function.update (fun _ => .empty) ip { Slot.empty with state := .runnable, pid := 1 }
  thread := Function.update (fun _ => ⟨.dead, none⟩) ip ⟨.forkret, none⟩
  ctl _ := .scan 0
  proc _ := none
  noff _ := 0
  lock _ := none
  data := data
  nextpid := 2
  initproc := ip
  births := 1
  birth _ := 0
  exits := []
  waits := []

omit [DecidableEq H] in
theorem Sys.boot_spec (data : M.L → M.D) (ip : Fin n) : Boot (Sys.boot data ip : Sys n H M) where
  init := by simp [Sys.boot]
  slot j hj := by
    replace hj : j ≠ ip := hj
    simp [Sys.boot, hj]
  thread := by simp [Sys.boot]
  threads j hj := by
    replace hj : j ≠ ip := hj
    simp [Sys.boot, hj]
  ctl _ := rfl
  proc _ := rfl
  noff _ := rfl
  lock _ := rfl
  nextpid := rfl
  births := rfl
  birth _ := rfl
  exits := rfl
  waits := rfl

end Machine

end ZeptOS.Sched
