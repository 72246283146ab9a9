import ZeptOS.Sched.Model

/-!
# The loops that sleep

`pipe.c`, `sleeplock.c`, the input half of `console.c`, `sys_sleep` and `clockintr`, as code of
a monitor. A local state is a place in a function, with the function's variables; an act of the
monitor is what the function does there with the lock held. Copies from and to user space are
the caller's: what `copyin` will give, or for how many bytes `copyout` will find memory, is part
of the call. What is printed is left out.

Pipes and sleep locks are numbered in the order they are made, so that no number is used again.
-/

namespace ZeptOS.Sched

open Lib

def PIPESIZE : Nat := 512
def INPUT_BUF_SIZE : Nat := 128

instance : NeZero PIPESIZE := ⟨by decide⟩
instance : NeZero INPUT_BUF_SIZE := ⟨by decide⟩

/-! ## What the locks protect -/

structure Pipe where
  data : Fin PIPESIZE → UInt8
  nread : UInt32
  nwrite : UInt32
  readopen : Bool
  writeopen : Bool

structure Console where
  buf : Fin INPUT_BUF_SIZE → UInt8
  r : UInt32
  w : UInt32
  e : UInt32

structure Sleeplock where
  locked : Bool
  pid : Int

inductive Obj where
  | pipe (pi : Pipe)
  | ticks (t : UInt32)
  | cons (c : Console)
  | sleeplock (lk : Sleeplock)

inductive ObjLock where
  | pipe (i : Nat)           -- pi->lock
  | ticks                    -- tickslock
  | cons                     -- cons.lock
  | sleeplock (i : Nat)      -- lk->lk
  deriving DecidableEq

inductive ObjChan where
  | nread (i : Nat)          -- &pi->nread
  | nwrite (i : Nat)         -- &pi->nwrite
  | ticks                    -- &ticks
  | consR                    -- &cons.r
  | sleeplock (i : Nat)      -- lk
  deriving DecidableEq

inductive ObjCond where
  | piperead (i : Nat)
  | pipewrite (i : Nat)
  | sysSleep (ticks0 n : UInt32)
  | consoleread
  | sleeplock (i : Nat)

def ObjCond.chan : ObjCond → ObjChan
  | .piperead i => .nread i
  | .pipewrite i => .nwrite i
  | .sysSleep _ _ => .ticks
  | .consoleread => .consR
  | .sleeplock i => .sleeplock i

/-! ## Where the functions are -/

inductive Local where
  -- pipewrite: the bytes to come, where `copyin` finds them, and how many have been written
  | pipewrite (src : List (Option UInt8)) (i : Nat)
  | pipewriteAlive (src : List (Option UInt8)) (i : Nat)
  | pipewriteSleep (src : List (Option UInt8)) (i : Nat)
  -- piperead: `room` is how many bytes `copyout` finds memory for, `ch` is the last byte taken
  | piperead (n : Int) (room : Nat)
  | pipereadSleep (n : Int) (room : Nat)
  | pipereadCopy (n : Int) (room i : Nat) (ch : UInt8)
  | pipereadEnd (i : Nat) (ch : UInt8)
  | pipeclose (writable : Bool)
  | pipecloseEnd (writable : Bool)
  -- sys_sleep, sys_uptime, clockintr
  | sysSleep (n : Int)
  | sysSleepLoop (ticks0 n : UInt32)
  | sysSleepSleep (ticks0 n : UInt32)
  | sysUptime
  | clockintr
  | clockintrEnd
  -- consoleread, consoleintr
  | consoleread (target n : Int) (room : Nat)
  | consolereadSleep (target n : Int) (room : Nat)
  | consoleintr (c : UInt8)
  | consoleintrEnd
  -- acquiresleep, releasesleep, holdingsleep; `pid` is that of `myproc()`
  | acquiresleep (pid : Int)
  | releasesleep
  | releasesleepEnd
  | holdingsleep (pid : Int)
  | ret (r : Int)

/-! ## The functions -/

abbrev ObjAct := Act ObjChan ObjCond Obj Local

/-- `pi->data[i % PIPESIZE]`. -/
def Pipe.at (pi : Pipe) (i : UInt32) : UInt8 := pi.data (Fin.ofNat _ i.toNat)

/-- The `for` loop of `piperead`. A byte that `copyout` cannot store has been taken nevertheless. -/
def pipereadCopy (id : Nat) (pi : Pipe) (n : Int) (room i : Nat) : ObjAct :=
  if i < n then
    if pi.nread = pi.nwrite then .wake (.nwrite id) (.ret i)
    else
      let ch := pi.at pi.nread
      .write (.pipe { pi with nread := pi.nread + 1 })
        (if i < room then .pipereadCopy n room (i + 1) ch else .pipereadEnd i ch)
  else .wake (.nwrite id) (.ret i)

def pipeCode (id : Nat) (pi : Pipe) : Local → ObjAct
  | .pipewrite [] i => .wake (.nread id) (.ret i)
  | .pipewrite (c :: src) i =>
    if pi.readopen then .check (.ret (-1)) (.pipewriteAlive (c :: src) i) else .done (-1)
  | .pipewriteAlive [] i => .wake (.nread id) (.ret i)
  | .pipewriteAlive (c :: src) i =>
    if pi.nwrite = pi.nread + PIPESIZE.toUInt32 then
      .wake (.nread id) (.pipewriteSleep (c :: src) i)
    else
      match c with
      | none => .wake (.nread id) (.ret i)
      | some ch => .write (.pipe { pi with
          data := Function.update pi.data (Fin.ofNat _ pi.nwrite.toNat) ch
          nwrite := pi.nwrite + 1 }) (.pipewrite src (i + 1))
  | .pipewriteSleep src i => .wait (.pipewrite id) (.pipewrite src i)
  | .piperead n room =>
    if pi.nread = pi.nwrite ∧ pi.writeopen then .check (.ret (-1)) (.pipereadSleep n room)
    else pipereadCopy id pi n room 0
  | .pipereadSleep n room => .wait (.piperead id) (.piperead n room)
  | .pipereadCopy n room i _ => pipereadCopy id pi n room i
  | .pipereadEnd i _ => .wake (.nwrite id) (.ret i)
  | .pipeclose true => .write (.pipe { pi with writeopen := false }) (.pipecloseEnd true)
  | .pipeclose false => .write (.pipe { pi with readopen := false }) (.pipecloseEnd false)
  | .pipecloseEnd true => .wake (.nread id) (.ret 0)
  | .pipecloseEnd false => .wake (.nwrite id) (.ret 0)
  | .ret r => .done r
  | _ => .done 0

def sysSleepLoop (t ticks0 n : UInt32) : ObjAct :=
  if t - ticks0 < n then .check (.ret (-1)) (.sysSleepSleep ticks0 n) else .done 0

def ticksCode (t : UInt32) : Local → ObjAct
  | .sysSleep n => sysSleepLoop t t (UInt32.ofNat n.toNat)
  | .sysSleepLoop ticks0 n => sysSleepLoop t ticks0 n
  | .sysSleepSleep ticks0 n => .wait (.sysSleep ticks0 n) (.sysSleepLoop ticks0 n)
  | .sysUptime => .done t.toNat
  | .clockintr => .write (.ticks (t + 1)) .clockintrEnd
  | .clockintrEnd => .wake .ticks (.ret 0)
  | .ret r => .done r
  | _ => .done 0

/-- `C(x)`. -/
def ctrl (x : Char) : UInt8 := x.toUInt8 - '@'.toUInt8

def newline : UInt8 := '\n'.toUInt8

/-- `cons.buf[i % INPUT_BUF_SIZE]`. -/
def Console.at (c : Console) (i : UInt32) : UInt8 := c.buf (Fin.ofNat _ i.toNat)

def consCode (c : Console) : Local → ObjAct
  | .consoleread target n room =>
    if 0 < n then
      if c.r = c.w then .check (.ret (-1)) (.consolereadSleep target n room)
      else
        let ch := c.at c.r
        if ch = ctrl 'D' then
          -- it is put back if the caller has got something
          if n < target then .done (target - n)
          else .write (.cons { c with r := c.r + 1 }) (.ret (target - n))
        else .write (.cons { c with r := c.r + 1 })
          (if room = 0 then .ret (target - n)
            else if ch = newline then .ret (target - (n - 1))
            else .consoleread target (n - 1) (room - 1))
    else .done (target - n)
  | .consolereadSleep target n room => .wait .consoleread (.consoleread target n room)
  | .consoleintr ch =>
    if ch = ctrl 'P' then .done 0
    else if ch = ctrl 'U' then
      if c.e ≠ c.w ∧ c.at (c.e - 1) ≠ newline then
        .write (.cons { c with e := c.e - 1 }) (.consoleintr ch)
      else .done 0
    else if ch = ctrl 'H' ∨ ch = 0x7f then
      if c.e ≠ c.w then .write (.cons { c with e := c.e - 1 }) (.ret 0) else .done 0
    else if ch ≠ 0 ∧ c.e - c.r < INPUT_BUF_SIZE.toUInt32 then
      let ch := if ch = '\r'.toUInt8 then newline else ch
      let c' := { c with
        buf := Function.update c.buf (Fin.ofNat _ c.e.toNat) ch
        e := c.e + 1 }
      if ch = newline ∨ ch = ctrl 'D' ∨ c'.e - c'.r = INPUT_BUF_SIZE.toUInt32 then
        .write (.cons { c' with w := c'.e }) .consoleintrEnd
      else .write (.cons c') (.ret 0)
    else .done 0
  | .consoleintrEnd => .wake .consR (.ret 0)
  | .ret r => .done r
  | _ => .done 0

def sleeplockCode (id : Nat) (lk : Sleeplock) : Local → ObjAct
  | .acquiresleep pid =>
    if lk.locked then .wait (.sleeplock id) (.acquiresleep pid)
    else .write (.sleeplock ⟨true, pid⟩) (.ret 0)
  | .releasesleep => .write (.sleeplock ⟨false, 0⟩) .releasesleepEnd
  | .releasesleepEnd => .wake (.sleeplock id) (.ret 0)
  | .holdingsleep pid => .done (if lk.locked ∧ lk.pid = pid then 1 else 0)
  | .ret r => .done r
  | _ => .done 0

def objCode : ObjLock → Local → Obj → ObjAct
  | .pipe i, x, .pipe pi => pipeCode i pi x
  | .ticks, x, .ticks t => ticksCode t x
  | .cons, x, .cons c => consCode c x
  | .sleeplock i, x, .sleeplock lk => sleeplockCode i lk x
  | _, _, _ => .done 0

/-! ## The monitor -/

def objEntry : ObjLock → Local → Bool
  | .pipe _, .pipewrite _ i => i = 0
  | .pipe _, .piperead _ _ | .pipe _, .pipeclose _ => true
  | .ticks, .sysSleep _ | .ticks, .sysUptime => true
  | .cons, .consoleread target n _ => target = n
  | .sleeplock _, .acquiresleep _ | .sleeplock _, .releasesleep => true
  | .sleeplock _, .holdingsleep _ => true
  | _, _ => false

def objHandler : ObjLock → Local → Bool
  | .ticks, .clockintr => true
  | .cons, .consoleintr _ => true
  | _, _ => false

def objects : Monitor where
  L := ObjLock
  C := ObjChan
  K := ObjCond
  D := Obj
  X := Local
  chan := ObjCond.chan
  entry := objEntry
  handler := objHandler
  code := objCode

def objInit : ObjLock → Obj
  | .pipe _ => .pipe ⟨fun _ => 0, 0, 0, true, true⟩
  | .ticks => .ticks 0
  | .cons => .cons ⟨fun _ => 0, 0, 0, 0⟩
  | .sleeplock _ => .sleeplock ⟨false, 0⟩

end ZeptOS.Sched
