import ZeptOS.Fs.Calls
import ZeptOS.Lib.Threads

/-!
# What the operations of the file system do

One state for all processes, and `perform`: an operation of a process on it. The buffer cache and the
log are what `Bio` and `Log` show them to be, the latest content of every block and a sleep lock on
it. An operation may have to wait, for a lock that somebody has; what a call learns from
outside the file system (the user's memory, the page allocator, a device) is up to an `Oracle`.
-/

namespace ZeptOS.Fs

open Lib

inductive ProcState where
  | unused
  | used
  /-- SLEEPING, RUNNABLE or RUNNING -/
  | live
  | zombie
  deriving DecidableEq

/-- Of a page that is used for pipes: the ends, and how often it was allocated and freed. -/
structure Pipe where
  readopen : Bool
  writeopen : Bool
  kallocs : Nat
  kfrees : Nat

/-- Whether an end is open, the writing one or the reading one. -/
def Pipe.isOpen (x : Pipe) (writable : Bool) : Bool :=
  if writable then x.writeopen else x.readopen

structure State where
  disk : Nat → Block
  buf : Nat → Option Proc             -- who has the buffer
  begun : Proc → Nat                  -- begin_op less end_op
  ident : Slot → Ident
  node : Slot → Node
  lock : Slot → Option Proc           -- who has the inode's lock
  file : FileNo → File
  pipe : Nat → Pipe
  pstate : Proc → ProcState
  ofile : Proc → Nat → Option FileNo
  cwd : Proc → Option Slot

inductive Stop where
  | panic (e : Panic)
  /-- somebody has the lock -/
  | wait
  /-- a null pointer is used -/
  | fault
  deriving DecidableEq

structure Oracle where
  copyin : Copied
  copyout : Bool
  memory : Bool
  io : Int
  page : Option Nat
  proc : Option (Proc × Nat)
  deriving Inhabited

namespace State

variable (s : State)

def setIdent (ip : Slot) (x : Ident) : State := { s with ident := Function.update s.ident ip x }
def setNode (ip : Slot) (n : Node) : State := { s with node := Function.update s.node ip n }
def setLock (ip : Slot) (p : Option Proc) : State :=
  { s with lock := Function.update s.lock ip p }
def setDisk (b : Nat) (data : Block) : State := { s with disk := Function.update s.disk b data }
def setBuf (b : Nat) (p : Option Proc) : State := { s with buf := Function.update s.buf b p }
def setFile (f : FileNo) (x : File) : State := { s with file := Function.update s.file f x }
def setPipe (pi : Nat) (x : Pipe) : State := { s with pipe := Function.update s.pipe pi x }
def setPstate (p : Proc) (x : ProcState) : State :=
  { s with pstate := Function.update s.pstate p x }
def setBegun (p : Proc) (n : Nat) : State := { s with begun := Function.update s.begun p n }
def setOfile (p : Proc) (fd : Nat) (f : Option FileNo) : State :=
  { s with ofile := Function.update s.ofile p (Function.update (s.ofile p) fd f) }
def setCwd (p : Proc) (ip : Option Slot) : State := { s with cwd := Function.update s.cwd p ip }

/-- `ip->ref += n` -/
def addRef (ip : Slot) (n : Int) : State :=
  s.setIdent ip { s.ident ip with ref := (s.ident ip).ref + n }

def cached (dev inum : Nat) : Option Slot :=
  (List.finRange NINODE).find? fun ip =>
    (s.ident ip).ref > 0 ∧ (s.ident ip).dev = dev ∧ (s.ident ip).inum = inum

def empty : Option Slot := (List.finRange NINODE).find? fun ip => (s.ident ip).ref = 0

def freeFile : Option FileNo := (List.finRange NFILE).find? fun f => (s.file f).ref = 0

def recycle (ip : Slot) (dev inum : Nat) : State :=
  (s.setIdent ip ⟨dev, inum, 1⟩).setNode ip { s.node ip with valid := false }

def closeEnd (x : Pipe) (writable : Bool) : Pipe :=
  let x := if writable then { x with writeopen := false } else { x with readopen := false }
  if x.readopen = false ∧ x.writeopen = false then { x with kfrees := x.kfrees + 1 } else x

end State

/-- **An operation of process `p`.** -/
def perform (ω : Oracle) (p : Proc) (s : State) : (o : Op) → Except Stop (o.Ans × State)
  | .panic e => .error (.panic e)
  | .enter _ => .ok ((), s)
  | .bread b => if s.buf b = none then .ok (s.disk b, s.setBuf b (some p)) else .error .wait
  | .bstore b data => .ok ((), s.setDisk b data)
  | .logWrite _ =>
    if ∀ q, s.begun q = 0 then .error (.panic .outsideTrans) else .ok ((), s)
  | .brelse b => if s.buf b = some p then .ok ((), s.setBuf b none) else .error (.panic .brelse)
  | .beginOp => .ok ((), s.setBegun p (s.begun p + 1))
  | .endOp => .ok ((), s.setBegun p (s.begun p - 1))
  | .iget dev inum =>
    match s.cached dev inum, s.empty with
    | some ip, _ => .ok (ip, s.addRef ip 1)
    | none, some ip => .ok (ip, s.recycle ip dev inum)
    | none, none => .error (.panic .igetNoInodes)
  | .idup ip => .ok ((), s.addRef ip 1)
  | .iputTest ip =>
    if (s.ident ip).ref = 1 ∧ (s.node ip).valid ∧ (s.node ip).d.nlink = 0 then
      if s.lock ip = none then .ok (true, s.setLock ip (some p)) else .error .wait
    else .ok (false, s.addRef ip (-1))
  | .iputDrop ip => .ok ((), s.addRef ip (-1))
  | .ident ip => .ok (s.ident ip, s)
  | .acquiresleep ip =>
    if s.lock ip = none then .ok ((), s.setLock ip (some p)) else .error .wait
  | .releasesleep ip => .ok ((), s.setLock ip none)
  | .holdingsleep ip => .ok (decide (s.lock ip = some p), s)
  | .node ip => .ok (s.node ip, s)
  | .setNode ip n => .ok ((), s.setNode ip n)
  | .filealloc =>
    match s.freeFile with
    | some f => .ok (some f, s.setFile f { s.file f with ref := 1 })
    | none => .ok (none, s)
  | .filedup f =>
    if (s.file f).ref < 1 then .error (.panic .filedup)
    else .ok ((), s.setFile f { s.file f with ref := (s.file f).ref + 1 })
  | .filecloseRef f =>
    if (s.file f).ref < 1 then .error (.panic .fileclose)
    else if (s.file f).ref - 1 > 0 then
      .ok (none, s.setFile f { s.file f with ref := (s.file f).ref - 1 })
    else .ok (some { s.file f with ref := 0 }, s.setFile f { s.file f with ref := 0, type := .none })
  | .file f => .ok (s.file f, s)
  | .setFile f x => .ok ((), s.setFile f { x with ref := (s.file f).ref })
  | .setOff f off => .ok ((), s.setFile f { s.file f with off })
  | .pipeKalloc =>
    match ω.page with
    | some pi =>
      -- the allocator does not give away a page that is in use
      if (s.pipe pi).kallocs = (s.pipe pi).kfrees then
        .ok (some pi, s.setPipe pi ⟨true, true, (s.pipe pi).kallocs + 1, (s.pipe pi).kfrees⟩)
      else .ok (none, s)
    | none => .ok (none, s)
  | .pipeclose pi writable => .ok ((), s.setPipe pi (State.closeEnd (s.pipe pi) writable))
  | .pipeIo _ _ _ _ => .ok (ω.io, s)
  | .devIo _ _ _ _ => .ok (ω.io, s)
  | .ofile fd => .ok (s.ofile p fd, s)
  | .setOfile fd f => .ok ((), s.setOfile p fd f)
  | .cwd =>
    match s.cwd p with
    | some ip => .ok (ip, s)
    | none => .error .fault
  | .setCwd ip => .ok ((), s.setCwd p ip)
  | .allocproc =>
    match ω.proc with
    | some (np, pid) =>
      if s.pstate np = .unused then .ok (some (np, pid), s.setPstate np .used) else .ok (none, s)
    | none => .ok (none, s)
  | .childOfile np fd f => .ok ((), s.setOfile np fd (some f))
  | .childCwd np ip => .ok ((), s.setCwd np (some ip))
  | .runnable np => .ok ((), s.setPstate np .live)
  | .zombie => .ok ((), s.setPstate p .zombie)
  | .copyin _ _ => .ok (ω.copyin, s)
  | .copyout _ _ => .ok (ω.copyout, s)
  | .memory _ => .ok (ω.memory, s)

/-! ## The calls and the system -/

inductive Call where
  | dup (fd : Int)
  | read (fd : Int) (addr : Nat) (n : Int)
  | write (fd : Int) (addr : Nat) (n : Int)
  | close (fd : Int)
  | fstat (fd : Int) (addr : Nat)
  | link (old new : Option (List UInt8))
  | unlink (path : Option (List UInt8))
  | open (path : Option (List UInt8)) (omode : Nat)
  | mkdir (path : Option (List UInt8))
  | mknod (path : Option (List UInt8)) (major minor : Nat)
  | chdir (path : Option (List UInt8))
  | exec (path : Option (List UInt8)) (argc : Option Nat)
  | pipe (fdarray : Nat)
  | fork
  | exit (init : Bool)

def Call.code (sb : Superblock) : Call → FsM Int
  | .dup fd => sysDup fd
  | .read fd addr n => sysRead sb fd addr n
  | .write fd addr n => sysWrite sb fd addr n
  | .close fd => sysClose sb fd
  | .fstat fd addr => sysFstat sb fd addr
  | .link old new => sysLink sb old new
  | .unlink path => sysUnlink sb path
  | .open path omode => sysOpen sb path omode
  | .mkdir path => sysMkdir sb path
  | .mknod path major minor => sysMknod sb path major minor
  | .chdir path => sysChdir sb path
  | .exec path argc => sysExec sb path argc
  | .pipe fdarray => sysPipe sb fdarray
  | .fork => Fs.fork
  | .exit init => do
    Fs.exit sb init
    pure 0

/-- All processes, over one state. A zombie that has stopped may be reaped. -/
def system (sb : Superblock) : Machine sig Proc State Call Int where
  exec p s o r s' := ∃ ω, perform ω p s o = .ok (r, s')
  code := Call.code sb
  start p s _ := s.pstate p = .live
  idle p s s' := s.pstate p = .zombie ∧ s' = s.setPstate p .unused

end ZeptOS.Fs
