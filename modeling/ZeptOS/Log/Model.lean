import ZeptOS.Lib.Run
import ZeptOS.Lib.Replay
import ZeptOS.Param

/-!
# The redo log of `kernel/log.c`

The log, the buffers it copies from and the disk it copies to, as one machine that is
driven from outside: file-system operations begin, read and change buffers, log them
and end; the process that ended the last of them runs `commit`, one disk write a step;
the power may go at any step, and what comes back is `recover_from_log`.

`Machine` is the kernel's state plus a history. The history (`nextOp`, `dirty`,
`committed`, `cur`, `lost`) decides no transition; it records what the operations changed
and logged and which of it reached a written, non-empty header, which is what a statement
about crashes has to talk about.

Two things are kept apart on purpose. A buffer is changed (`Act.modify`) and logged
(`Act.logWrite`) in two steps, as in the source, with other operations' steps in
between; what keeps that harmless is the buffer's sleep-lock, and so the lock is part
of the machine. And `Act.evict` recycles any buffer with no reference, as `bget` does,
so a logged block survives until its commit only because `log_write` pinned it.

`brelse` lets go of a changed buffer whether it has been logged or not. That the callers
log what they change is not a property of the log, and runs are restricted by it
(`LogsChanges`).
-/

namespace ZeptOS

open Lib

/-- `struct logheader`, used for the on-disk header and for the block numbers logged so
    far. Entries at and beyond `n` are stale. -/
structure LogHeader where
  n : Nat
  block : Nat → Nat

/-- `struct log`, without its spin-lock and device number. -/
structure Log where
  start : Nat
  size : Nat
  outstanding : Nat
  committing : Bool
  lh : LogHeader

namespace Log

inductive Panic where
  | tooBig          -- "too big a transaction"
  | outsideTrans    -- "log_write outside of trans"
  | committing      -- "log.committing"
  deriving DecidableEq, Repr

/-! ## The log proper -/

def admits (l : Log) : Bool :=
  !l.committing && !decide (l.lh.n + (l.outstanding + 1) * MAXOPBLOCKS > LOGSIZE)

def tooBig (l : Log) : Bool := decide (l.lh.n ≥ LOGSIZE) || decide (l.lh.n ≥ l.size - 1)

/-- The blocks of the log area, which no operation touches. -/
def InArea (l : Log) (b : Nat) : Prop := l.start ≤ b ∧ b < l.start + l.size

instance (l : Log) (b : Nat) : Decidable (l.InArea b) :=
  inferInstanceAs (Decidable (l.start ≤ b ∧ b < l.start + l.size))

end Log

namespace LogHeader

/-- The absorption scan of `log_write`: the index of `b` in the header, or `n`. -/
def scan (lh : LogHeader) (b : Nat) : Nat :=
  ((List.range lh.n).find? fun i => lh.block i == b).getD lh.n

def record (lh : LogHeader) (b : Nat) : LogHeader :=
  { n := if lh.scan b = lh.n then lh.n + 1 else lh.n
    block := Function.update lh.block (lh.scan b) b }

/-! ## The header on disk -/

/-- Write the first `n` block numbers of the array into the header block. -/
def putBlocks (block : Nat → Nat) : Nat → Block → Block
  | 0, hb => hb
  | i + 1, hb => (putBlocks block i hb).st (4 + 4 * i) 4 (block i)

/-- The header block as `write_head` fills it: the count and the block numbers below
    it. What stood beyond them stays. -/
def fillHead (lh : LogHeader) (hb : Block) : Block :=
  putBlocks lh.block lh.n (hb.st 0 4 lh.n)

/-- The count in a header block. It is a signed `int`, and every loop over it runs from
    0 up, so a negative one counts as 0. -/
def headCount (hb : Block) : Nat := if hb.ld 0 4 < 2 ^ 31 then hb.ld 0 4 else 0

def headBlock (hb : Block) (i : Nat) : Nat := hb.ld (4 + 4 * i) 4

end LogHeader

namespace Log

/-! ## The machine -/

/-- One update of a block by an operation: what the buffer held when it was logged. -/
structure Upd where
  op : Nat
  blockno : Nat
  data : Block

/-- An operation between its `begin_op` and its `end_op`, with the block numbers it has
    passed to `log_write`. -/
structure Op where
  id : Nat
  wrote : List Nat
  deriving DecidableEq, Repr

inductive Pc where
  | idle
  | writeLog (tail : Nat)     -- `write_log`, next to copy entry `tail`
  | writeHead                 -- the first `write_head`: the commit point
  | install (tail : Nat)      -- `install_trans(0)`, next to copy entry `tail`
  | clearHead                 -- the second `write_head`, with `lh.n` already 0
  | finish                    -- `commit` has returned to `end_op`
  | recRead                   -- `read_head` of `recover_from_log`
  | recInstall (tail : Nat)   -- `install_trans(1)`, next to copy entry `tail`
  | recClear                  -- the `write_head` of `recover_from_log`
  deriving DecidableEq, Repr

def Pc.recovering : Pc → Bool
  | .recRead | .recInstall _ | .recClear => true
  | _ => false

structure Machine where
  disk : Nat → Block
  cache : Nat → Option Block   -- the valid buffers of the buffer cache
  pins : Nat → Nat             -- the references `bpin` holds on each block's buffer
  locks : List (Nat × Nat)     -- the locked buffers, with the operation that holds each
  dirty : List Nat             -- the buffers changed since they were last logged
  log : Log
  ops : List Op
  pc : Pc
  nextOp : Nat
  committed : List (List Upd)  -- the updates of each commit whose header was written
  cur : List Upd               -- the updates logged since
  lost : List Upd              -- the updates a crash took

inductive Act where
  | beginOp
  | bread (op b : Nat)
  | modify (op b : Nat) (data : Block)
  | logWrite (op b : Nat)
  | brelse (op b : Nat)
  | endOp (op : Nat)
  | load (b : Nat)    -- a reader outside any operation brings a block into the cache
  | evict (b : Nat)   -- `bget` recycles an unreferenced buffer
  | tick              -- the next disk write of the commit or of the recovery
  | crash

namespace Machine

def view (m : Machine) (b : Nat) : Block := (m.cache b).getD (m.disk b)

def bread (m : Machine) (b : Nat) : Machine :=
  { m with cache := Function.update m.cache b (some (m.view b)) }

def bwrite (m : Machine) (b : Nat) (data : Block) : Machine :=
  { m with disk := Function.update m.disk b data, cache := Function.update m.cache b (some data) }

def active (m : Machine) (op : Nat) : Bool := m.ops.any fun o => o.id == op

def lockFree (m : Machine) (b : Nat) : Bool := m.locks.all fun l => l.1 != b

/-- `write_head`: fill the header block in the cache and write it out. -/
def writeHead (m : Machine) : Machine :=
  m.bwrite m.log.start (m.log.lh.fillHead (m.view m.log.start))

def writeLogOne (m : Machine) (tail : Nat) : Machine :=
  (m.bread (m.log.lh.block tail)).bwrite (m.log.start + tail + 1) (m.view (m.log.lh.block tail))

/-- One round of the loop of `install_trans`, but for the unpinning. -/
def installOne (m : Machine) (tail : Nat) : Machine :=
  (m.bread (m.log.start + tail + 1)).bwrite (m.log.lh.block tail)
    (m.view (m.log.start + tail + 1))

def readHead (m : Machine) : Machine :=
  let hb := m.view m.log.start
  { m.bread m.log.start with
    log := { m.log with lh :=
      { n := LogHeader.headCount hb
        block := fun i =>
          if i < LogHeader.headCount hb then LogHeader.headBlock hb i else m.log.lh.block i } } }

/-- `log.lh.n = 0` -/
def clearCount (m : Machine) : Machine :=
  { m with log := { m.log with lh := { m.log.lh with n := 0 } } }

/-- The next step of the process inside `commit` or `recover_from_log`: one disk write,
    or the exit of one of the loops. -/
def tick (m : Machine) : Outcome Machine Panic :=
  match m.pc with
  | .idle => .blocked
  | .writeLog tail =>
    if tail < m.log.lh.n then .next { m.writeLogOne tail with pc := .writeLog (tail + 1) }
    else .next { m with pc := .writeHead }
  | .writeHead =>
    .next { m.writeHead with pc := .install 0, committed := m.committed ++ [m.cur], cur := [] }
  | .install tail =>
    if tail < m.log.lh.n then
      .next { m.installOne tail with
        pins := Function.update m.pins (m.log.lh.block tail) (m.pins (m.log.lh.block tail) - 1)
        pc := .install (tail + 1) }
    else .next { m.clearCount with pc := .clearHead }
  | .clearHead => .next { m.writeHead with pc := .finish }
  | .finish => .next { m with log := { m.log with committing := false }, pc := .idle }
  | .recRead => .next { m.readHead with pc := .recInstall 0 }
  | .recInstall tail =>
    if tail < m.log.lh.n then .next { m.installOne tail with pc := .recInstall (tail + 1) }
    else .next { m.clearCount with pc := .recClear }
  | .recClear => .next { m.writeHead with pc := .idle }

/-- `begin_op`. No operation runs before `fsinit` has returned from the recovery. -/
def beginOp (m : Machine) : Outcome Machine Panic :=
  if m.pc.recovering = false ∧ m.log.admits = true then
    .next { m with
      log := { m.log with outstanding := m.log.outstanding + 1 }
      ops := ⟨m.nextOp, []⟩ :: m.ops
      nextOp := m.nextOp + 1 }
  else .blocked

def logWrite (m : Machine) (op b : Nat) : Outcome Machine Panic :=
  if m.active op = true ∧ (b, op) ∈ m.locks then
    if m.log.tooBig then .panic .tooBig
    else if m.log.outstanding < 1 then .panic .outsideTrans
    else
      .next { m with
        log := { m.log with lh := m.log.lh.record b }
        -- `bpin`, only where the block is new to the log
        pins := if m.log.lh.scan b = m.log.lh.n then Function.update m.pins b (m.pins b + 1)
          else m.pins
        dirty := m.dirty.filter (· != b)
        ops := m.ops.map fun o => if o.id = op then { o with wrote := b :: o.wrote } else o
        cur := m.cur ++ [⟨op, b, m.view b⟩] }
  else .blocked

def endOp (m : Machine) (op : Nat) : Outcome Machine Panic :=
  if m.active op = true ∧ m.locks.all (fun l => l.2 != op) = true then
    if m.log.committing then .panic .committing
    else if m.log.outstanding - 1 = 0 then
      .next { m with
        log := { m.log with outstanding := m.log.outstanding - 1, committing := true }
        ops := m.ops.filter (·.id != op)
        -- `commit` does nothing where nothing was logged
        pc := if m.log.lh.n > 0 then .writeLog 0 else .finish }
    else
      .next { m with
        log := { m.log with outstanding := m.log.outstanding - 1 }
        ops := m.ops.filter (·.id != op) }
  else .blocked

/-- The power goes: the disk stays, everything else is what booting finds. -/
def crash (m : Machine) : Machine :=
  { m with
    cache := fun _ => none
    pins := fun _ => 0
    locks := []
    dirty := []
    log := { m.log with outstanding := 0, committing := false, lh := ⟨0, fun _ => 0⟩ }
    ops := []
    pc := .recRead
    cur := []
    lost := m.lost ++ m.cur }

def step (m : Machine) : Act → Outcome Machine Panic
  | .beginOp => m.beginOp
  | .bread op b =>
    if m.active op = true ∧ m.lockFree b = true ∧ ¬ m.log.InArea b ∧ b < 2 ^ 32 then
      .next { m.bread b with locks := (b, op) :: m.locks }
    else .blocked
  | .modify op b data =>
    if (b, op) ∈ m.locks then
      .next { m with cache := Function.update m.cache b (some data), dirty := b :: m.dirty }
    else .blocked
  | .logWrite op b => m.logWrite op b
  | .brelse op b =>
    if (b, op) ∈ m.locks then
      .next { m with locks := m.locks.filter (· != (b, op)) }
    else .blocked
  | .endOp op => m.endOp op
  | .load b =>
    if m.pc.recovering = false ∧ m.lockFree b = true then .next (m.bread b) else .blocked
  | .evict b =>
    if m.pins b = 0 ∧ m.lockFree b = true then
      .next { m with cache := Function.update m.cache b none }
    else .blocked
  | .tick => m.tick
  | .crash => .next m.crash

/-- Power on, with a given disk and the log area its superblock names. -/
def boot (disk : Nat → Block) (logstart nlog : Nat) : Machine :=
  { disk := disk
    cache := fun _ => none
    pins := fun _ => 0
    locks := []
    dirty := []
    log := { start := logstart, size := nlog, outstanding := 0, committing := false,
             lh := ⟨0, fun _ => 0⟩ }
    ops := []
    pc := .recRead
    nextOp := 0
    committed := []
    cur := []
    lost := [] }

/-- What the callers of the log keep to: a buffer that was changed is logged before it is released. -/
def LogsChanges (m : Machine) : Act → Prop
  | .brelse _ b => b ∉ m.dirty
  | _ => True

instance (m : Machine) (a : Act) : Decidable (m.LogsChanges a) :=
  match a with
  | .brelse _ b => inferInstanceAs (Decidable (b ∉ m.dirty))
  | .beginOp | .bread .. | .modify .. | .logWrite .. | .endOp _ | .load _ | .evict _ | .tick
  | .crash => .isTrue trivial

/-- The machine's states in a run from `boot` whose steps all satisfy `ok`. -/
def ReachOf (disk : Nat → Block) (logstart nlog : Nat) (ok : Machine → Act → Prop) :
    Machine → Prop :=
  Reach (· = boot disk logstart nlog) step ok

end Machine
end Log
end ZeptOS
