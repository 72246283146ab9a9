import ZeptOS.Lib.Dlist
import ZeptOS.Lib.Run

/-!
# The buffer cache

`kernel/bio.c` as processes execute it, at the grain of `bcache.lock` and of the sleep locks of
the buffers. What is done with `bcache.lock` held is one step: the two loops of `bget`, the end
of `brelse`, `bpin` and `bunpin`. A process that has chosen a buffer in `bget` has given the lock
up before it goes for the sleep lock, and one that has given the sleep lock up in `brelse` goes for
`bcache.lock` afterwards; in between anything may happen.

There are `n` buffers, `P` is who calls, and `D` is what a block holds. The driver is asked for a
block by its number only.
-/

namespace ZeptOS.Bio

open Lib

structure Buf (P D : Type) where
  valid : Bool
  dev : Nat
  blockno : Nat
  owner : Option P           -- lock.locked, lock.pid
  refcnt : UInt32
  data : D

inductive Pc (n : Nat) where
  | out (r : Option (Fin n))   -- not in `bio.c`; `r` is what the last `bread` returned
  | lock (b : Fin n)           -- bget, at acquiresleep(&b->lock)
  | fill (b : Fin n)           -- bread, with what bget returned
  | drop (b : Fin n)           -- brelse, after releasesleep(&b->lock)
  deriving DecidableEq

structure Cache (n : Nat) (P D : Type) where
  buf : Fin n → Buf P D
  link : Links (Fin n)         -- prev and next; the head is `none`
  disk : Nat → D
  pc : P → Pc n
  pins : Fin n → Nat           -- history: calls of bpin, less those of bunpin

inductive Panic where
  | noBuffers                  -- "bget: no buffers"
  | brelse
  | bwrite
  | hang                       -- a loop that does not end
  deriving DecidableEq

inductive Req (n : Nat) (D : Type) where
  | bread (dev blockno : Nat)
  | store (b : Fin n) (d : D)  -- the caller writes to b->data
  | bwrite (b : Fin n)
  | brelse (b : Fin n)
  | bpin (b : Fin n)
  | bunpin (b : Fin n)
  | go

section Machine

variable {n : Nat} {P D : Type} [DecidableEq P]

def Cache.modify (c : Cache n P D) (b : Fin n) (f : Buf P D → Buf P D) : Cache n P D :=
  { c with buf := Function.update c.buf b (f (c.buf b)) }

def Cache.goto (c : Cache n P D) (p : P) (q : Pc n) : Cache n P D :=
  { c with pc := Function.update c.pc p q }

/-- `b->dev == dev && b->blockno == blockno` -/
def Buf.is (b : Buf P D) (dev blockno : Nat) : Bool := b.dev = dev ∧ b.blockno = blockno

def bget (c : Cache n P D) (p : P) (dev blockno : Nat) : Outcome (Cache n P D) Panic :=
  -- Is the block already cached?
  match Links.find c.link.next (fun b => (c.buf b).is dev blockno) (n + 1) (c.link.next none) with
  | none => .panic .hang
  | some (some b) =>
    .next ((c.modify b fun x => { x with refcnt := x.refcnt + 1 }).goto p (.lock b))
  | some none =>
    -- Recycle the least recently used unused buffer.
    match Links.find c.link.prev (fun b => (c.buf b).refcnt = 0) (n + 1) (c.link.prev none) with
    | none => .panic .hang
    | some (some b) =>
      .next ((c.modify b fun x => { x with dev, blockno, valid := false, refcnt := 1 }).goto p
        (.lock b))
    | some none => .panic .noBuffers

def acquire (c : Cache n P D) (p : P) (b : Fin n) : Outcome (Cache n P D) Panic :=
  match (c.buf b).owner with
  | none => .next ((c.modify b fun x => { x with owner := some p }).goto p (.fill b))
  | some _ => .blocked

def fill (c : Cache n P D) (p : P) (b : Fin n) : Cache n P D :=
  (c.modify b fun x =>
    if x.valid then x else { x with data := c.disk x.blockno, valid := true }).goto p (.out (some b))

def drop (c : Cache n P D) (p : P) (b : Fin n) : Cache n P D :=
  let c := c.modify b fun x => { x with refcnt := x.refcnt - 1 }
  { c.goto p (.out none) with
    -- no one is waiting for it
    link := if (c.buf b).refcnt = 0 then (c.link.remove b).insert b else c.link }

def step (c : Cache n P D) (a : P × Req n D) : Outcome (Cache n P D) Panic :=
  match c.pc a.1, a.2 with
  | .out _, .bread dev blockno => bget c a.1 dev blockno
  | .out _, .store b d =>
    if (c.buf b).owner = some a.1 then .next (c.modify b fun x => { x with data := d })
    else .blocked
  | .out _, .bwrite b =>
    if (c.buf b).owner = some a.1 then
      .next { c with disk := Function.update c.disk (c.buf b).blockno (c.buf b).data }
    else .panic .bwrite
  | .out _, .brelse b =>
    if (c.buf b).owner = some a.1 then
      .next ((c.modify b fun x => { x with owner := none }).goto a.1 (.drop b))
    else .panic .brelse
  | .out _, .bpin b =>
    .next { c.modify b fun x => { x with refcnt := x.refcnt + 1 } with
      pins := Function.update c.pins b (c.pins b + 1) }
  | .out _, .bunpin b =>
    .next { c.modify b fun x => { x with refcnt := x.refcnt - 1 } with
      pins := Function.update c.pins b (c.pins b - 1) }
  | .lock b, .go => acquire c a.1 b
  | .fill b, .go => .next (fill c a.1 b)
  | .drop b, .go => .next (drop c a.1 b)
  | _, _ => .blocked

def binit (k : Links (Fin n)) : Links (Fin n) := (List.finRange n).foldl Links.insert k.clear

structure Boot (c : Cache n P D) : Prop where
  buf : ∀ b, (c.buf b).dev = 0 ∧ (c.buf b).blockno = 0 ∧ (c.buf b).valid = false ∧
    (c.buf b).owner = none ∧ (c.buf b).refcnt = 0
  link : ∃ k, c.link = binit k
  pc : ∀ p, c.pc p = .out none
  pins : ∀ b, c.pins b = 0

def Cache.boot (disk : Nat → D) (d : D) : Cache n P D where
  buf _ := ⟨false, 0, 0, none, 0, d⟩
  link := binit ⟨fun _ => none, fun _ => none⟩
  disk := disk
  pc _ := .out none
  pins _ := 0

omit [DecidableEq P] in
theorem Cache.boot_spec (disk : Nat → D) (d : D) : Boot (Cache.boot disk d : Cache n P D) where
  buf _ := ⟨rfl, rfl, rfl, rfl, rfl⟩
  link := ⟨_, rfl⟩
  pc _ := rfl
  pins _ := rfl

end Machine

end ZeptOS.Bio
