import Mathlib.Algebra.GroupWithZero.Nat
import Mathlib.Logic.Function.Basic

/-!
# The console driver's input

`kernel/console.c`: the ring of typed characters, the interrupt handler that fills and edits it and
the reads that empty it. Whoever is at the ring has `cons.lock`, so a call of the handler is one step,
and so is a read from where it gets the lock to where it sleeps or returns. A read sleeps in the middle
of its loop; what it needs to go on is its `Reader`.

Echoing and `procdump` print and change nothing here.
-/

namespace ZeptOS.Console

def INPUT_BUF_SIZE : Nat := 128

instance : NeZero INPUT_BUF_SIZE := ⟨by decide⟩

structure Cons where
  buf : Fin INPUT_BUF_SIZE → UInt8
  r : UInt32    -- Read index
  w : UInt32    -- Write index
  e : UInt32    -- Edit index

/-- `i % INPUT_BUF_SIZE` -/
def cell (i : UInt32) : Fin INPUT_BUF_SIZE := Fin.ofNat INPUT_BUF_SIZE i.toNat

/-- `C(x)`, Control-x. -/
def C (x : Char) : UInt8 := x.toUInt8 - '@'.toUInt8

def LF : UInt8 := '\n'.toUInt8
def CR : UInt8 := '\r'.toUInt8
def DEL : UInt8 := 0x7f

/-! ## `consoleintr` -/

def killLoop : Nat → Cons → Cons
  | 0, s => s
  | k + 1, s =>
    if s.e ≠ s.w ∧ s.buf (cell (s.e - 1)) ≠ LF then killLoop k { s with e := s.e - 1 } else s

/-- After `e - w` times the loop is at `w`, if it gets there. -/
def killLine (s : Cons) : Cons := killLoop (s.e - s.w).toNat s

def consoleintr (c : UInt8) (s : Cons) : Cons :=
  if c = C 'P' then s
  else if c = C 'U' then killLine s
  else if c = C 'H' ∨ c = DEL then
    if s.e ≠ s.w then { s with e := s.e - 1 } else s
  else if c ≠ 0 ∧ (s.e - s.r).toNat < INPUT_BUF_SIZE then
    let c := if c = CR then LF else c
    let s := { s with buf := Function.update s.buf (cell s.e) c, e := s.e + 1 }
    if c = LF ∨ c = C 'D' ∨ (s.e - s.r).toNat = INPUT_BUF_SIZE then { s with w := s.e } else s
  else s

/-! ## `consoleread` -/

/-- A process that is in a read and sleeps: where the next byte goes, how many bytes it still wants
of `target`, and where it can store. -/
inductive Reader where
  | idle
  | asleep (dst : UInt64) (left target : Nat) (ok : UInt64 → Bool)

structure Output where
  stored : List (UInt64 × UInt8)
  result : Option Int
  deriving DecidableEq

def Output.store (dst : UInt64) (c : UInt8) (o : Output) : Output := ⟨(dst, c) :: o.stored, o.result⟩

/-- The loop of a read with `left > 0` bytes to go, until it sleeps or returns. `killed` is what
`killed(myproc())` answers, and `ok dst` whether `either_copyout` to `dst` succeeds. -/
def readLoop (killed : Bool) (ok : UInt64 → Bool) (target : Nat) :
    Nat → UInt64 → Cons → Cons × Reader × Output
  | 0, _, s => (s, .idle, ⟨[], some target⟩)
  | n + 1, dst, s =>
    if s.r = s.w then
      if killed then (s, .idle, ⟨[], some (-1)⟩)
      else (s, .asleep dst (n + 1) target ok, ⟨[], none⟩)
    else
      let c := s.buf (cell s.r)
      let s := { s with r := s.r + 1 }
      if c = C 'D' then
        let s := if n + 1 < target then { s with r := s.r - 1 } else s
        (s, .idle, ⟨[], some (target - (n + 1 : Nat))⟩)
      else if ok dst = false then (s, .idle, ⟨[], some (target - (n + 1 : Nat))⟩)
      else if c = LF then (s, .idle, ⟨[(dst, c)], some (target - n)⟩)
      else
        let (s, rd, o) := readLoop killed ok target n (dst + 1) s
        (s, rd, o.store dst c)

/-- `consoleread`, up to its first sleep. With `n <= 0` there is no loop and 0 is returned. -/
def consoleread (killed : Bool) (ok : UInt64 → Bool) (dst : UInt64) (n : Int) (s : Cons) :
    Cons × Reader × Output :=
  readLoop killed ok n.toNat n.toNat dst s

/-! ## The driver -/

inductive Input (P : Type) where
  /-- a character arrives -/
  | intr (c : UInt8)
  /-- a process calls `consoleread` -/
  | read (p : P) (dst : UInt64) (n : Int) (ok : UInt64 → Bool) (killed : Bool)
  /-- a process that sleeps in `consoleread` is woken and gets the lock again -/
  | wake (p : P) (killed : Bool)

structure State (P : Type) where
  cons : Cons
  reader : P → Reader

variable {P : Type} [DecidableEq P]

def quiet : Output := ⟨[], none⟩

def step (s : State P) : Input P → State P × Output
  | .intr c => ({ s with cons := consoleintr c s.cons }, quiet)
  | .read p dst n ok killed =>
    match s.reader p with
    | .idle =>
      let (cons, rd, o) := consoleread killed ok dst n s.cons
      (⟨cons, Function.update s.reader p rd⟩, o)
    | .asleep _ _ _ _ => (s, quiet)
  | .wake p killed =>
    match s.reader p with
    | .idle => (s, quiet)
    | .asleep dst left target ok =>
      let (cons, rd, o) := readLoop killed ok target left dst s.cons
      (⟨cons, Function.update s.reader p rd⟩, o)

def init : State P := ⟨⟨fun _ => 0, 0, 0, 0⟩, fun _ => .idle⟩

end ZeptOS.Console
