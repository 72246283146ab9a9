import ZeptOS.Mem.Vm

/-!
# Processes, programs and pipes

The process table of `kernel/proc.c`, `exec` of `kernel/exec.c`, the open-file table of
`kernel/file.c` and the pipes of `kernel/pipe.c`, as far as they allocate and free pages.
What is left out of `struct proc` (locks, `chan`, `killed`, `context`, `kstack`, `cwd`)
and of `struct file` (`ip`, `off`, `major`) no function here reads.

A system call is a function of the process table, run to its end: it holds the locks of
what it changes. `wait` answers `none` where the source would sleep.

The executable is what `readi` finds behind the path, a size and bytes, or nothing if
`namei` fails; the argument strings are lists of bytes without their final 0.
-/

namespace ZeptOS.Mem

open Lib

inductive ProcState where
  | unused | used | sleeping | runnable | running | zombie
  deriving DecidableEq, Repr

structure Proc where
  state : ProcState
  pid : Nat
  parent : Option Nat
  xstate : Nat
  sz : Nat
  pagetable : Nat
  trapframe : Nat
  ofile : Nat → Option Nat
  name : List UInt8    -- up to its 0

inductive FileType where
  | none | pipe | inode | device
  deriving DecidableEq, Repr

structure File where
  type : FileType
  ref : Nat
  writable : Bool
  pipe : Nat

structure Sys where
  vm : Vm
  proc : Nat → Proc
  file : Nat → File
  nextpid : Nat
  initproc : Nat

abbrev P := Prog Sys Panic

def onVm {α : Type} (x : K α) : P α := fun s =>
  match x s.vm with
  | .ok (a, vm) => .ok (a, { s with vm := vm })
  | .error e => .error e

def Sys.setProc (s : Sys) (i : Nat) (p : Proc) : Sys :=
  { s with proc := Function.update s.proc i p }

def Sys.setFile (s : Sys) (i : Nat) (f : File) : Sys :=
  { s with file := Function.update s.file i f }

/-! ## Page tables of processes -/

def procPagetable (c : Board) (trapframe : Nat) : K Nat := do
  let pagetable ← uvmcreate
  if pagetable = 0 then pure 0
  else do
    let r ← mappages pagetable TRAMPOLINE PGSIZE c.trampoline (PTE_R ||| PTE_X)
    if r < 0 then do
      uvmfree c pagetable 0
      pure 0
    else do
      let r ← mappages pagetable TRAPFRAME PGSIZE trapframe (PTE_R ||| PTE_W)
      if r < 0 then do
        uvmunmap c pagetable TRAMPOLINE 1 false
        uvmfree c pagetable 0
        pure 0
      else if c.shadowStack then do
        let shadow ← kalloc
        let r ← mappages pagetable SHADOW_STACK 0x1000 shadow PTE_W
        if r < 0 then do
          uvmunmap c pagetable TRAMPOLINE 1 false
          uvmunmap c pagetable TRAPFRAME 1 false
          uvmunmap c pagetable SHADOW_STACK 1 true
          pure 0
        else pure pagetable
      else pure pagetable

def procFreepagetable (c : Board) (pagetable sz : Nat) : K Unit := do
  uvmunmap c pagetable TRAMPOLINE 1 false
  uvmunmap c pagetable TRAPFRAME 1 false
  if c.shadowStack then uvmunmap c pagetable SHADOW_STACK 1 true else pure ()
  uvmfree c pagetable sz

/-! ## The trapframe -/

abbrev TF_EPC : Nat := 24
abbrev TF_SP : Nat := 48
abbrev TF_A0 : Nat := 112
abbrev TF_A1 : Nat := 120
abbrev TF_PELP : Nat := 552

/-- Where `ssp` stands depends on whether `pelp` stands before it. -/
def tfSsp (c : Board) : Nat := if c.landingPad then 560 else 552

/-- `sizeof(struct trapframe)` -/
def tfSize (c : Board) : Nat :=
  552 + (if c.landingPad then 8 else 0) + (if c.shadowStack then 8 else 0)

def storeTf (trapframe off v : Nat) : K Unit :=
  modify fun s => s.put trapframe ((s.mem trapframe).st off 8 v)

def initTrapframe (c : Board) (trapframe : Nat) : K Unit := do
  if c.landingPad then storeTf trapframe TF_PELP 0 else pure ()
  if c.shadowStack then storeTf trapframe (tfSsp c) 0 else pure ()

/-- `*(np->trapframe) = *(p->trapframe)`, and 0 as the child's result. -/
def copyTrapframe (c : Board) (src dst : Nat) : K Unit := do
  modify fun s => s.put dst ((s.mem dst).blit 0 ((s.mem src).slice 0 (tfSize c)))
  storeTf dst TF_A0 0

/-- The registers with which the new program of an `exec` starts. -/
def startTrapframe (c : Board) (trapframe entry sp : Nat) : K Unit := do
  storeTf trapframe TF_EPC entry
  storeTf trapframe TF_SP sp
  if c.shadowStack then storeTf trapframe (tfSsp c) (SHADOW_STACK + PGSIZE - 8) else pure ()

/-! ## Allocating and freeing processes -/

def safestrcpy (t : List UInt8) : List UInt8 := t.take 15

/-- A slot after `freeproc`, which leaves the open files alone. -/
def Proc.cleared (p : Proc) : Proc where
  state := .unused
  pid := 0
  parent := none
  xstate := 0
  sz := 0
  pagetable := 0
  trapframe := 0
  ofile := p.ofile
  name := []

def freeproc (c : Board) (i : Nat) : P Unit := do
  let s ← get
  let p := s.proc i
  onVm (if p.trapframe ≠ 0 then kfree c p.trapframe else pure ())
  onVm (if p.pagetable ≠ 0 then procFreepagetable c p.pagetable p.sz else pure ())
  modify fun s => s.setProc i p.cleared

def Sys.freeSlot (s : Sys) : Option Nat :=
  (List.range NPROC).find? fun i => (s.proc i).state == .unused

def allocproc (c : Board) : P (Option Nat) := do
  let s ← get
  match s.freeSlot with
  | none => pure none
  | some i => do
    set { s.setProc i { s.proc i with pid := s.nextpid, state := .used } with
      nextpid := s.nextpid + 1 }
    let tf ← onVm kalloc
    modify fun s => s.setProc i { s.proc i with trapframe := tf }
    if tf = 0 then do
      freeproc c i
      pure none
    else do
      onVm (initTrapframe c tf)
      let pt ← onVm (procPagetable c tf)
      modify fun s => s.setProc i { s.proc i with pagetable := pt }
      if pt = 0 then do
        freeproc c i
        pure none
      else pure (some i)

/-! ## Open files -/

def filedup (f : Nat) : P Unit := do
  let s ← get
  if (s.file f).ref < 1 then throw .filedup
  else set (s.setFile f { s.file f with ref := (s.file f).ref + 1 })

abbrev PIPE_READOPEN : Nat := 544
abbrev PIPE_WRITEOPEN : Nat := 548

def pipeEnd (writable : Bool) : Nat := if writable then PIPE_WRITEOPEN else PIPE_READOPEN

def pipeclose (c : Board) (pi : Nat) (writable : Bool) : K Unit := do
  modify fun s => s.put pi ((s.mem pi).st (pipeEnd writable) 4 0)
  let s ← get
  if (s.mem pi).ld PIPE_READOPEN 4 = 0 ∧ (s.mem pi).ld PIPE_WRITEOPEN 4 = 0 then kfree c pi
  else pure ()

def fileclose (c : Board) (f : Nat) : P Unit := do
  let s ← get
  let ff := s.file f
  if ff.ref < 1 then throw .fileclose
  else if ff.ref - 1 > 0 then set (s.setFile f { ff with ref := ff.ref - 1 })
  else do
    set (s.setFile f { ff with ref := 0, type := .none })
    if ff.type = .pipe then onVm (pipeclose c ff.pipe ff.writable) else pure ()

def filealloc : P (Option Nat) := do
  let s ← get
  match (List.range NFILE).find? fun f => (s.file f).ref == 0 with
  | none => pure none
  | some f => do
    set (s.setFile f { s.file f with ref := 1 })
    pure (some f)

def Sys.setPipe (s : Sys) (f : Nat) (writable : Bool) (pi : Nat) : Sys :=
  s.setFile f { s.file f with type := .pipe, writable := writable, pipe := pi }

/-- `readopen`, `writeopen`, `nwrite` and `nread` of a new pipe. -/
def emptyPipe (pg : Page) : Page :=
  (((pg.st PIPE_READOPEN 4 1).st PIPE_WRITEOPEN 4 1).st 540 4 0).st 536 4 0

def pipealloc (c : Board) : P (Option (Nat × Nat)) := do
  match ← filealloc with
  | none => pure none
  | some f0 => do
    match ← filealloc with
    | none => do
      fileclose c f0
      pure none
    | some f1 => do
      let pi ← onVm kalloc
      if pi = 0 then do
        fileclose c f0
        fileclose c f1
        pure none
      else do
        onVm (modify fun s => s.put pi (emptyPipe (s.mem pi)))
        modify fun s => s.setPipe f0 false pi
        modify fun s => s.setPipe f1 true pi
        pure (some (f0, f1))

def Sys.putOfile (s : Sys) (p fd : Nat) (f : Option Nat) : Sys :=
  s.setProc p { s.proc p with ofile := Function.update (s.proc p).ofile fd f }

def setOfile (p fd : Nat) (f : Option Nat) : P Unit := modify fun s => s.putOfile p fd f

def fdalloc (p f : Nat) : P (Option Nat) := do
  let s ← get
  match (List.range NOFILE).find? fun fd => (s.proc p).ofile fd == none with
  | none => pure none
  | some fd => do
    setOfile p fd (some f)
    pure (some fd)

def intBytes (n : Nat) : List UInt8 := (List.range 4).map fun k => UInt8.ofNat (n / 256 ^ k)

def sysPipe (c : Board) (p fdarray : Nat) : P Int := do
  match ← pipealloc c with
  | none => pure (-1)
  | some (rf, wf) => do
    match ← fdalloc p rf with
    | none => do
      fileclose c rf
      fileclose c wf
      pure (-1)
    | some fd0 => do
      match ← fdalloc p wf with
      | none => do
        setOfile p fd0 none
        fileclose c rf
        fileclose c wf
        pure (-1)
      | some fd1 => do
        let s ← get
        let r ← onVm (copyout (s.proc p).pagetable fdarray (intBytes fd0))
        let r ← if r < 0 then pure r
          else onVm (copyout (s.proc p).pagetable (add64 fdarray 4) (intBytes fd1))
        if r < 0 then do
          setOfile p fd0 none
          setOfile p fd1 none
          fileclose c rf
          fileclose c wf
          pure (-1)
        else pure 0

def sysClose (c : Board) (p fd : Nat) : P Int := do
  let s ← get
  if fd ≥ NOFILE then pure (-1)
  else match (s.proc p).ofile fd with
  | none => pure (-1)
  | some f => do
    setOfile p fd none
    fileclose c f
    pure 0

/-! ## `growproc`, `fork`, `exit`, `wait` -/

/-- `sz + n` in `uint64`, for an `int` n. -/
def addInt (sz : Nat) (n : Int) : Nat := ((sz + n) % 2 ^ 64).toNat

def growproc (c : Board) (i : Nat) (n : Int) : P Int := do
  let s ← get
  let p := s.proc i
  if n > 0 then do
    let sz ← onVm (uvmalloc c p.pagetable p.sz (addInt p.sz n) PTE_W)
    if sz = 0 then pure (-1)
    else do
      modify fun s => s.setProc i { s.proc i with sz := sz }
      pure 0
  else if n < 0 then do
    let sz ← onVm (uvmdealloc c p.pagetable p.sz (addInt p.sz n))
    modify fun s => s.setProc i { s.proc i with sz := sz }
    pure 0
  else pure 0

def dupLoop (i np : Nat) : Nat → P Unit
  | 0 => pure ()
  | n + 1 => do
    let s ← get
    match (s.proc i).ofile (NOFILE - (n + 1)) with
    | some f => do
      filedup f
      setOfile np (NOFILE - (n + 1)) (some f)
      dupLoop i np n
    | none => dupLoop i np n

def fork (c : Board) (i : Nat) : P Int := do
  match ← allocproc c with
  | none => pure (-1)
  | some np => do
    let s ← get
    let r ← onVm (uvmcopy c (s.proc i).pagetable (s.proc np).pagetable (s.proc i).sz)
    if r < 0 then do
      freeproc c np
      pure (-1)
    else do
      let sz := (s.proc i).sz
      let name := safestrcpy (s.proc i).name
      modify fun s => s.setProc np { s.proc np with sz := sz }
      onVm (copyTrapframe c (s.proc i).trapframe (s.proc np).trapframe)
      dupLoop i np NOFILE
      modify fun s => s.setProc np { s.proc np with
        name := name, parent := some i, state := .runnable }
      pure (s.proc np).pid

def closeLoop (c : Board) (i : Nat) : Nat → P Unit
  | 0 => pure ()
  | n + 1 => do
    let s ← get
    match (s.proc i).ofile (NOFILE - (n + 1)) with
    | some f => do
      fileclose c f
      setOfile i (NOFILE - (n + 1)) none
      closeLoop c i n
    | none => closeLoop c i n

def Sys.reparent (s : Sys) (i : Nat) : Sys :=
  { s with proc := fun j =>
      if (s.proc j).parent = some i then { s.proc j with parent := some s.initproc } else s.proc j }

def exit (c : Board) (i status : Nat) : P Unit := do
  let s ← get
  if i = s.initproc then throw .initExiting
  else do
    closeLoop c i NOFILE
    modify fun s => s.reparent i
    modify fun s => s.setProc i { s.proc i with xstate := status, state := .zombie }

def wait (c : Board) (i addr : Nat) : P (Option Int) := do
  let s ← get
  match (List.range NPROC).find? fun j => (s.proc j).parent == some i && (s.proc j).state == .zombie with
  | some j => do
    let r ← if addr ≠ 0 then onVm (copyout (s.proc i).pagetable addr (intBytes (s.proc j).xstate))
      else pure 0
    if r < 0 then pure (some (-1))
    else do
      freeproc c j
      pure (some (s.proc j).pid)
  | none =>
    if (List.range NPROC).any fun j => (s.proc j).parent == some i then pure none
    else pure (some (-1))

/-! ## `exec` -/

structure Image where
  size : Nat
  data : Nat → UInt8
  size_le : size ≤ MAXFILE * BSIZE

def Image.read (img : Image) (off n : Nat) : List UInt8 :=
  if off > img.size ∨ (off + n) % 2 ^ 32 < off then []
  else (List.range (if (off + n) % 2 ^ 32 > img.size then img.size - off else n)).map fun k =>
    img.data (off + k)

def field (bs : List UInt8) (off width : Nat) : Nat := Bytes.ld (fun k => bs.getD k 0) off width

abbrev ELF_MAGIC : Nat := 0x464C457F
abbrev ELF_PROG_LOAD : Nat := 1
abbrev ELFHDR_SIZE : Nat := 64
abbrev PROGHDR_SIZE : Nat := 56

def flags2perm (flags : Nat) : Nat :=
  (if flags &&& 0x1 ≠ 0 then PTE_X else 0) ||| (if flags &&& 0x2 ≠ 0 then PTE_W else 0)

def readiTo (img : Image) (pa off n : Nat) : K Nat := do
  modify fun s => s.put (pa - pa % PGSIZE)
    ((s.mem (pa - pa % PGSIZE)).blit (pa % PGSIZE) (img.read off n))
  pure (img.read off n).length

/-- The loop of `loadseg` over whole pages. `i` and `offset + i` are of type `uint`. -/
def loadLoop (img : Image) (pagetable va offset sz : Nat) : Nat → Nat → K Int
  | 0, _ => pure 0
  | n + 1, i =>
    if i < sz then do
      let pa ← walkaddr pagetable (add64 va i)
      if pa = 0 then throw .loadseg
      else do
        let m := if sz - i < PGSIZE then sz - i else PGSIZE
        let r ← readiTo img pa ((offset + i) % 2 ^ 32) m
        if r ≠ m then pure (-1)
        else loadLoop img pagetable va offset sz n ((i + PGSIZE) % 2 ^ 32)
    else pure 0

def loadseg (img : Image) (pagetable va offset sz : Nat) : K Int :=
  if va % PGSIZE ≠ 0 then do
    let pgleft := PGSIZE - (va &&& 0xfff)
    let pa ← walkaddr pagetable va
    if pa = 0 then throw .loadseg
    else do
      let n := min pgleft sz
      let r ← readiTo img pa offset n
      if r ≠ n then pure (-1)
      else if sz ≤ pgleft then pure 0
      else loadLoop img pagetable va offset sz (pages sz) n
  else loadLoop img pagetable va offset sz (pages sz) 0

/-- The loop of `exec` over the program headers, of which `n` are left: whether all went
    well, and the size reached. -/
def segments (c : Board) (img : Image) (pagetable : Nat) : Nat → Nat → Nat → K (Bool × Nat)
  | 0, _, sz => pure (true, sz)
  | n + 1, off, sz =>
    let ph := img.read off PROGHDR_SIZE
    let vaddr := field ph 16 8
    let filesz := field ph 32 8
    let memsz := field ph 40 8
    if ph.length ≠ PROGHDR_SIZE then pure (false, sz)
    else if field ph 0 4 ≠ ELF_PROG_LOAD then
      segments c img pagetable n ((off + PROGHDR_SIZE) % 2 ^ 32) sz
    else if memsz < filesz then pure (false, sz)
    else if add64 vaddr memsz < vaddr then pure (false, sz)
    else do
      let sz1 ← uvmalloc c pagetable sz (add64 vaddr memsz) (flags2perm (field ph 4 4))
      if sz1 = 0 then pure (false, sz)
      else do
        let r ← loadseg img pagetable vaddr (field ph 8 8 % 2 ^ 32) (filesz % 2 ^ 32)
        if r < 0 then pure (false, sz1)
        else segments c img pagetable n ((off + PROGHDR_SIZE) % 2 ^ 32) sz1

/-- `sp -= n; sp -= sp % 16` -/
def pushed (sp n : Nat) : Nat :=
  let sp := (sp + (2 ^ 64 - n % 2 ^ 64)) % 2 ^ 64
  sp - sp % 16

/-- The loop of `exec` over the argument strings: the stack pointer and the addresses
    of the strings, if all of them fit. -/
def pushArgs (pagetable stackbase : Nat) :
    List (List UInt8) → Nat → List Nat → K (Option (Nat × List Nat))
  | [], sp, ustack => pure (some (sp, ustack))
  | arg :: args, sp, ustack =>
    if ustack.length ≥ MAXARG then pure none
    else
      let sp := pushed sp (arg.length + 1)
      if sp < stackbase then pure none
      else do
        let r ← copyout pagetable sp (arg ++ [0])
        if r < 0 then pure none else pushArgs pagetable stackbase args sp (ustack ++ [sp])

def wordBytes (ws : List Nat) : List UInt8 :=
  ws.flatMap fun w => (List.range 8).map fun k => UInt8.ofNat (w / 256 ^ k)

/-- A program that was loaded: the stack pointer and the number of arguments. -/
structure Loaded where
  sz : Nat
  sp : Nat
  argc : Nat

def pushArgv (pagetable sz stackbase sp : Nat) (ustack : List Nat) : K (Sum Nat Loaded) :=
  if sp < stackbase then pure (.inl sz)
  else do
    let r ← copyout pagetable sp (wordBytes (ustack ++ [0]))
    if r < 0 then pure (.inl sz) else pure (.inr ⟨sz, sp, ustack.length⟩)

/-- `exec` from its page table on: the program, or the size to free on `bad`. -/
def loadProgram (c : Board) (img : Image) (phoff phnum : Nat) (argv : List (List UInt8))
    (pagetable : Nat) : K (Sum Nat Loaded) := do
  let (ok, sz) ← segments c img pagetable phnum phoff 0
  if ok = false then pure (.inl sz)
  else do
    let sz := PGROUNDUP sz
    let sz1 ← uvmalloc c pagetable sz (add64 sz (2 * PGSIZE)) PTE_W
    if sz1 = 0 then pure (.inl sz)
    else do
      uvmclear pagetable (sz1 - 2 * PGSIZE)
      let stackbase := sz1 - PGSIZE
      match ← pushArgs pagetable stackbase argv sz1 [] with
      | none => pure (.inl sz1)
      | some (sp, ustack) =>
        pushArgv pagetable sz1 stackbase (pushed sp ((ustack.length + 1) * 8)) ustack

/-- The loop of `exec` over the path: what comes after its last slash. -/
def lastName : List UInt8 → List UInt8 → List UInt8
  | last, [] => last
  | last, ch :: s => if ch = 47 then lastName s s else lastName last s

/-- `exec` from its commit on: `p` is the process as it was. -/
def commitImage (c : Board) (i : Nat) (p : Proc) (path : List UInt8) (pagetable entry : Nat)
    (prog : Loaded) : P Int := do
  onVm (storeTf p.trapframe TF_A1 prog.sp)
  modify fun s => s.setProc i { s.proc i with
    name := safestrcpy (lastName path path), pagetable := pagetable, sz := prog.sz }
  onVm (startTrapframe c p.trapframe entry prog.sp)
  onVm (procFreepagetable c p.pagetable p.sz)
  pure prog.argc

def exec (c : Board) (i : Nat) (path : List UInt8) (file : Option Image)
    (argv : List (List UInt8)) : P Int :=
  match file with
  | none => pure (-1)
  | some img =>
    let elf := img.read 0 ELFHDR_SIZE
    if elf.length ≠ ELFHDR_SIZE then pure (-1)
    else if field elf 0 4 ≠ ELF_MAGIC then pure (-1)
    else do
      let s ← get
      let p := s.proc i
      let pagetable ← onVm (procPagetable c p.trapframe)
      if pagetable = 0 then pure (-1)
      else do
        match ← onVm (loadProgram c img (field elf 32 8 % 2 ^ 32) (field elf 56 2) argv pagetable) with
        | .inl sz => do
          onVm (procFreepagetable c pagetable sz)
          pure (-1)
        | .inr prog => commitImage c i p path pagetable (field elf 24 8) prog

/-! ## `sys_exec` -/

def fetchaddr (p : Proc) (addr : Nat) : K (Option Nat) :=
  if addr ≥ p.sz ∨ add64 addr 8 > p.sz then pure none
  else do
    let (ok, bs) ← copyin p.pagetable addr 8
    if ok then pure (some (field bs 0 8)) else pure none

/-- `fetchstr`: whether it found a string, and what is in the buffer. -/
def fetchstr (p : Proc) (addr max : Nat) : K (Bool × List UInt8) := copyinstr p.pagetable addr max

def cstring (buf : List UInt8) : List UInt8 := buf.takeWhile (· ≠ 0)

/-- The loop of `sys_exec` over the arguments, each in a page of its own: whether all went
    well, and the pages with their strings. -/
def fetchArgs (p : Proc) (uargv : Nat) :
    Nat → List (Nat × List UInt8) → K (Bool × List (Nat × List UInt8))
  | 0, argv => pure (false, argv)
  | n + 1, argv => do
    match ← fetchaddr p (add64 uargv (8 * argv.length)) with
    | none => pure (false, argv)
    | some uarg =>
      if uarg = 0 then pure (true, argv)
      else do
        let page ← kalloc
        if page = 0 then pure (false, argv)
        else do
          let (ok, buf) ← fetchstr p uarg PGSIZE
          modify fun s => s.put page ((s.mem page).blit 0 buf)
          if ok = false then pure (false, argv ++ [(page, cstring buf)])
          else fetchArgs p uargv n (argv ++ [(page, cstring buf)])

def freeArgs (c : Board) : List Nat → K Unit
  | [] => pure ()
  | page :: rest => do
    kfree c page
    freeArgs c rest

def sysExec (c : Board) (namei : List UInt8 → Option Image) (i path uargv : Nat) : P Int := do
  let s ← get
  let (ok, name) ← onVm (fetchstr (s.proc i) path MAXPATH)
  if ok = false then pure (-1)
  else do
    let (ok, argv) ← onVm (fetchArgs (s.proc i) uargv MAXARG [])
    if ok = false then do
      onVm (freeArgs c (argv.map Prod.fst))
      pure (-1)
    else do
      let ret ← exec c i (cstring name) (namei (cstring name)) (argv.map Prod.snd)
      onVm (freeArgs c (argv.map Prod.fst))
      pure ret

/-! ## Booting -/

def userinit (c : Board) (initcode : List UInt8) : P Unit := do
  match ← allocproc c with
  | none => throw .kerneltrap
  | some i => do
    modify fun s => { s with initproc := i }
    let s ← get
    onVm (uvmfirst (s.proc i).pagetable initcode)
    modify fun s => s.setProc i { s.proc i with sz := PGSIZE }
    onVm (storeTf (s.proc i).trapframe TF_EPC 0)
    onVm (storeTf (s.proc i).trapframe TF_SP PGSIZE)
    modify fun s => s.setProc i { s.proc i with
      name := safestrcpy "initcode".toUTF8.toList, state := .runnable }

/-- `kmain` as far as it allocates: the pages the kernel itself has taken. -/
def boot (c : Board) (n : Nat) (initcode : List UInt8) : P (List Nat) := do
  onVm (kinit c)
  let ps ← onVm (bootAlloc n)
  userinit c initcode
  pure ps

def Sys.zero (mem : Nat → Page) : Sys where
  vm := ⟨mem, [], false⟩
  proc _ := ⟨.unused, 0, none, 0, 0, 0, 0, fun _ => none, []⟩
  file _ := ⟨.none, 0, false, 0⟩
  nextpid := 1
  initproc := 0

end ZeptOS.Mem
