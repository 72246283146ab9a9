import ZeptOS.Fs.Code

/-!
# The file-system calls

`kernel/file.c`, `kernel/sysfile.c`, and of `kernel/exec.c`, `kernel/pipe.c` and `kernel/proc.c` what
has to do with files and inodes. A string argument is what `argstr` has found, or `none`.

What `exec` does to memory is asked of outside (`Memory`) and is in `Mem`. `fork` and `exit` are here as
far as they move references; how the states of processes change meanwhile is in `Sched`.
-/

namespace ZeptOS.Fs

open Lib

def filealloc : FsM (Option FileNo) := op .filealloc
def filedup (f : FileNo) : FsM Unit := op (.filedup f)
def filecloseRef (f : FileNo) : FsM (Option File) := op (.filecloseRef f)
def file (f : FileNo) : FsM File := op (.file f)
def setFile (f : FileNo) (x : File) : FsM Unit := op (.setFile f x)
def setOff (f : FileNo) (off : Nat) : FsM Unit := op (.setOff f off)
def pipeKalloc : FsM (Option Nat) := op .pipeKalloc
def pipeclose (pi : Nat) (writable : Bool) : FsM Unit := op (.pipeclose pi writable)
def pipeIo (write : Bool) (pi addr : Nat) (n : Int) : FsM Int := op (.pipeIo write pi addr n)
def devIo (write : Bool) (major addr : Nat) (n : Int) : FsM Int := op (.devIo write major addr n)
def ofile (fd : Nat) : FsM (Option FileNo) := op (.ofile fd)
def setOfile (fd : Nat) (f : Option FileNo) : FsM Unit := op (.setOfile fd f)
def setCwd (ip : Option Slot) : FsM Unit := op (.setCwd ip)
def copyout (dst : Nat) (bs : List UInt8) : FsM Bool := op (.copyout dst bs)
def memory (m : Memory) : FsM Bool := op (.memory m)

abbrev O_WRONLY : Nat := 0x001
abbrev O_RDWR : Nat := 0x002
abbrev O_CREATE : Nat := 0x200
abbrev O_TRUNC : Nat := 0x400

section Calls

variable (sb : Superblock)

/-! ## `file.c` -/

def fileclose (f : FileNo) : FsM Unit := do
  match ← filecloseRef f with
  | none => pure ()
  | some ff =>
    if ff.type = .pipe then pipeclose ff.pipe ff.writable
    else if ff.type = .inode ∨ ff.type = .device then
      beginOp
      iput sb ff.ip
      endOp
    else pure ()

/-- `stati`: the bytes of a `struct stat`. Its padding, which is never set, is 0 here. -/
def stati (ip : Slot) : FsM (List UInt8) := do
  let i ← ident ip
  let d := (← node ip).d
  let st := (Bytes.fill 0).st 0 4 i.dev |>.st 4 4 i.inum |>.st 8 2 d.type |>.st 10 2 d.nlink
    |>.st 16 8 d.size
  pure (st.slice 0 24)

def filestat (f : FileNo) (addr : Nat) : FsM Int := do
  let x ← file f
  if x.type = .inode ∨ x.type = .device then
    ilock sb x.ip
    let st ← stati x.ip
    iunlock x.ip
    if (← copyout addr st) = true then pure 0 else pure (-1)
  else pure (-1)

def badMajor (major : Nat) : Bool := short major < 0 ∨ short major ≥ NDEV

/-- `fileread`. A negative `n` goes to `readi` as an unsigned number. -/
def fileread (f : FileNo) (addr : Nat) (n : Int) : FsM Int := do
  let x ← file f
  if x.readable = false then pure (-1)
  else
    match x.type with
    | .pipe => pipeIo false x.pipe addr n
    | .device => if badMajor x.major then pure (-1) else devIo false x.major addr n
    | .inode => do
      ilock sb x.ip
      -- f->ip stays what it is while f is open; f->off belongs to the lock of the inode
      let off := (← file f).off
      let r ← readi sb x.ip (.user addr) off (n % 2 ^ 32).toNat
      when (r.1 > 0) (setOff f ((off + r.1.toNat) % 2 ^ 32))
      iunlock x.ip
      pure r.1
    | .none => panic .fileread

abbrev maxWrite : Nat := (MAXOPBLOCKS - 1 - 1 - 2) / 2 * BSIZE

/-- The loop of `filewrite`, where `f->ip` is `ip`. It returns `i`. -/
def filewriteFrom (f : FileNo) (ip : Slot) (addr n : Nat) : Nat → Nat → FsM Nat
  | 0, i => pure i
  | fuel + 1, i =>
    if i < n then do
      let n1 := min (n - i) maxWrite
      beginOp
      ilock sb ip
      let off := (← file f).off
      let r ← writei sb ip (.user (addr + i)) off n1
      when (r > 0) (setOff f ((off + r.toNat) % 2 ^ 32))
      iunlock ip
      endOp
      if r ≠ n1 then pure i else filewriteFrom f ip addr n fuel (i + n1)
    else pure i

def filewrite (f : FileNo) (addr : Nat) (n : Int) : FsM Int := do
  let x ← file f
  if x.writable = false then pure (-1)
  else
    match x.type with
    | .pipe => pipeIo true x.pipe addr n
    | .device => if badMajor x.major then pure (-1) else devIo true x.major addr n
    | .inode => do
      let i ← filewriteFrom sb f x.ip addr n.toNat n.toNat 0
      pure (if (i : Int) = n then n else -1)
    | .none => panic .filewrite

/-! ## `sysfile.c` -/

def argfd (fd : Int) : FsM (Option FileNo) :=
  if fd < 0 ∨ fd ≥ NOFILE then pure none else ofile fd.toNat

def fdallocFrom (f : FileNo) : Nat → Nat → FsM (Option Nat)
  | 0, _ => pure none
  | n + 1, fd => do
    match ← ofile fd with
    | none =>
      setOfile fd (some f)
      pure (some fd)
    | some _ => fdallocFrom f n (fd + 1)

def fdalloc (f : FileNo) : FsM (Option Nat) := fdallocFrom f NOFILE 0

def sysDup (fd : Int) : FsM Int := do
  match ← argfd fd with
  | none => pure (-1)
  | some f =>
    match ← fdalloc f with
    | none => pure (-1)
    | some fd =>
      filedup f
      pure fd

def sysRead (fd : Int) (addr : Nat) (n : Int) : FsM Int := do
  match ← argfd fd with
  | none => pure (-1)
  | some f => fileread sb f addr n

def sysWrite (fd : Int) (addr : Nat) (n : Int) : FsM Int := do
  match ← argfd fd with
  | none => pure (-1)
  | some f => filewrite sb f addr n

def sysClose (fd : Int) : FsM Int := do
  match ← argfd fd with
  | none => pure (-1)
  | some f =>
    setOfile fd.toNat none
    fileclose sb f
    pure 0

def sysFstat (fd : Int) (addr : Nat) : FsM Int := do
  match ← argfd fd with
  | none => pure (-1)
  | some f => filestat sb f addr

def linkBad (ip : Slot) : FsM Int := do
  ilock sb ip
  modifyNode ip fun d => { d with nlink := (d.nlink + (2 ^ 16 - 1)) % 2 ^ 16 }
  iupdate sb ip
  iunlockput sb ip
  endOp
  pure (-1)

def sysLink (old new : Option (List UInt8)) : FsM Int := do
  match old, new with
  | some old, some new =>
    beginOp
    match ← namei sb old with
    | none =>
      endOp
      pure (-1)
    | some ip =>
      ilock sb ip
      if (← node ip).d.type = T_DIR then
        iunlockput sb ip
        endOp
        pure (-1)
      else
        modifyNode ip fun d => { d with nlink := (d.nlink + 1) % 2 ^ 16 }
        iupdate sb ip
        iunlock ip
        match ← nameiparent sb new with
        | none => linkBad sb ip
        | some (dp, name) =>
          ilock sb dp
          let i ← ident ip
          if (← ident dp).dev ≠ i.dev then
            iunlockput sb dp
            linkBad sb ip
          else if (← dirlink sb dp name i.inum) = false then
            iunlockput sb dp
            linkBad sb ip
          else
            iunlockput sb dp
            iput sb ip
            endOp
            pure 0
  | _, _ => pure (-1)

def isdiremptyFrom (dp : Slot) : Nat → Nat → FsM Bool
  | 0, _ => pure true
  | fuel + 1, off => do
    if off < (← node dp).d.size then
      let de ← readDirent sb .isdirempty dp off
      if de.inum ≠ 0 then pure false else isdiremptyFrom dp fuel (off + 16)
    else pure true

def isdirempty (dp : Slot) : FsM Bool := do
  isdiremptyFrom sb dp ((← node dp).d.size / 16 + 1) 32

def dot : List UInt8 := [46]
def dotdot : List UInt8 := [46, 46]

def unlinkBad (dp : Slot) : FsM Int := do
  iunlockput sb dp
  endOp
  pure (-1)

/-- `!(ip->type == T_DIR && !isdirempty(ip))`. Only a directory is read. -/
def removable (ip : Slot) (type : Nat) : FsM Bool :=
  if type = T_DIR then isdirempty sb ip else pure true

def unlinkEntry (dp ip : Slot) (off type : Nat) : FsM Int := do
  if (← writei sb dp (.kernel fun _ => 0) off 16) ≠ 16 then panic .unlinkWritei
  else
    when (type = T_DIR) do
      modifyNode dp fun d => { d with nlink := (d.nlink + (2 ^ 16 - 1)) % 2 ^ 16 }
      iupdate sb dp
    iunlockput sb dp
    modifyNode ip fun d => { d with nlink := (d.nlink + (2 ^ 16 - 1)) % 2 ^ 16 }
    iupdate sb ip
    iunlockput sb ip
    endOp
    pure 0

def unlinkIn (dp : Slot) (name : List UInt8) : FsM Int := do
  -- Cannot unlink "." or "..".
  if namecmp name dot = 0 ∨ namecmp name dotdot = 0 then unlinkBad sb dp
  else
    match ← dirlookup sb dp name with
    | none => unlinkBad sb dp
    | some (ip, off) =>
      ilock sb ip
      let d := (← node ip).d
      if short d.nlink < 1 then panic .unlinkNlink
      else if (← removable sb ip d.type) = false then
        iunlockput sb ip
        unlinkBad sb dp
      else unlinkEntry sb dp ip off d.type

def sysUnlink (path : Option (List UInt8)) : FsM Int := do
  match path with
  | none => pure (-1)
  | some path =>
    beginOp
    match ← nameiparent sb path with
    | none =>
      endOp
      pure (-1)
    | some (dp, name) =>
      ilock sb dp
      unlinkIn sb dp name

def createFail (dp ip : Slot) : FsM (Option Slot) := do
  modifyNode ip fun d => { d with nlink := 0 }
  iupdate sb ip
  iunlockput sb ip
  iunlockput sb dp
  pure none

/-- `create`: the entries `.` and `..` of a new directory. `false` is `fail`. -/
def createDots (dp ip : Slot) (type : Nat) : FsM Bool :=
  if type = T_DIR then do
    -- No ip->nlink++ for ".": avoid cyclic ref count.
    if (← dirlink sb ip dot (← ident ip).inum) = false then pure false
    else dirlink sb ip dotdot (← ident dp).inum
  else pure true

/-- `create`, when there is no such name in `dp`, with the new inode locked. -/
def createNew (dp ip : Slot) (name : List UInt8) (type major minor : Nat) : FsM (Option Slot) := do
  modifyNode ip fun d => { d with major, minor, nlink := 1 }
  iupdate sb ip
  if (← createDots sb dp ip type) = false then createFail sb dp ip
  else if (← dirlink sb dp name (← ident ip).inum) = false then createFail sb dp ip
  else
    when (type = T_DIR) do
      -- now that success is guaranteed: for ".."
      modifyNode dp fun d => { d with nlink := (d.nlink + 1) % 2 ^ 16 }
      iupdate sb dp
    iunlockput sb dp
    pure (some ip)

def create (path : List UInt8) (type major minor : Nat) : FsM (Option Slot) := do
  match ← nameiparent sb path with
  | none => pure none
  | some (dp, name) =>
    ilock sb dp
    match ← dirlookup sb dp name with
    | some (ip, _) =>
      iunlockput sb dp
      ilock sb ip
      let t := (← node ip).d.type
      if type = T_FILE ∧ (t = T_FILE ∨ t = T_DEVICE) then pure (some ip)
      else
        iunlockput sb ip
        pure none
    | none =>
      match ← ialloc sb (← ident dp).dev type with
      | none =>
        iunlockput sb dp
        pure none
      | some ip =>
        ilock sb ip
        createNew sb dp ip name type major minor

def openInode (ip : Slot) (omode : Nat) : FsM Int := do
  let d := (← node ip).d
  if d.type = T_DEVICE ∧ badMajor d.major then
    iunlockput sb ip
    endOp
    pure (-1)
  else
    match ← filealloc with
    | none =>
      iunlockput sb ip
      endOp
      pure (-1)
    | some f =>
      match ← fdalloc f with
      | none =>
        fileclose sb f
        iunlockput sb ip
        endOp
        pure (-1)
      | some fd =>
        let x ← file f
        let x := if d.type = T_DEVICE then { x with type := .device, major := d.major }
          else { x with type := .inode, off := 0 }
        setFile f { x with
          ip := ip
          readable := omode &&& O_WRONLY = 0
          writable := omode &&& O_WRONLY ≠ 0 ∨ omode &&& O_RDWR ≠ 0 }
        when (omode &&& O_TRUNC ≠ 0 ∧ d.type = T_FILE) (itrunc sb ip)
        iunlock ip
        endOp
        pure fd

def sysOpen (path : Option (List UInt8)) (omode : Nat) : FsM Int := do
  match path with
  | none => pure (-1)
  | some path =>
    beginOp
    if omode &&& O_CREATE ≠ 0 then
      match ← create sb path T_FILE 0 0 with
      | none =>
        endOp
        pure (-1)
      | some ip => openInode sb ip omode
    else
      match ← namei sb path with
      | none =>
        endOp
        pure (-1)
      | some ip =>
        ilock sb ip
        if (← node ip).d.type = T_DIR ∧ omode ≠ 0 then
          iunlockput sb ip
          endOp
          pure (-1)
        else openInode sb ip omode

/-- `sys_mkdir` and `sys_mknod`, which make their inode and let it go. -/
def sysCreate (path : Option (List UInt8)) (type major minor : Nat) : FsM Int := do
  beginOp
  match path with
  | none =>
    endOp
    pure (-1)
  | some path =>
    match ← create sb path type major minor with
    | none =>
      endOp
      pure (-1)
    | some ip =>
      iunlockput sb ip
      endOp
      pure 0

def sysMkdir (path : Option (List UInt8)) : FsM Int := sysCreate sb path T_DIR 0 0

def sysMknod (path : Option (List UInt8)) (major minor : Nat) : FsM Int :=
  sysCreate sb path T_DEVICE (major % 2 ^ 16) (minor % 2 ^ 16)

def sysChdir (path : Option (List UInt8)) : FsM Int := do
  beginOp
  match path with
  | none =>
    endOp
    pure (-1)
  | some path =>
    match ← namei sb path with
    | none =>
      endOp
      pure (-1)
    | some ip =>
      ilock sb ip
      if (← node ip).d.type ≠ T_DIR then
        iunlockput sb ip
        endOp
        pure (-1)
      else
        iunlock ip
        iput sb (← cwd)
        endOp
        setCwd (some ip)
        pure 0

def pipealloc : FsM (Option (FileNo × FileNo)) := do
  match ← filealloc with
  | none => pure none
  | some f₀ =>
    match ← filealloc with
    | none =>
      fileclose sb f₀
      pure none
    | some f₁ =>
      match ← pipeKalloc with
      | none =>
        fileclose sb f₀
        fileclose sb f₁
        pure none
      | some pi =>
        let x₀ ← file f₀
        setFile f₀ { x₀ with type := .pipe, readable := true, writable := false, pipe := pi }
        let x₁ ← file f₁
        setFile f₁ { x₁ with type := .pipe, readable := false, writable := true, pipe := pi }
        pure (some (f₀, f₁))

def intBytes (n : Nat) : List UInt8 := (Bytes.fill 0).st 0 4 n |>.slice 0 4

def copyoutFds (fdarray fd₀ fd₁ : Nat) : FsM Bool := do
  if (← copyout fdarray (intBytes fd₀)) = false then pure false
  else copyout (fdarray + 4) (intBytes fd₁)

def sysPipe (fdarray : Nat) : FsM Int := do
  match ← pipealloc sb with
  | none => pure (-1)
  | some (rf, wf) =>
    match ← fdalloc rf with
    | none =>
      fileclose sb rf
      fileclose sb wf
      pure (-1)
    | some fd₀ =>
      match ← fdalloc wf with
      | none =>
        setOfile fd₀ none
        fileclose sb rf
        fileclose sb wf
        pure (-1)
      | some fd₁ =>
        if (← copyoutFds fdarray fd₀ fd₁) = false then
          setOfile fd₀ none
          setOfile fd₁ none
          fileclose sb rf
          fileclose sb wf
          pure (-1)
        else pure 0

/-! ## `exec.c` -/

/-- A read of `n` bytes into a kernel structure, or `none`. -/
def readStruct (ip : Slot) (off n : Nat) : FsM (Option Bytes) := do
  let r ← readi sb ip .kernel (off % 2 ^ 32) n
  if r.1 ≠ n then pure none else pure (some fun k => r.2.getD k 0)

def loadsegFrom (ip : Slot) (offset sz : Nat) : Nat → Nat → FsM Bool
  | 0, _ => pure true
  | fuel + 1, i =>
    if i < sz then do
      if (← memory .walkaddr) = false then panic .loadseg
      else
        let n := if sz - i < 4096 then sz - i else 4096
        if (← readStruct sb ip (offset + i) n).isNone then pure false
        else loadsegFrom ip offset sz fuel (i + 4096)
    else pure true

def loadseg (ip : Slot) (va offset sz : Nat) : FsM Bool := do
  if va % 4096 ≠ 0 then
    let pgleft := 4096 - va % 4096
    if (← memory .walkaddr) = false then panic .loadseg
    else
      let n := min pgleft sz
      if (← readStruct sb ip offset n).isNone then pure false
      else if sz ≤ pgleft then pure true
      else loadsegFrom sb ip offset sz (sz / 4096 + 1) n
  else loadsegFrom sb ip offset sz (sz / 4096 + 1) 0

/-- The body of the loop of `exec`, for the program header `ph`. `false` is `bad`. -/
def execSegment (ip : Slot) (ph : Bytes) : FsM Bool := do
  let vaddr := ph.ld 16 8
  let memsz := ph.ld 40 8
  if ph.ld 0 4 ≠ 1 then pure true
  else if memsz < ph.ld 32 8 then pure false
  else if (vaddr + memsz) % 2 ^ 64 < vaddr then pure false
  else if (← memory .uvmalloc) = false then pure false
  else loadseg sb ip vaddr (ph.ld 8 8 % 2 ^ 32) (ph.ld 32 8 % 2 ^ 32)

def execSegments (ip : Slot) : Nat → Nat → FsM Bool
  | 0, _ => pure true
  | n + 1, off => do
    match ← readStruct sb ip off 56 with
    | none => pure false
    | some ph =>
      if (← execSegment sb ip ph) = false then pure false else execSegments ip n (off + 56)

def execImage (ip : Slot) : FsM Bool := do
  match ← readStruct sb ip 0 64 with
  | none => pure false
  | some elf =>
    if elf.ld 0 4 ≠ 0x464C457F then pure false
    else if (← memory .procPagetable) = false then pure false
    else execSegments sb ip (elf.ld 56 2) (elf.ld 32 8)

/-- `exec` with `argc` arguments, without what it does to the process. -/
def exec (path : List UInt8) (argc : Nat) : FsM Int := do
  beginOp
  match ← namei sb path with
  | none =>
    endOp
    pure (-1)
  | some ip =>
    ilock sb ip
    if (← execImage sb ip) = false then
      iunlockput sb ip
      endOp
      pure (-1)
    else
      iunlockput sb ip
      endOp
      -- the stack
      if (← memory .uvmalloc) = false then pure (-1)
      else if (← memory .pushStrings) = false then pure (-1)
      else if (← memory .pushArgv) = false then pure (-1)
      else pure argc

/-- `sys_exec`: `argc` is how many arguments were fetched, or `none` for its `bad`. -/
def sysExec (path : Option (List UInt8)) (argc : Option Nat) : FsM Int := do
  match path, argc with
  | some path, some argc => exec sb path argc
  | _, _ => pure (-1)

/-! ## `proc.c` -/

/-- The loop of `fork` over the open files, with `n` descriptors left. -/
def forkFiles (np : Proc) : Nat → Nat → FsM Unit
  | 0, _ => pure ()
  | n + 1, fd => do
    match ← ofile fd with
    | none => forkFiles np n (fd + 1)
    | some f =>
      filedup f
      op (.childOfile np fd f)
      forkFiles np n (fd + 1)

def fork : FsM Int := do
  match ← (op .allocproc : FsM (Option (Proc × Nat))) with
  | none => pure (-1)
  | some (np, pid) =>
    forkFiles np NOFILE 0
    let ip ← idup (← cwd)
    op (.childCwd np ip)
    op (.runnable np)
    pure pid

/-- The loop of `exit` over the open files, with `n` descriptors left. -/
def exitFiles : Nat → Nat → FsM Unit
  | 0, _ => pure ()
  | n + 1, fd => do
    match ← ofile fd with
    | none => exitFiles n (fd + 1)
    | some f =>
      fileclose sb f
      setOfile fd none
      exitFiles n (fd + 1)

/-- `exit`, as far as files go. `init` is whether the process is `initproc`. -/
def exit (init : Bool) : FsM Unit := do
  if init then panic .initExiting
  else
    exitFiles sb NOFILE 0
    beginOp
    iput sb (← cwd)
    endOp
    setCwd none
    op .zombie

end Calls

end ZeptOS.Fs
