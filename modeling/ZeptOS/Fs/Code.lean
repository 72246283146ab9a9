import ZeptOS.Fs.Layout
import ZeptOS.Lib.Code

/-!
# The file system's code

`kernel/fs.c`, function by function, as code over the operations it has no part in: buffers and
transactions, the sections under `itable.lock`, the sleep locks of the inodes and what they protect.
A section under a spin lock is one operation, because nothing comes in between.

What a `struct inode` holds is in two parts. `dev`, `inum` and `ref` belong to `itable.lock`
(`Ident`); the rest, which belongs to the inode's own lock, is `Node`. Block numbers are asked for
without the device, as the driver does it.

`sb` is the superblock that `fsinit` has read.
-/

namespace ZeptOS.Fs

open Lib

/-! ## Operations -/

/-- An entry of `itable`, which is what a `struct inode *` is. -/
abbrev Slot := Fin NINODE

/-- A slot of `ftable`, which is what a `struct file *` is. -/
abbrev FileNo := Fin NFILE

/-- An entry of `proc`, which is what a `struct proc *` is. -/
abbrev Proc := Fin NPROC

structure Ident where
  dev : Nat
  inum : Nat
  ref : Int

structure Node where
  valid : Bool
  d : Dinode

inductive FdType where
  | none
  | pipe
  | inode
  | device
  deriving DecidableEq

structure File where
  type : FdType
  ref : Int
  readable : Bool
  writable : Bool
  pipe : Nat
  ip : Slot
  off : Nat
  major : Nat

inductive Panic where
  -- fs.c
  | freeingFree | igetNoInodes | ilock | ilockNoType | iunlock | bmapRange | dirlookupNotDir
  | dirlookupRead | dirlinkRead
  -- sysfile.c, file.c, exec.c
  | isdirempty | unlinkNlink | unlinkWritei | filedup | fileclose | fileread | filewrite | loadseg
  | initExiting
  -- log.c, bio.c
  | outsideTrans | brelse
  /-- a process waits for a lock that it has, or for its own transaction -/
  | deadlock
  /-- a loop that does not end -/
  | hang
  deriving DecidableEq

inductive Fn where
  | itrunc
  | writei
  deriving DecidableEq

/-- What the rest of the kernel is asked to do for `exec`. -/
inductive Memory where
  | procPagetable
  | uvmalloc
  | walkaddr
  | pushStrings
  | pushArgv
  deriving DecidableEq

inductive Op where
  | panic (e : Panic)
  | enter (f : Fn)                       -- a call of f, which does nothing by itself
  -- bio.c and log.c
  | bread (b : Nat)
  | bstore (b : Nat) (data : Block)      -- writes to bp->data
  | logWrite (b : Nat)
  | brelse (b : Nat)
  | beginOp
  | endOp
  -- with itable.lock
  | iget (dev inum : Nat)
  | idup (ip : Slot)
  | iputTest (ip : Slot)                 -- iput, up to its first release
  | iputDrop (ip : Slot)                 -- iput, from its second acquire
  | ident (ip : Slot)
  -- with the lock of the inode
  | acquiresleep (ip : Slot)
  | releasesleep (ip : Slot)
  | holdingsleep (ip : Slot)
  | node (ip : Slot)
  | setNode (ip : Slot) (n : Node)
  -- with ftable.lock
  | filealloc
  | filedup (f : FileNo)
  | filecloseRef (f : FileNo)            -- fileclose, up to its release: *f if it was the last
  | file (f : FileNo)
  | setFile (f : FileNo) (x : File)      -- every field but ref
  | setOff (f : FileNo) (off : Nat)
  -- pipe.c
  | pipeKalloc                           -- kalloc and the fields of the pipe
  | pipeclose (pi : Nat) (writable : Bool)
  | pipeIo (write : Bool) (pi addr : Nat) (n : Int)
  | devIo (write : Bool) (major addr : Nat) (n : Int)     -- devsw[major].read or write, -1 if 0
  -- the process
  | ofile (fd : Nat)
  | setOfile (fd : Nat) (f : Option FileNo)
  | cwd
  | setCwd (ip : Option Slot)
  | allocproc                            -- with uvmcopy: the entry of proc and its pid
  | childOfile (np : Proc) (fd : Nat) (f : FileNo)
  | childCwd (np : Proc) (ip : Slot)
  | runnable (np : Proc)
  | zombie
  -- its memory
  | copyin (src n : Nat)
  | copyout (dst : Nat) (bs : List UInt8)
  | memory (m : Memory)

/-- What `copyin` answers: the bytes at the source and, if it has failed, how many of them it had
copied by then. -/
structure Copied where
  bytes : Bytes
  fault : Option Nat
  deriving Inhabited

def Op.Ans : Op → Type
  | .panic _ => Empty
  | .bread _ => Block
  | .iget _ _ => Slot
  | .iputTest _ => Bool
  | .ident _ => Ident
  | .holdingsleep _ => Bool
  | .node _ => Node
  | .filealloc => Option FileNo
  | .filecloseRef _ => Option File
  | .file _ => File
  | .pipeKalloc => Option Nat
  | .pipeIo _ _ _ _ => Int
  | .devIo _ _ _ _ => Int
  | .ofile _ => Option FileNo
  | .cwd => Slot
  | .allocproc => Option (Proc × Nat)
  | .copyin _ _ => Copied
  | .copyout _ _ => Bool
  | .memory _ => Bool
  | _ => Unit

abbrev sig : Sig := ⟨Op, Op.Ans⟩

abbrev FsM := Code sig

def op (o : Op) : FsM o.Ans := Code.call (S := sig) o

def panic {α : Type} (e : Panic) : FsM α := .op (S := sig) (.panic e) nofun

def bread (b : Nat) : FsM Block := op (.bread b)
def bstore (b : Nat) (data : Block) : FsM Unit := op (.bstore b data)
def logWrite (b : Nat) : FsM Unit := op (.logWrite b)
def brelse (b : Nat) : FsM Unit := op (.brelse b)
def beginOp : FsM Unit := op .beginOp
def endOp : FsM Unit := op .endOp
def enter (f : Fn) : FsM Unit := op (.enter f)
def ident (ip : Slot) : FsM Ident := op (.ident ip)
def iputTest (ip : Slot) : FsM Bool := op (.iputTest ip)
def iputDrop (ip : Slot) : FsM Unit := op (.iputDrop ip)
def acquiresleep (ip : Slot) : FsM Unit := op (.acquiresleep ip)
def releasesleep (ip : Slot) : FsM Unit := op (.releasesleep ip)
def holdingsleep (ip : Slot) : FsM Bool := op (.holdingsleep ip)
def cwd : FsM Slot := op .cwd
def node (ip : Slot) : FsM Node := op (.node ip)
def setNode (ip : Slot) (n : Node) : FsM Unit := op (.setNode ip n)

/-- `if(c) x;` -/
def when (c : Prop) [Decidable c] (x : FsM Unit) : FsM Unit := if c then x else pure ()

def modifyNode (ip : Slot) (f : Dinode → Dinode) : FsM Unit := do
  let n ← node ip
  setNode ip { n with d := f n.d }

section Code

variable (sb : Superblock)

/-! ## Blocks -/

def bzero (bno : Nat) : FsM Unit := do
  let _ ← bread bno
  bstore bno (Bytes.fill 0)
  logWrite bno
  brelse bno

/-- The inner loop of `balloc`: the first of `n` bits from `bi` on that is clear. -/
def freeBit (data : Block) : Nat → Nat → Option Nat
  | 0, _ => none
  | n + 1, bi => if bit data bi then freeBit data n (bi + 1) else some bi

def ballocFrom : Nat → Nat → FsM Nat
  | 0, _ => pure 0
  | fuel + 1, b =>
    if b < sb.size then do
      let data ← bread (sb.bblock b)
      -- bi < BPB && b + bi < sb.size
      match freeBit data (min BPB (sb.size - b)) 0 with
      | some bi =>
        bstore (sb.bblock b) (setBit data bi)
        logWrite (sb.bblock b)
        brelse (sb.bblock b)
        bzero (b + bi)
        pure (b + bi)
      | none =>
        brelse (sb.bblock b)
        ballocFrom fuel (b + BPB)
    else pure 0

def balloc : FsM Nat := ballocFrom sb (sb.size / BPB + 1) 0

def bfree (b : Nat) : FsM Unit := do
  let data ← bread (sb.bblock b)
  let bi := b % BPB
  if bit data bi = false then panic .freeingFree
  else
    bstore (sb.bblock b) (clearBit data bi)
    logWrite (sb.bblock b)
    brelse (sb.bblock b)

/-! ## Inodes -/

def iget (dev inum : Nat) : FsM Slot := op (.iget dev inum)

def idup (ip : Slot) : FsM Slot := do
  op (.idup ip)
  pure ip

def iallocFrom (dev type : Nat) : Nat → Nat → FsM (Option Slot)
  | 0, _ => pure none
  | n + 1, inum => do
    let data ← bread (sb.iblock inum)
    if (Dinode.load data (inum % IPB)).type = 0 then
      -- a free inode
      bstore (sb.iblock inum) (Dinode.store data (inum % IPB) { Dinode.zero with type })
      logWrite (sb.iblock inum)
      brelse (sb.iblock inum)
      some <$> iget dev inum
    else
      brelse (sb.iblock inum)
      iallocFrom dev type n (inum + 1)

def ialloc (dev type : Nat) : FsM (Option Slot) := iallocFrom sb dev type (sb.ninodes - 1) 1

def iupdate (ip : Slot) : FsM Unit := do
  let inum := (← ident ip).inum
  let data ← bread (sb.iblock inum)
  let n ← node ip
  bstore (sb.iblock inum) (Dinode.store data (inum % IPB) n.d)
  logWrite (sb.iblock inum)
  brelse (sb.iblock inum)

def ilockRead (ip : Slot) : FsM Unit := do
  if (← node ip).valid then pure ()
  else
    let inum := (← ident ip).inum
    let data ← bread (sb.iblock inum)
    let d := Dinode.load data (inum % IPB)
    setNode ip ⟨false, d⟩
    brelse (sb.iblock inum)
    setNode ip ⟨true, d⟩
    if d.type = 0 then panic .ilockNoType else pure ()

def ilock (ip : Slot) : FsM Unit := do
  if (← ident ip).ref < 1 then panic .ilock
  else
    acquiresleep ip
    ilockRead sb ip

def iunlock (ip : Slot) : FsM Unit := do
  if (← holdingsleep ip) = false then panic .iunlock
  else if (← ident ip).ref < 1 then panic .iunlock
  else releasesleep ip

/-! ## Inode content -/

def bmapIndirect (addr bn : Nat) : FsM Nat := do
  let data ← bread addr
  let a := word data bn
  if a = 0 then
    let a ← balloc sb
    when (a ≠ 0) do
      bstore addr (setWord data bn a)
      logWrite addr
    brelse addr
    pure a
  else
    brelse addr
    pure a

def bmap (ip : Slot) (bn : Nat) : FsM Nat := do
  if bn < NDIRECT then
    let addr := (← node ip).d.addrs bn
    if addr = 0 then
      let addr ← balloc sb
      if addr = 0 then pure 0
      else
        modifyNode ip fun d => { d with addrs := Function.update d.addrs bn addr }
        pure addr
    else pure addr
  else if bn - NDIRECT < NINDIRECT then
    -- Load indirect block, allocating if necessary.
    let addr := (← node ip).d.addrs NDIRECT
    if addr = 0 then
      let addr ← balloc sb
      if addr = 0 then pure 0
      else
        modifyNode ip fun d => { d with addrs := Function.update d.addrs NDIRECT addr }
        bmapIndirect sb addr (bn - NDIRECT)
    else bmapIndirect sb addr (bn - NDIRECT)
  else panic .bmapRange

def itruncDirect (ip : Slot) : Nat → Nat → FsM Unit
  | 0, _ => pure ()
  | n + 1, i => do
    let addr := (← node ip).d.addrs i
    when (addr ≠ 0) do
      bfree sb addr
      modifyNode ip fun d => { d with addrs := Function.update d.addrs i 0 }
    itruncDirect ip n (i + 1)

def itruncIndirect (data : Block) : Nat → Nat → FsM Unit
  | 0, _ => pure ()
  | n + 1, j => do
    when (word data j ≠ 0) (bfree sb (word data j))
    itruncIndirect data n (j + 1)

def itrunc (ip : Slot) : FsM Unit := do
  enter .itrunc
  itruncDirect sb ip NDIRECT 0
  let addr := (← node ip).d.addrs NDIRECT
  when (addr ≠ 0) do
    let data ← bread addr
    itruncIndirect sb data NINDIRECT 0
    brelse addr
    bfree sb addr
    modifyNode ip fun d => { d with addrs := Function.update d.addrs NDIRECT 0 }
  modifyNode ip fun d => { d with size := 0 }
  iupdate sb ip

def iput (ip : Slot) : FsM Unit := do
  if (← iputTest ip) = true then
    -- inode has no links and no other references: truncate and free.
    itrunc sb ip
    modifyNode ip fun d => { d with type := 0 }
    iupdate sb ip
    let n ← node ip
    setNode ip { n with valid := false }
    releasesleep ip
    iputDrop ip
  else pure ()

def iunlockput (ip : Slot) : FsM Unit := do
  iunlock ip
  iput sb ip

inductive Dst where
  | kernel
  | user (dst : Nat)

inductive Src where
  | kernel (bs : Bytes)
  | user (src : Nat)

def eitherCopyout (dst : Dst) (tot : Nat) (bs : List UInt8) : FsM Bool :=
  match dst with
  | .kernel => pure true
  | .user a => op (.copyout (a + tot) bs)

def eitherCopyin (src : Src) (tot m : Nat) : FsM Copied :=
  match src with
  | .kernel bs => pure ⟨fun k => bs (tot + k), none⟩
  | .user a => op (.copyin (a + tot) m)

/-- The loop of `readi`. Returns `tot`, or -1, and what has been copied. -/
def readiFrom (ip : Slot) (dst : Dst) (n : Nat) :
    Nat → Nat → Nat → List UInt8 → FsM (Int × List UInt8)
  | 0, tot, _, acc => pure (tot, acc)
  | fuel + 1, tot, off, acc =>
    if tot < n then do
      let addr ← bmap sb ip (off / BSIZE)
      if addr = 0 then pure (tot, acc)
      else
        let data ← bread addr
        let m := min (n - tot) (BSIZE - off % BSIZE)
        let bs := data.slice (off % BSIZE) m
        if (← eitherCopyout dst tot bs) = true then
          brelse addr
          readiFrom ip dst n fuel (tot + m) (off + m) (acc ++ bs)
        else
          brelse addr
          pure (-1, acc)
    else pure (tot, acc)

def readi (ip : Slot) (dst : Dst) (off n : Nat) : FsM (Int × List UInt8) := do
  let size := (← node ip).d.size
  if off > size ∨ (off + n) % 2 ^ 32 < off then pure (0, [])
  else
    let n := if off + n > size then size - off else n
    readiFrom sb ip dst n n 0 off []

def writeiFrom (ip : Slot) (src : Src) (n : Nat) : Nat → Nat → Nat → FsM (Nat × Nat)
  | 0, tot, off => pure (tot, off)
  | fuel + 1, tot, off =>
    if tot < n then do
      let addr ← bmap sb ip (off / BSIZE)
      if addr = 0 then pure (tot, off)
      else
        let data ← bread addr
        let m := min (n - tot) (BSIZE - off % BSIZE)
        let c ← eitherCopyin src tot m
        match c.fault with
        | some k =>
          -- what was copied stays in the buffer
          bstore addr (data.blit (off % BSIZE) (c.bytes.slice 0 (min k m)))
          brelse addr
          pure (tot, off)
        | none =>
          bstore addr (data.blit (off % BSIZE) (c.bytes.slice 0 m))
          logWrite addr
          brelse addr
          writeiFrom ip src n fuel (tot + m) (off + m)
    else pure (tot, off)

def writei (ip : Slot) (src : Src) (off n : Nat) : FsM Int := do
  enter .writei
  let size := (← node ip).d.size
  if off > size ∨ (off + n) % 2 ^ 32 < off then pure (-1)
  else if off + n > MAXFILE * BSIZE then pure (-1)
  else
    let r ← writeiFrom sb ip src n n 0 off
    when (r.2 > (← node ip).d.size) (modifyNode ip fun d => { d with size := r.2 })
    iupdate sb ip
    pure r.1

/-! ## Directories -/

def readDirent (e : Panic) (dp : Slot) (off : Nat) : FsM Dirent := do
  let r ← readi sb dp .kernel off 16
  if r.1 ≠ 16 then panic e else pure (Dirent.decode r.2)

/-- The loop of `dirlookup`. Returns the number and the offset of the entry. -/
def dirlookupFrom (dp : Slot) (name : List UInt8) : Nat → Nat → FsM (Option (Nat × Nat))
  | 0, _ => pure none
  | fuel + 1, off => do
    if off < (← node dp).d.size then
      let de ← readDirent sb .dirlookupRead dp off
      if de.inum = 0 then dirlookupFrom dp name fuel (off + 16)
      else if namecmp name de.name = 0 then pure (some (de.inum, off))
      else dirlookupFrom dp name fuel (off + 16)
    else pure none

/-- `dirlookup`. Returns the inode and `*poff`. -/
def dirlookup (dp : Slot) (name : List UInt8) : FsM (Option (Slot × Nat)) := do
  let d := (← node dp).d
  if d.type ≠ T_DIR then panic .dirlookupNotDir
  else
    match ← dirlookupFrom sb dp name (d.size / 16 + 1) 0 with
    | none => pure none
    | some (inum, off) =>
      let ip ← iget (← ident dp).dev inum
      pure (some (ip, off))

/-- The loop of `dirlink`: the offset of the first empty entry, or the size. -/
def emptyDirentFrom (dp : Slot) : Nat → Nat → FsM Nat
  | 0, off => pure off
  | fuel + 1, off => do
    if off < (← node dp).d.size then
      let de ← readDirent sb .dirlinkRead dp off
      if de.inum = 0 then pure off else emptyDirentFrom dp fuel (off + 16)
    else pure off

def Dirent.src (de : Dirent) : Src := .kernel fun k => de.encode.getD k 0

def dirlink (dp : Slot) (name : List UInt8) (inum : Nat) : FsM Bool := do
  match ← dirlookup sb dp name with
  | some (ip, _) =>
    iput sb ip
    pure false
  | none =>
    let off ← emptyDirentFrom sb dp ((← node dp).d.size / 16 + 1) 0
    let r ← writei sb dp (Dirent.src ⟨inum % 2 ^ 16, strncpy name DIRSIZ⟩) off 16
    pure (r == 16)

/-! ## Paths -/

/-- `skipelem`: the next path element, cut to `DIRSIZ`, and what comes after it. -/
def skipelem (path : List UInt8) : Option (List UInt8 × List UInt8) :=
  let path := path.dropWhile (· = 47)
  if path = [] then none
  else
    some ((path.takeWhile (· ≠ 47)).take DIRSIZ, (path.dropWhile (· ≠ 47)).dropWhile (· = 47))

def namexFrom (nameiparent : Bool) : Nat → Slot → List UInt8 → FsM (Option (Slot × List UInt8))
  | 0, _, _ => panic .hang
  | fuel + 1, ip, path =>
    match skipelem path with
    | none =>
      if nameiparent then do
        iput sb ip
        pure none
      else pure (some (ip, []))
    | some (name, path) => do
      ilock sb ip
      if (← node ip).d.type ≠ T_DIR then
        iunlockput sb ip
        pure none
      else if nameiparent ∧ path = [] then
        -- Stop one level early.
        iunlock ip
        pure (some (ip, name))
      else
        match ← dirlookup sb ip name with
        | none =>
          iunlockput sb ip
          pure none
        | some (next, _) =>
          iunlockput sb ip
          namexFrom nameiparent fuel next path

def namex (path : List UInt8) (nameiparent : Bool) : FsM (Option (Slot × List UInt8)) := do
  let ip ← if path.head? = some 47 then iget ROOTDEV ROOTINO else cwd >>= idup
  namexFrom sb nameiparent (path.length + 1) ip path

def namei (path : List UInt8) : FsM (Option Slot) := do
  return (← namex sb path false).map Prod.fst

def nameiparent (path : List UInt8) : FsM (Option (Slot × List UInt8)) := namex sb path true

end Code

end ZeptOS.Fs
