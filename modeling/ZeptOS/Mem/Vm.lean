import ZeptOS.Lib.Prog
import ZeptOS.Mem.Riscv

/-!
# The page allocator and the page tables

`kernel/kalloc.c` and the user half of `kernel/vm.c`. Physical memory is a map from page
addresses to pages of bytes; a page-table entry is the eight bytes the source reads
through a `pte_t *`, so that a page can be user memory now and a page-table page later,
and a stray write to either would show.

`kmem.freelist` is a list of page addresses and not a chain through the free pages. A
pointer into a page-table page (`pte_t *`) is the page with an index, and the null
pointer is `none`; a page address keeps the source's 0 for "no page", because the code
does not always look. Loops carry the number of rounds they can make at most, and keep
the source's own test of when to stop.

`oom` is not part of the kernel: it records that some `kalloc` has returned 0.
-/

namespace ZeptOS

open Lib

abbrev Page : Type := Bytes

structure Ram where
  kernelEnd : Nat      -- `end`, the first address after the kernel
  ramEnd : Nat         -- `ram_end`

/-- What the linker script, the device tree and `config.mk` fix. The kernel reaches
    physical memory through its direct map, and so only below `MAXVA`. -/
structure Board extends Ram where
  trampoline : Nat
  shadowStack : Bool   -- CONFIG_USER_SHADOW_STACK_HARDWARE
  landingPad : Bool    -- CONFIG_USER_LANDING_PAD_ENABLED
  trampoline_aligned : trampoline % PGSIZE = 0
  kernbase_le : KERNBASE ≤ trampoline
  trampoline_lt : trampoline < kernelEnd
  kernelEnd_le : kernelEnd ≤ MAXVA
  ramEnd_le : ramEnd ≤ MAXVA

instance : Coe Board Ram := ⟨Board.toRam⟩

/-- The `virt` machine with its 128 MB, and a kernel that ends at 3 MB. -/
def Board.virt (shadowStack landingPad : Bool) : Board where
  kernelEnd := 0x80300000
  ramEnd := 0x88000000
  trampoline := 0x80201000
  shadowStack := shadowStack
  landingPad := landingPad
  trampoline_aligned := by decide
  kernbase_le := by decide
  trampoline_lt := by decide
  kernelEnd_le := by decide
  ramEnd_le := by decide

theorem Board.end_pos (c : Board) : 0 < c.kernelEnd :=
  Nat.lt_of_le_of_lt (Nat.zero_le _) c.trampoline_lt

namespace Mem

inductive Panic where
  | kfree             -- "kfree"
  | walk              -- "walk"
  | mapVa             -- "mappages: va not aligned"
  | mapSize           -- "mappages: size not aligned"
  | mapZero           -- "mappages: size"
  | remap             -- "mappages: remap"
  | unmapVa           -- "uvmunmap: not aligned"
  | unmapWalk         -- "uvmunmap: walk"
  | unmapMissing      -- "uvmunmap: not mapped"
  | unmapLeaf         -- "uvmunmap: not a leaf"
  | freewalkLeaf      -- "freewalk: leaf"
  | freewalkDepth     -- a table of more than three levels
  | copyPte           -- "uvmcopy: pte should exist"
  | copyPage          -- "uvmcopy: page not present"
  | clear             -- "uvmclear"
  | loadseg           -- "loadseg: address should exist"
  | initExiting       -- "init exiting"
  | uvmfirst          -- "uvmfirst: more than a page"
  | fileclose         -- "fileclose"
  | filedup           -- "filedup"
  | kerneltrap        -- "kerneltrap", because a null pointer was used
  | kvmmap            -- "kvmmap"
  | mapstacks         -- "kalloc", of `proc_mapstacks`
  | bootAlloc         -- no page left for the kernel's own tables, stacks and rings
  deriving DecidableEq, Repr

structure Vm where
  mem : Nat → Page
  freelist : List Nat
  oom : Bool

abbrev K := Prog Vm Panic

namespace Vm

def put (s : Vm) (pa : Nat) (pg : Page) : Vm := { s with mem := Function.update s.mem pa pg }

/-- The page `r` has left the free list, of which `rest` is left. -/
def take (s : Vm) (r : Nat) (rest : List Nat) : Vm :=
  { s with freelist := rest }.put r (Bytes.fill 5)

def give (s : Vm) (pa : Nat) : Vm := { s with freelist := pa :: s.freelist }.put pa (Bytes.fill 1)

/-- `pagetable[i]` -/
def pte (s : Vm) (pagetable i : Nat) : Nat := (s.mem pagetable).ld (8 * i) 8

/-- `pagetable[i] = w` -/
def setPte (s : Vm) (pagetable i w : Nat) : Vm :=
  s.put pagetable ((s.mem pagetable).st (8 * i) 8 w)

end Vm

def loadPte (pagetable i : Nat) : K Nat := do
  let s ← get
  pure (s.pte pagetable i)

def storePte (pagetable i w : Nat) : K Unit := modify fun s => s.setPte pagetable i w

def memset (pa : Nat) (c : UInt8) : K Unit := modify fun s => s.put pa (Bytes.fill c)

def memmove (dst src : Nat) : K Unit := modify fun s => s.put dst (s.mem src)

/-! ## The allocator -/

def kalloc : K Nat := do
  let s ← get
  match s.freelist with
  | [] => do
    set { s with oom := true }
    pure 0
  | r :: rest => do
    set (s.take r rest)
    pure r

def kfree (c : Ram) (pa : Nat) : K Unit :=
  if pa % PGSIZE ≠ 0 ∨ pa < c.kernelEnd ∨ pa ≥ c.ramEnd then throw .kfree
  else modify fun s => s.give pa

/-- `p + PGSIZE`, on 64 bits. -/
@[irreducible] def nextPage (p : Nat) : Nat := add64 p PGSIZE

def freerange (c : Ram) : Nat → Nat → K Unit
  | 0, _ => pure ()
  | n + 1, p =>
    if nextPage p ≤ c.ramEnd then do
      kfree c p
      freerange c n (nextPage p)
    else pure ()

def addressPages : Nat := 2 ^ 52

def kinit (c : Ram) : K Unit := freerange c (addressPages + 1) (PGROUNDUP c.kernelEnd)

/-- The `n` pages that `kvminit`, `proc_mapstacks` and `virtio_disk_init` take. What they
    write there is not modelled. -/
def bootAlloc : Nat → K (List Nat)
  | 0 => pure []
  | n + 1 => do
    let p ← kalloc
    if p = 0 then throw .bootAlloc
    else do
      let ps ← bootAlloc n
      pure (p :: ps)

/-! ## Walking and mapping -/

def walkFrom (va : Nat) (alloc : Bool) : Nat → Nat → K (Option (Nat × Nat))
  | 0, pagetable => pure (some (pagetable, PX 0 va))
  | level + 1, pagetable => do
    let pte ← loadPte pagetable (PX (level + 1) va)
    if isValid pte then walkFrom va alloc level (PTE2PA pte)
    else if alloc = false then pure none
    else do
      let p ← kalloc
      if p = 0 then pure none
      else do
        memset p 0
        storePte pagetable (PX (level + 1) va) (PA2PTE p ||| PTE_V)
        walkFrom va alloc level p

def walk (pagetable va : Nat) (alloc : Bool) : K (Option (Nat × Nat)) :=
  if va ≥ MAXVA then throw .walk else walkFrom va alloc 2 pagetable

def walkaddr (pagetable va : Nat) : K Nat :=
  if va ≥ MAXVA then pure 0
  else do
    match ← walk pagetable va false with
    | none => pure 0
    | some (pt, i) => do
      let pte ← loadPte pt i
      if ¬ isValid pte then pure 0
      else if pte &&& PTE_U = 0 then pure 0
      else pure (add64 (PTE2PA pte) (va &&& 0xfff))

def mapLoop (pagetable last perm : Nat) : Nat → Nat → Nat → K Int
  | 0, _, _ => pure 0
  | n + 1, a, pa => do
    match ← walk pagetable a true with
    | none => pure (-1)
    | some (pt, i) => do
      let pte ← loadPte pt i
      if isValid pte then throw .remap
      else do
        storePte pt i (PA2PTE pa ||| perm ||| PTE_V)
        if a = last then pure 0
        else mapLoop pagetable last perm n (add64 a PGSIZE) (add64 pa PGSIZE)

def mappages (pagetable va size pa perm : Nat) : K Int :=
  if va % PGSIZE ≠ 0 then throw .mapVa
  else if size % PGSIZE ≠ 0 then throw .mapSize
  else if size = 0 then throw .mapZero
  else mapLoop pagetable (add64 va (size - PGSIZE)) perm (size / PGSIZE) va pa

def unmapLoop (c : Board) (pagetable stop : Nat) (doFree : Bool) : Nat → Nat → K Unit
  | 0, _ => pure ()
  | n + 1, a =>
    if a < stop then do
      match ← walk pagetable a false with
      | none => throw .unmapWalk
      | some (pt, i) => do
        let pte ← loadPte pt i
        if ¬ isValid pte then throw .unmapMissing
        else if PTE_FLAGS pte = PTE_V then throw .unmapLeaf
        else do
          if doFree then kfree c (PTE2PA pte) else pure ()
          storePte pt i 0
          unmapLoop c pagetable stop doFree n (add64 a PGSIZE)
    else pure ()

def uvmunmap (c : Board) (pagetable va npages : Nat) (doFree : Bool) : K Unit :=
  if va % PGSIZE ≠ 0 then throw .unmapVa
  else unmapLoop c pagetable (add64 va (npages * PGSIZE)) doFree npages va

def uvmcreate : K Nat := do
  let pagetable ← kalloc
  if pagetable = 0 then pure 0
  else do
    memset pagetable 0
    pure pagetable

def uvmclear (pagetable va : Nat) : K Unit := do
  match ← walk pagetable va false with
  | none => throw .clear
  | some (pt, i) => do
    let pte ← loadPte pt i
    storePte pt i (pte &&& (2 ^ 64 - 1 - PTE_U))

/-! ## User memory -/

def throughInt (n : Nat) : Nat :=
  if n % 2 ^ 32 < 2 ^ 31 then n % 2 ^ 32 else n % 2 ^ 32 + (2 ^ 64 - 2 ^ 32)

def uvmdealloc (c : Board) (pagetable oldsz newsz : Nat) : K Nat :=
  if newsz ≥ oldsz then pure oldsz
  else do
    if PGROUNDUP newsz < PGROUNDUP oldsz then
      uvmunmap c pagetable (PGROUNDUP newsz)
        (throughInt ((PGROUNDUP oldsz - PGROUNDUP newsz) / PGSIZE)) true
    else pure ()
    pure newsz

def allocLoop (c : Board) (pagetable oldsz newsz xperm : Nat) : Nat → Nat → K Nat
  | 0, _ => pure newsz
  | n + 1, a =>
    if a < newsz then do
      let mem ← kalloc
      if mem = 0 then do
        let _ ← uvmdealloc c pagetable a oldsz
        pure 0
      else do
        memset mem 0
        let r ← mappages pagetable a PGSIZE mem (PTE_R ||| PTE_U ||| xperm)
        if r ≠ 0 then do
          kfree c mem
          let _ ← uvmdealloc c pagetable a oldsz
          pure 0
        else allocLoop c pagetable oldsz newsz xperm n (add64 a PGSIZE)
    else pure newsz

def uvmalloc (c : Board) (pagetable oldsz newsz xperm : Nat) : K Nat :=
  if newsz < oldsz then pure oldsz
  else allocLoop c pagetable (PGROUNDUP oldsz) newsz xperm (pages newsz) (PGROUNDUP oldsz)

/-- The loop of `freewalk` over the entries of one table, of which `n` are left. -/
def freeLoop (rec : Nat → K Unit) (pagetable : Nat) : Nat → K Unit
  | 0 => pure ()
  | n + 1 => do
    let pte ← loadPte pagetable (512 - (n + 1))
    if isValid pte ∧ ¬ isLeaf pte then do
      rec (PTE2PA pte)
      storePte pagetable (512 - (n + 1)) 0
      freeLoop rec pagetable n
    else if isValid pte then throw .freewalkLeaf
    else freeLoop rec pagetable n

def freewalkTo (c : Board) : Nat → Nat → K Unit
  | 0, _ => throw .freewalkDepth
  | depth + 1, pagetable => do
    freeLoop (freewalkTo c depth) pagetable 512
    kfree c pagetable

def freewalk (c : Board) (pagetable : Nat) : K Unit := freewalkTo c 3 pagetable

def uvmfree (c : Board) (pagetable sz : Nat) : K Unit := do
  if sz > 0 then uvmunmap c pagetable 0 (PGROUNDUP sz / PGSIZE) true else pure ()
  freewalk c pagetable

def copyLoop (c : Board) (old new sz : Nat) : Nat → Nat → K Int
  | 0, _ => pure 0
  | n + 1, i =>
    if i < sz then do
      match ← walk old i false with
      | none => throw .copyPte
      | some (pt, k) => do
        let pte ← loadPte pt k
        if ¬ isValid pte then throw .copyPage
        else do
          let mem ← kalloc
          if mem = 0 then do
            uvmunmap c new 0 (i / PGSIZE) true
            pure (-1)
          else do
            memmove mem (PTE2PA pte)
            let r ← mappages new i PGSIZE mem (PTE_FLAGS pte)
            if r ≠ 0 then do
              kfree c mem
              uvmunmap c new 0 (i / PGSIZE) true
              pure (-1)
            else copyLoop c old new sz n (add64 i PGSIZE)
    else pure 0

def uvmcopy (c : Board) (old new sz : Nat) : K Int := copyLoop c old new sz (pages sz) 0

def copyoutLoop (pagetable : Nat) : Nat → Nat → List UInt8 → K Int
  | 0, _, _ => pure 0
  | n + 1, dstva, src =>
    if src.length > 0 then
      let va0 := PGROUNDDOWN dstva
      if va0 ≥ MAXVA then pure (-1)
      else do
        match ← walk pagetable va0 false with
        | none => pure (-1)
        | some (pt, i) => do
          let pte ← loadPte pt i
          if ¬ isValid pte ∨ pte &&& PTE_U = 0 ∨ pte &&& PTE_W = 0 then pure (-1)
          else do
            let len := min (PGSIZE - (dstva - va0)) src.length
            modify fun s => s.put (PTE2PA pte)
              ((s.mem (PTE2PA pte)).blit (dstva - va0) (src.take len))
            copyoutLoop pagetable n (add64 va0 PGSIZE) (src.drop len)
    else pure 0

def copyout (pagetable dstva : Nat) (src : List UInt8) : K Int :=
  copyoutLoop pagetable src.length dstva src

/-- The loop of `copyin`: whether it went well, and the bytes it copied. -/
def copyinLoop (pagetable : Nat) : Nat → Nat → Nat → K (Bool × List UInt8)
  | 0, _, _ => pure (true, [])
  | k + 1, srcva, len =>
    if len > 0 then do
      let va0 := PGROUNDDOWN srcva
      let pa0 ← walkaddr pagetable va0
      if pa0 = 0 then pure (false, [])
      else do
        let n := min (PGSIZE - (srcva - va0)) len
        let s ← get
        let (ok, rest) ← copyinLoop pagetable k (add64 va0 PGSIZE) (len - n)
        pure (ok, (s.mem pa0).slice (srcva - va0) n ++ rest)
    else pure (true, [])

def copyin (pagetable srcva len : Nat) : K (Bool × List UInt8) := copyinLoop pagetable len srcva len

/-- The loop of `copyinstr`: whether it found a 0, and the bytes it has stored. -/
def copyinstrLoop (pagetable : Nat) : Nat → Nat → Nat → K (Bool × List UInt8)
  | 0, _, _ => pure (false, [])
  | k + 1, srcva, max =>
    if max > 0 then do
      let va0 := PGROUNDDOWN srcva
      let pa0 ← walkaddr pagetable va0
      if pa0 = 0 then pure (false, [])
      else do
        let n := min (PGSIZE - (srcva - va0)) max
        let s ← get
        let str := ((s.mem pa0).slice (srcva - va0) n).takeWhile (· ≠ 0)
        if str.length < n then pure (true, str ++ [0])
        else do
          let (ok, rest) ← copyinstrLoop pagetable k (add64 va0 PGSIZE) (max - n)
          pure (ok, str ++ rest)
    else pure (false, [])

def copyinstr (pagetable srcva max : Nat) : K (Bool × List UInt8) :=
  copyinstrLoop pagetable max srcva max

/-- `uvmfirst`, which looks neither at what `kalloc` nor at what `mappages` returns. -/
def uvmfirst (pagetable : Nat) (src : List UInt8) : K Unit :=
  if src.length ≥ PGSIZE then throw .uvmfirst
  else do
    let mem ← kalloc
    if mem = 0 then throw .kerneltrap
    else do
      memset mem 0
      let _ ← mappages pagetable 0 PGSIZE mem (PTE_W ||| PTE_R ||| PTE_X ||| PTE_U)
      modify fun s => s.put mem ((s.mem mem).blit 0 src)

end Mem
end ZeptOS
