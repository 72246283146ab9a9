import ZeptOS.Mem.Boot

/-!
# The kernel's direct map

`kinit` of `kernel/kalloc.c` and `kvmmake` of `kernel/vm.c`. The allocator is given all the
RAM the device tree tells of, from the end of the kernel on. The page table the kernel
runs on maps the RAM to itself only up to `PHYSTOP`, a constant. Whether the kernel can
touch what `kalloc` hands out is a question about the two together.

The rest of this directory is about a machine whose RAM ends below `MAXVA` (`Board`); here
`ram_start` and `ram_size` are any 64-bit numbers, and the arithmetic of `kinit` wraps as
the source's does.
-/

namespace ZeptOS

variable {im : KernelImage}

abbrev RAMBASE : Nat := 0x80000000
abbrev PHYSTOP : Nat := RAMBASE + 128 * 1024 * 1024

def KSTACK (p : Nat) : Nat := TRAMPOLINE - (p + 1) * 2 * PGSIZE

namespace Mem

open Lib Lib.Prog

/-- Where `kernel.ld` puts things. The trampoline is the last page of the text. -/
structure KernelImage where
  trampoline : Nat
  etext : Nat
  kernelEnd : Nat      -- `end`
  trampoline_aligned : trampoline % PGSIZE = 0
  kernbase_le : KERNBASE ≤ trampoline
  etext_eq : etext = trampoline + PGSIZE
  etext_le : etext ≤ kernelEnd
  kernelEnd_lt : kernelEnd < PHYSTOP

/-- What `dtbparse` reads: the RAM, and registers of devices that are no RAM. -/
structure Machine where
  ram_start : Nat
  ram_size : Nat
  uart0 : Nat
  virtio0 : Nat
  plic : Nat
  uart0_outside : uart0 + PGSIZE ≤ ram_start ∨ ram_start + ram_size ≤ uart0
  virtio0_outside : virtio0 + PGSIZE ≤ ram_start ∨ ram_start + ram_size ≤ virtio0
  plic_outside : plic + 0x400000 ≤ ram_start ∨ ram_start + ram_size ≤ plic

namespace Boot

/-! ## `kinit` -/

def kinit (im : KernelImage) (ram_start ram_size : Nat) : K Unit :=
  Mem.kinit ⟨im.kernelEnd, add64 ram_start ram_size⟩

/-! ## `kvmmake` -/

def kvmmap (kpgtbl va pa sz perm : Nat) : K Unit := do
  let r ← mappages kpgtbl va sz pa perm
  if r ≠ 0 then throw .kvmmap else pure ()

def procMapstacks (kpgtbl : Nat) : Nat → K Unit
  | 0 => pure ()
  | n + 1 => do
    let pa ← kalloc
    if pa = 0 then throw .mapstacks
    else do
      kvmmap kpgtbl (KSTACK (NPROC - (n + 1))) pa PGSIZE (PTE_R ||| PTE_W)
      procMapstacks kpgtbl n

def kvmmake (im : KernelImage) (mc : Machine) : K Nat := do
  let kpgtbl ← kalloc
  memset kpgtbl 0
  -- uart registers
  kvmmap kpgtbl mc.uart0 mc.uart0 PGSIZE (PTE_R ||| PTE_W)
  -- virtio mmio disk interface
  kvmmap kpgtbl mc.virtio0 mc.virtio0 PGSIZE (PTE_R ||| PTE_W)
  -- PLIC
  kvmmap kpgtbl mc.plic mc.plic 0x400000 (PTE_R ||| PTE_W)
  -- kernel text
  kvmmap kpgtbl KERNBASE KERNBASE (im.etext - KERNBASE) (PTE_R ||| PTE_X)
  -- kernel data and the physical RAM
  kvmmap kpgtbl im.etext im.etext (PHYSTOP - im.etext) (PTE_R ||| PTE_W)
  -- the trampoline
  kvmmap kpgtbl TRAMPOLINE im.trampoline PGSIZE (PTE_R ||| PTE_X)
  procMapstacks kpgtbl NPROC
  pure kpgtbl

/-! ## What is free after `kinit` -/

theorem end_pos (im : KernelImage) : 0 < im.kernelEnd := by
  have h1 := im.kernbase_le
  have h2 := im.etext_eq
  have h3 := im.etext_le
  simp only [KERNBASE, PGSIZE] at *
  omega

/-- **The pages `kinit` frees**: those behind the kernel that fit into the RAM. It panics
    only if the RAM reaches the last page of the address space. -/
theorem mem_freelist_kinit {E : Panic → Prop} {s : Vm} {ram_start ram_size : Nat}
    (hs : s.freelist = []) (hE : add64 ram_start ram_size + PGSIZE < 2 ^ 64 ∨ E .kfree) :
    wp (kinit im ram_start ram_size) E (fun _ s' => ∀ q, q ∈ s'.freelist ↔
      q % PGSIZE = 0 ∧ im.kernelEnd ≤ q ∧ q + PGSIZE ≤ add64 ram_start ram_size) s := by
  have hend : im.kernelEnd < MAXVA := im.kernelEnd_lt.trans (by decide)
  refine wp_mono (Mem.kinit_spec (end_pos im) hend.le (Nat.mod_lt _ (by decide)) hE) ?_
  rintro _ s' ⟨l, -, hl, -, hmem⟩ q
  rw [hl, hs, List.append_nil]
  exact hmem q

/-! ## What `kvmmake` maps -/

structure Range where
  va : Nat
  pa : Nat
  size : Nat
  perm : Nat

def kvmRanges (im : KernelImage) (mc : Machine) : List Range :=
  [⟨mc.uart0, mc.uart0, PGSIZE, PTE_R ||| PTE_W⟩,
    ⟨mc.virtio0, mc.virtio0, PGSIZE, PTE_R ||| PTE_W⟩,
    ⟨mc.plic, mc.plic, 0x400000, PTE_R ||| PTE_W⟩,
    ⟨KERNBASE, KERNBASE, im.etext - KERNBASE, PTE_R ||| PTE_X⟩,
    ⟨im.etext, im.etext, PHYSTOP - im.etext, PTE_R ||| PTE_W⟩,
    ⟨TRAMPOLINE, im.trampoline, PGSIZE, PTE_R ||| PTE_X⟩]

def mapRanges (kpgtbl : Nat) : List Range → K Unit
  | [] => pure ()
  | g :: gs => do
    kvmmap kpgtbl g.va g.pa g.size g.perm
    mapRanges kpgtbl gs

theorem kvmmake_eq (im : KernelImage) (mc : Machine) : kvmmake im mc = (do
    let kpgtbl ← kalloc
    memset kpgtbl 0
    mapRanges kpgtbl (kvmRanges im mc)
    procMapstacks kpgtbl NPROC
    pure kpgtbl) := by
  simp only [kvmmake, mapRanges, kvmRanges, bind_assoc, pure_bind]

/-- The call of `proc_mapstacks` for process `i`, with the page `pa`. -/
def stackRange (i pa : Nat) : Range := ⟨KSTACK i, pa, PGSIZE, PTE_R ||| PTE_W⟩

/-- Its calls, where `stack` are the pages `kalloc` returned. -/
def stackRanges (stack : Nat → Nat) : List Range :=
  (List.range NPROC).map fun i => stackRange i (stack i)

/-- The page at `p` lies in a range that is mapped to itself, readable and writable. -/
def Range.Direct (g : Range) (p : Nat) : Prop :=
  g.va = g.pa ∧ g.perm = PTE_R ||| PTE_W ∧ g.va ≤ p ∧ p + PGSIZE ≤ g.va + g.size

def DirectMapped (im : KernelImage) (mc : Machine) (stack : Nat → Nat) (p : Nat) : Prop :=
  ∃ g ∈ kvmRanges im mc ++ stackRanges stack, g.Direct p

section Direct

variable {mc : Machine} {stack : Nat → Nat}

theorem directMapped_of_lt {p : Nat} (hlo : im.kernelEnd ≤ p) (hhi : p + PGSIZE ≤ PHYSTOP) :
    DirectMapped im mc stack p := by
  refine ⟨⟨im.etext, im.etext, PHYSTOP - im.etext, PTE_R ||| PTE_W⟩, ?_, rfl, rfl, ?_, ?_⟩
  · simp [kvmRanges]
  · exact im.etext_le.trans hlo
  · have := im.etext_le
    show p + PGSIZE ≤ im.etext + (PHYSTOP - im.etext)
    omega

theorem not_directMapped_PHYSTOP (hlo : mc.ram_start ≤ PHYSTOP)
    (hhi : PHYSTOP + PGSIZE ≤ mc.ram_start + mc.ram_size) : ¬ DirectMapped im mc stack PHYSTOP := by
  have h1 := mc.uart0_outside
  have h2 := mc.virtio0_outside
  have h3 := mc.plic_outside
  have h4 := im.etext_le
  have h5 := im.kernelEnd_lt
  rintro ⟨g, hg, hva, hperm, hle, hge⟩
  simp only [kvmRanges, stackRanges, List.mem_append, List.mem_cons, List.not_mem_nil, or_false,
    List.mem_map, List.mem_range] at hg
  rcases hg with (rfl | rfl | rfl | rfl | rfl | rfl) | ⟨i, hi, rfl⟩
  · simp only [PGSIZE] at *
    omega
  · simp only [PGSIZE] at *
    omega
  · simp only [PGSIZE] at *
    omega
  · exact absurd (show PTE_R ||| PTE_X = PTE_R ||| PTE_W from hperm) (by decide)
  · simp only [PGSIZE] at *
    omega
  · exact absurd (show PTE_R ||| PTE_X = PTE_R ||| PTE_W from hperm) (by decide)
  · have hk : PHYSTOP < KSTACK i := by
      unfold KSTACK
      simp only [NPROC, PGSIZE, TRAMPOLINE, MAXVA, PHYSTOP, RAMBASE] at *
      omega
    exact absurd hle (Nat.not_le_of_lt hk)

/-- **The allocator hands out only pages the kernel can use if and only if the RAM ends at
    `PHYSTOP`**, to the page. For every kernel image and machine, whatever pages become
    kernel stacks, when `kinit` returns. -/
theorem free_pages_mapped_iff {s s' : Vm} (hs : s.freelist = [])
    (hstart : mc.ram_start ≤ im.kernelEnd)
    (hrun : kinit im mc.ram_start mc.ram_size s = .ok ((), s')) :
    (∀ p ∈ s'.freelist, DirectMapped im mc stack p) ↔
      add64 mc.ram_start mc.ram_size < PHYSTOP + PGSIZE := by
  have hfree := @mem_freelist_kinit im (fun _ => True) s mc.ram_start mc.ram_size hs (.inr trivial)
  unfold wp at hfree
  rw [hrun] at hfree
  have hend := im.kernelEnd_lt
  constructor
  · intro h
    by_contra hge
    have hle : add64 mc.ram_start mc.ram_size ≤ mc.ram_start + mc.ram_size := Nat.mod_le _ _
    have hmapped := h PHYSTOP ((hfree _).mpr ⟨by decide, by omega, by omega⟩)
    exact not_directMapped_PHYSTOP (by omega) (by omega) hmapped
  · intro hlt p hp
    obtain ⟨hal, hlo, hhi⟩ := (hfree p).mp hp
    refine directMapped_of_lt hlo ?_
    simp only [PGSIZE, PHYSTOP, RAMBASE] at *
    omega

def smallImage : KernelImage where
  trampoline := 0x80208000
  etext := 0x80209000
  kernelEnd := 0x80300000
  trampoline_aligned := by decide
  kernbase_le := by decide
  etext_eq := by decide
  etext_le := by decide
  kernelEnd_lt := by decide

def virtMachine (ram_size : Nat) : Machine where
  ram_start := 0x80000000
  ram_size := ram_size
  uart0 := 0x10000000
  virtio0 := 0x10001000
  plic := 0x0c000000
  uart0_outside := .inl (by decide)
  virtio0_outside := .inl (by decide)
  plic_outside := .inl (by decide)

def noMemory : Vm := ⟨fun _ => Bytes.fill 0, [], false⟩

/-- With 128 MB of RAM the kernel can use every page. -/
theorem free_pages_mapped_128M : ∃ s',
    kinit smallImage 0x80000000 0x8000000 noMemory = .ok ((), s') ∧ s'.freelist ≠ [] ∧
    ∀ p ∈ s'.freelist, DirectMapped smallImage (virtMachine 0x8000000) (fun _ => 0) p := by
  obtain ⟨⟨⟩, s', hrun, hfree⟩ := run_of_wp (@mem_freelist_kinit smallImage (fun _ => False) noMemory
    0x80000000 0x8000000 rfl (.inl (by decide)))
  refine ⟨s', hrun, List.ne_nil_of_mem ((hfree 0x80300000).mpr (by decide)), ?_⟩
  exact (@free_pages_mapped_iff smallImage (virtMachine 0x8000000) (fun _ => 0) noMemory s' rfl
    (by decide) hrun).mpr (by decide)

/-- **With 256 MB the allocator has pages the kernel cannot use.** -/
theorem free_page_unmapped_256M : ∃ s',
    kinit smallImage 0x80000000 0x10000000 noMemory = .ok ((), s') ∧ PHYSTOP ∈ s'.freelist ∧
    ∀ stack, ¬ DirectMapped smallImage (virtMachine 0x10000000) stack PHYSTOP := by
  obtain ⟨⟨⟩, s', hrun, hfree⟩ := run_of_wp (@mem_freelist_kinit smallImage (fun _ => False) noMemory
    0x80000000 0x10000000 rfl (.inl (by decide)))
  refine ⟨s', hrun, (hfree PHYSTOP).mpr (by decide), fun stack => ?_⟩
  exact not_directMapped_PHYSTOP (by decide) (by decide)

end Direct

end Boot
end Mem
end ZeptOS
