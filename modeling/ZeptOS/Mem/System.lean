import ZeptOS.Mem.Load

/-!
# The pages of the whole system

Every page of RAM is free, or belongs to one process, or to what the kernel holds beside
the processes (`X`: pipes, kernel stacks, the pages allocated while booting). `MemOk` is
that statement, as an equation between collections of pages, so that nothing is held
twice and nothing is lost.

A system call changes the pages of one slot of the process table. `SlotStep` says that
much of it, and `MemOk.step` that this is enough: the other slots, and all that the
kernel holds, are where they were and hold what they held.
-/

namespace ZeptOS.Mem

open Lib Lib.Prog Multiset

variable {c : Board} {i j q : Nat} {p : Proc} {vm : Vm} {X : Multiset Nat} {s s' : Sys} {α : Type}
  {E : Panic → Prop}

def ramPages (c : Board) : Finset Nat :=
  ((Finset.range (c.ramEnd / PGSIZE)).image (· * PGSIZE)).filter (c.kernelEnd ≤ ·)

theorem mem_ramPages :
    q ∈ ramPages c ↔ q % PGSIZE = 0 ∧ c.kernelEnd ≤ q ∧ q + PGSIZE ≤ c.ramEnd := by
  unfold ramPages
  rw [Finset.mem_filter, Finset.mem_image]
  constructor
  · rintro ⟨⟨k, hk, rfl⟩, hq⟩
    refine ⟨Nat.mul_mod_left _ _, hq, ?_⟩
    have h1 : (k + 1) * PGSIZE ≤ c.ramEnd / PGSIZE * PGSIZE :=
      Nat.mul_le_mul_right _ (Finset.mem_range.mp hk)
    rw [Nat.add_mul, Nat.one_mul] at h1
    exact h1.trans (Nat.div_mul_le_self _ _)
  · rintro ⟨h1, h2, h3⟩
    refine ⟨⟨q / PGSIZE, ?_, Nat.div_mul_cancel (Nat.dvd_of_mod_eq_zero h1)⟩, h2⟩
    rw [Finset.mem_range, Nat.lt_iff_add_one_le, Nat.le_div_iff_mul_le (by decide), Nat.add_mul,
      Nat.one_mul, Nat.div_mul_cancel (Nat.dvd_of_mod_eq_zero h1)]
    exact h3

theorem isPage_of_mem_ramPages (h : q ∈ ramPages c) : IsPage c q := by
  obtain ⟨h1, h2, h3⟩ := mem_ramPages.mp h
  refine ⟨h1, h2, Nat.lt_of_lt_of_le (Nat.lt_add_of_pos_right (by decide)) h3⟩

/-! ## Slots -/

/-- The pages a slot of the process table is responsible for. -/
def Proc.owned (c : Board) (vm : Vm) (p : Proc) : Multiset Nat :=
  (if p.trapframe = 0 then 0 else {p.trapframe}) +
    if p.pagetable = 0 then 0 else vm.space c p.pagetable p.sz

/-- A slot is empty, or has a trapframe and an address space. -/
inductive SlotOk (c : Board) (vm : Vm) (p : Proc) : Prop where
  | empty (state : p.state = .unused) (trapframe : p.trapframe = 0) (pagetable : p.pagetable = 0)
      (sz : p.sz = 0)
  | live (state : p.state ≠ .unused) (trapframe : p.trapframe ≠ 0) (pagetable : p.pagetable ≠ 0)
      (space : Space c vm p.pagetable p.trapframe p.sz)

section
variable {vm' : Vm} {p' : Proc}

theorem owned_empty (h1 : p.trapframe = 0) (h2 : p.pagetable = 0) : p.owned c vm = 0 := by
  unfold Proc.owned
  rw [if_pos h1, if_pos h2, add_zero]

theorem owned_live (h1 : p.trapframe ≠ 0) (h2 : p.pagetable ≠ 0) :
    p.owned c vm = {p.trapframe} + vm.space c p.pagetable p.sz := by
  unfold Proc.owned
  rw [if_neg h1, if_neg h2]

theorem SlotOk.space (h : SlotOk c vm p) (hs : p.state ≠ .unused) :
    p.trapframe ≠ 0 ∧ p.pagetable ≠ 0 ∧ Space c vm p.pagetable p.trapframe p.sz := by
  cases h with
  | empty state => exact absurd state hs
  | live state trapframe pagetable space => exact ⟨trapframe, pagetable, space⟩

theorem SlotOk.unused (h : SlotOk c vm p) (hs : p.state = .unused) :
    p.trapframe = 0 ∧ p.pagetable = 0 ∧ p.sz = 0 := by
  cases h with
  | empty state trapframe pagetable sz => exact ⟨trapframe, pagetable, sz⟩
  | live state => exact absurd hs state

theorem SlotOk.owned_unused (h : SlotOk c vm p) (hs : p.state = .unused) : p.owned c vm = 0 :=
  owned_empty (h.unused hs).1 (h.unused hs).2.1

theorem SlotOk.congr (h : SlotOk c vm p) (hm : ∀ q ∈ p.owned c vm, vm'.mem q = vm.mem q) :
    SlotOk c vm' p ∧ p.owned c vm' = p.owned c vm := by
  cases h with
  | empty state trapframe pagetable sz =>
    exact ⟨.empty state trapframe pagetable sz, by
      rw [owned_empty trapframe pagetable, owned_empty trapframe pagetable]⟩
  | live state trapframe pagetable space =>
    rw [owned_live trapframe pagetable] at hm
    have hn : ∀ q ∈ vm.nodes p.pagetable, vm'.mem q = vm.mem q := fun q hq =>
      hm q (subset_add_right (subset_add_left hq))
    obtain ⟨hsp, he⟩ := space.congr hn
    exact ⟨.live state trapframe pagetable hsp, by
      rw [owned_live trapframe pagetable, owned_live trapframe pagetable, he]⟩

theorem SlotOk.fields (h : SlotOk c vm p) (h1 : p'.state = .unused ↔ p.state = .unused)
    (h2 : p'.trapframe = p.trapframe) (h3 : p'.pagetable = p.pagetable) (h4 : p'.sz = p.sz) :
    SlotOk c vm p' := by
  cases h with
  | empty state trapframe pagetable sz =>
    exact .empty (h1.mpr state) (h2.trans trapframe) (h3.trans pagetable) (h4.trans sz)
  | live state trapframe pagetable space =>
    refine .live (fun hh => state (h1.mp hh)) (by rw [h2]; exact trapframe)
      (by rw [h3]; exact pagetable) ?_
    rw [h2, h3, h4]
    exact space

theorem owned_fields (h2 : p'.trapframe = p.trapframe) (h3 : p'.pagetable = p.pagetable)
    (h4 : p'.sz = p.sz) : p'.owned c vm = p.owned c vm := by
  unfold Proc.owned
  rw [h2, h3, h4]

end

/-! ## All slots together -/

def Sys.procPages (c : Board) (s : Sys) : Multiset Nat :=
  ∑ i ∈ Finset.range NPROC, (s.proc i).owned c s.vm

def Sys.otherPages (c : Board) (s : Sys) (i : Nat) : Multiset Nat :=
  ∑ j ∈ (Finset.range NPROC).erase i, (s.proc j).owned c s.vm

/-- **Every page of RAM is free, or a process's, or the kernel's, and only once.** -/
structure MemOk (c : Board) (s : Sys) (X : Multiset Nat) : Prop where
  slots : ∀ i, i < NPROC → SlotOk c s.vm (s.proc i)
  total : s.procPages c + X + ↑s.vm.freelist = (ramPages c).val

structure SlotStep (c : Board) (s s' : Sys) (i : Nat) : Prop where
  others : ∀ j, j ≠ i → s'.proc j = s.proc j
  file : s'.file = s.file
  initproc : s'.initproc = s.initproc
  slot : SlotOk c s'.vm (s'.proc i)
  bal : (s'.proc i).owned c s'.vm + ↑s'.vm.freelist =
    (s.proc i).owned c s.vm + (↑s.vm.freelist : Multiset Nat)
  frame : ∀ q, q ∉ (s.proc i).owned c s.vm + (↑s.vm.freelist : Multiset Nat) →
    s'.vm.mem q = s.vm.mem q

section
variable {s'' : Sys}

theorem procPages_split (hi : i < NPROC) :
    s.procPages c = (s.proc i).owned c s.vm + s.otherPages c i :=
  (Finset.add_sum_erase _ _ (Finset.mem_range.mpr hi)).symm

theorem MemOk.own (h : MemOk c s X) : Own c s.vm (s.procPages c + X) := by
  refine ⟨?_, fun q hq => ?_⟩
  · rw [h.total]
    exact (ramPages c).nodup
  · rw [h.total] at hq
    exact isPage_of_mem_ramPages hq

theorem MemOk.own_slot (h : MemOk c s X) (hi : i < NPROC) :
    Own c s.vm ((s.proc i).owned c s.vm + (s.otherPages c i + X)) := by
  have := h.own
  rwa [procPages_split hi, add_assoc] at this

theorem mem_otherPages (hj : j < NPROC) (hji : j ≠ i) (hq : q ∈ (s.proc j).owned c s.vm) :
    q ∈ s.otherPages c i := by
  unfold Sys.otherPages
  rw [mem_sum]
  exact ⟨j, Finset.mem_erase.mpr ⟨hji, Finset.mem_range.mpr hj⟩, hq⟩

theorem SlotStep.refl (h : SlotOk c s.vm (s.proc i)) : SlotStep c s s i :=
  ⟨fun _ _ => rfl, rfl, rfl, h, rfl, fun _ _ => rfl⟩

theorem SlotStep.trans (h : SlotStep c s s' i) (h' : SlotStep c s' s'' i) : SlotStep c s s'' i where
  others j hj := (h'.others j hj).trans (h.others j hj)
  file := h'.file.trans h.file
  initproc := h'.initproc.trans h.initproc
  slot := h'.slot
  bal := h'.bal.trans h.bal
  frame q hq := (h'.frame q (by rw [h.bal]; exact hq)).trans (h.frame q hq)

theorem SlotStep.mem (h : SlotStep c s s' i) (hm : MemOk c s X) (hi : i < NPROC)
    (hq : q ∈ s.otherPages c i + X) : s'.vm.mem q = s.vm.mem q := by
  refine h.frame q fun hmem => ?_
  rcases mem_add.mp hmem with hmem | hmem
  · exact (hm.own_slot hi).disjoint hmem hq
  · exact (hm.own_slot hi).not_free (subset_add_right hq) hmem

theorem SlotStep.other (h : SlotStep c s s' i) (hm : MemOk c s X) (hi : i < NPROC) (hj : j < NPROC)
    (hji : j ≠ i) :
    SlotOk c s'.vm (s'.proc j) ∧ (s'.proc j).owned c s'.vm = (s.proc j).owned c s.vm := by
  rw [h.others j hji]
  exact (hm.slots j hj).congr fun q hq =>
    h.mem hm hi (subset_add_left (mem_otherPages hj hji hq))

theorem SlotStep.otherPages (h : SlotStep c s s' i) (hm : MemOk c s X) (hi : i < NPROC) :
    s'.otherPages c i = s.otherPages c i := by
  refine Finset.sum_congr rfl fun j hj => ?_
  obtain ⟨hji, hj⟩ := Finset.mem_erase.mp hj
  exact (h.other hm hi (Finset.mem_range.mp hj) hji).2

/-- **One slot at a time is enough.** -/
theorem MemOk.step (hm : MemOk c s X) (hi : i < NPROC) (h : SlotStep c s s' i) : MemOk c s' X := by
  refine ⟨fun j hj => ?_, ?_⟩
  · by_cases hji : j = i
    · rw [hji]
      exact h.slot
    · exact (h.other hm hi hj hji).1
  · rw [procPages_split hi, h.otherPages hm hi, ← hm.total, procPages_split hi]
    calc (s'.proc i).owned c s'.vm + s.otherPages c i + X + ↑s'.vm.freelist
        = (s'.proc i).owned c s'.vm + ↑s'.vm.freelist + (s.otherPages c i + X) := by abel
      _ = (s.proc i).owned c s.vm + ↑s.vm.freelist + (s.otherPages c i + X) := by rw [h.bal]
      _ = (s.proc i).owned c s.vm + s.otherPages c i + X + ↑s.vm.freelist := by abel

end

/-! ## Steps of the kernel itself -/

structure SameMemory (p p' : Proc) : Prop where
  state : p'.state = .unused ↔ p.state = .unused
  trapframe : p'.trapframe = p.trapframe
  pagetable : p'.pagetable = p.pagetable
  sz : p'.sz = p.sz

theorem SameMemory.refl (p : Proc) : SameMemory p p := ⟨Iff.rfl, rfl, rfl, rfl⟩

theorem mem_procPages (hi : i < NPROC) (hq : q ∈ (s.proc i).owned c s.vm) : q ∈ s.procPages c := by
  rw [procPages_split hi]
  exact subset_add_left hq

/-- **What the kernel does with its own pages** does not touch the processes. -/
theorem MemOk.kernel {X' : Multiset Nat} (h : MemOk c s X)
    (hproc : ∀ i, i < NPROC → SameMemory (s.proc i) (s'.proc i))
    (hmem : ∀ q ∈ s.procPages c, s'.vm.mem q = s.vm.mem q)
    (hbal : X' + ↑s'.vm.freelist = X + (↑s.vm.freelist : Multiset Nat)) : MemOk c s' X' := by
  have hslot : ∀ i, i < NPROC → SlotOk c s'.vm (s'.proc i) ∧
      (s'.proc i).owned c s'.vm = (s.proc i).owned c s.vm := by
    intro i hi
    have hp := hproc i hi
    obtain ⟨h1, h2⟩ := (h.slots i hi).congr fun q hq => hmem q (mem_procPages hi hq)
    exact ⟨h1.fields hp.state hp.trapframe hp.pagetable hp.sz,
      (owned_fields hp.trapframe hp.pagetable hp.sz).trans h2⟩
  refine ⟨fun i hi => (hslot i hi).1, ?_⟩
  have hpages : s'.procPages c = s.procPages c :=
    Finset.sum_congr rfl fun i hi => (hslot i (Finset.mem_range.mp hi)).2
  rw [hpages, add_assoc, hbal, ← add_assoc]
  exact h.total

theorem MemOk.not_proc (h : MemOk c s X) (hq : q ∈ X) :
    q ∉ s.procPages c := fun hp => h.own.disjoint hp hq

/-! ## Running code of the memory layer -/

@[simp] theorem wp_onVm {x : K α} {Q : α → Sys → Prop} :
    wp (onVm x) E Q s = wp x E (fun a vm => Q a { s with vm := vm }) s.vm := by
  unfold onVm wp
  dsimp only
  cases x s.vm with
  | ok r => rfl
  | error e => rfl

/-- Beside the memory, only the slot `i` has changed: memory is now `vm` and the slot `p`. -/
structure OnSlot (s s' : Sys) (i : Nat) (vm : Vm) (p : Proc) : Prop where
  others : ∀ j, j ≠ i → s'.proc j = s.proc j
  file : s'.file = s.file
  initproc : s'.initproc = s.initproc
  vm : s'.vm = vm
  proc : s'.proc i = p

section
variable {s₁ : Sys}

theorem OnSlot.refl (s : Sys) (i : Nat) : OnSlot s s i s.vm (s.proc i) :=
  ⟨fun _ _ => rfl, rfl, rfl, rfl, rfl⟩

theorem OnSlot.setProc (h : OnSlot s s₁ i vm p) (p' : Proc) : OnSlot s (s₁.setProc i p') i vm p' where
  others j hj := (Function.update_of_ne hj ..).trans (h.others j hj)
  file := h.file
  initproc := h.initproc
  vm := h.vm
  proc := Function.update_self ..

theorem OnSlot.wp_onVm (h : OnSlot s s₁ i vm p) {x : K α} {R : α → Vm → Prop} {Q : α → Sys → Prop}
    (hx : wp x E R vm) (hQ : ∀ a s₂ vm', OnSlot s s₂ i vm' p → R a vm' → Q a s₂) :
    wp (onVm x) E Q s₁ := by
  rw [Mem.wp_onVm, h.vm]
  exact wp_mono hx fun a vm' hR =>
    hQ a _ vm' ⟨h.others, h.file, h.initproc, rfl, h.proc⟩ hR

theorem OnSlot.wp_setProc (h : OnSlot s s₁ i vm p) {f : Proc → Proc} {Q : PUnit → Sys → Prop}
    (hQ : ∀ s₂, OnSlot s s₂ i vm (f p) → Q ⟨⟩ s₂) :
    wp (modify fun s => s.setProc i (f (s.proc i))) E Q s₁ := by
  have h' := h.setProc (f p)
  rw [wp_modify, h.proc]
  exact hQ _ h'

theorem OnSlot.step (h : OnSlot s s' i vm p) (hslot : SlotOk c vm p)
    (hbal : p.owned c vm + ↑vm.freelist = (s.proc i).owned c s.vm + (↑s.vm.freelist : Multiset Nat))
    (hframe : ∀ q, q ∉ (s.proc i).owned c s.vm + (↑s.vm.freelist : Multiset Nat) →
      vm.mem q = s.vm.mem q) : SlotStep c s s' i := by
  refine ⟨h.others, h.file, h.initproc, ?_, ?_, ?_⟩
  · rw [h.vm, h.proc]
    exact hslot
  · rw [h.vm, h.proc]
    exact hbal
  · rw [h.vm]
    exact hframe

theorem SameMemory.slotStep (h : SameMemory (s.proc i) p) (hs : SlotOk c s.vm (s.proc i))
    (hon : OnSlot s s' i s.vm p) : SlotStep c s s' i := by
  refine hon.step (hs.fields h.state h.trapframe h.pagetable h.sz) ?_ fun _ _ => rfl
  rw [owned_fields h.trapframe h.pagetable h.sz]

end

end ZeptOS.Mem
