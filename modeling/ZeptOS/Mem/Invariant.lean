import ZeptOS.Mem.Files
import ZeptOS.Mem.Fork

/-!
# The invariant between system calls

`Good` puts the three parts together: the pages of the processes, the pages of the
kernel, and the references from `ofile` entries to open files. It is a statement about
the state between two system calls; while one runs, the kernel holds references of its
own, and `Held` counts these as well.
-/

namespace ZeptOS.Mem

open Lib Lib.Prog Function

variable {i j fd : Nat} {cnt extra' : Nat → Nat} {s : Sys}

/-! ## References from descriptors -/

def entryRef : Option Nat → Nat → Nat
  | none => 0
  | some f => Pi.single f 1

@[simp] theorem entryRef_none : entryRef none = 0 := rfl
@[simp] theorem entryRef_some (f : Nat) : entryRef (some f) = Pi.single f 1 := rfl

def rowRefs (ofile : Nat → Option Nat) : Nat → Nat :=
  ∑ fd ∈ Finset.range NOFILE, entryRef (ofile fd)

/-- The references from all descriptors of all processes. -/
def opens (proc : Nat → Proc) : Nat → Nat := ∑ i ∈ Finset.range NPROC, rowRefs (proc i).ofile

theorem sum_update {n : Nat} (g g' : Nat → Nat → Nat) (hi : i < n) (h : ∀ j, j ≠ i → g' j = g j) :
    (∑ j ∈ Finset.range n, g' j) + g i = (∑ j ∈ Finset.range n, g j) + g' i := by
  rw [← Finset.add_sum_erase _ _ (Finset.mem_range.mpr hi),
    ← Finset.add_sum_erase (Finset.range n) g (Finset.mem_range.mpr hi),
    Finset.sum_congr rfl fun j hj => h j (Finset.mem_erase.mp hj).1]
  abel

variable {x : Option Nat}

theorem rowRefs_update {ofile : Nat → Option Nat} (hfd : fd < NOFILE) :
    rowRefs (update ofile fd x) + entryRef (ofile fd) = rowRefs ofile + entryRef x := by
  have h : rowRefs (update ofile fd x) + entryRef (ofile fd) =
      rowRefs ofile + entryRef (update ofile fd x fd) :=
    sum_update (fun k => entryRef (ofile k)) (fun k => entryRef (update ofile fd x k)) hfd
      fun j hj => by rw [update_of_ne hj]
  rwa [update_self] at h

theorem opens_congr {proc proc' : Nat → Proc} (h : ∀ i, i < NPROC → (proc' i).ofile = (proc i).ofile) :
    opens proc' = opens proc :=
  Finset.sum_congr rfl fun i hi => by rw [h i (Finset.mem_range.mp hi)]

theorem putOfile_self : (s.putOfile i fd x).proc i =
    { s.proc i with ofile := update (s.proc i).ofile fd x } := update_self ..

theorem putOfile_of_ne (h : j ≠ i) : (s.putOfile i fd x).proc j = s.proc j := update_of_ne h ..

theorem opens_putOfile (hi : i < NPROC) (hfd : fd < NOFILE) :
    opens (s.putOfile i fd x).proc + entryRef ((s.proc i).ofile fd) = opens s.proc + entryRef x := by
  have hself : ((s.putOfile i fd x).proc i).ofile = update (s.proc i).ofile fd x := by
    rw [putOfile_self]
  have h : opens (s.putOfile i fd x).proc + rowRefs (s.proc i).ofile =
      opens s.proc + rowRefs ((s.putOfile i fd x).proc i).ofile :=
    sum_update (fun j => rowRefs (s.proc j).ofile)
      (fun j => rowRefs ((s.putOfile i fd x).proc j).ofile) hi fun j hj => by rw [putOfile_of_ne hj]
  have hrow : rowRefs (update (s.proc i).ofile fd x) + entryRef ((s.proc i).ofile fd) =
      rowRefs (s.proc i).ofile + entryRef x := rowRefs_update hfd
  rw [← hself] at hrow
  refine add_right_cancel (b := rowRefs (s.proc i).ofile) ?_
  calc opens (s.putOfile i fd x).proc + entryRef ((s.proc i).ofile fd) + rowRefs (s.proc i).ofile
      = opens (s.putOfile i fd x).proc + rowRefs (s.proc i).ofile + entryRef ((s.proc i).ofile fd) := by abel
    _ = opens s.proc + (rowRefs ((s.putOfile i fd x).proc i).ofile + entryRef ((s.proc i).ofile fd)) := by
        rw [← add_assoc]
        exact congrArg (· + entryRef ((s.proc i).ofile fd)) h
    _ = opens s.proc + entryRef x + rowRefs (s.proc i).ofile := by
        rw [hrow]
        abel

/-! ## The invariant -/

/-- A slot that has no process, or one that is past `exit`. -/
def Proc.gone (p : Proc) : Prop := p.state = .unused ∨ p.state = .zombie

instance (p : Proc) : Decidable p.gone := inferInstanceAs (Decidable (_ ∨ _))

structure Held (c : Board) (s : Sys) (B : Multiset Nat) (extra : Nat → Nat) : Prop where
  kernel : KernelOk c s B (opens s.proc + extra)
  bounded : ∀ i, i < NPROC → ∀ fd, fd < NOFILE → ∀ f, (s.proc i).ofile fd = some f → f < NFILE
  closed : ∀ i, i < NPROC → (s.proc i).gone → ∀ fd, fd < NOFILE → (s.proc i).ofile fd = none

/-- **The invariant of the system**, with `B` the pages allocated while booting. -/
def Good (c : Board) (s : Sys) (B : Multiset Nat) : Prop := Held c s B 0

section
variable {c : Board} {s' : Sys} {B : Multiset Nat} {extra : Nat → Nat} {f : Nat}

theorem Held.mem (h : Held c s B extra) : MemOk c s ((pipePages s.file).val + B) := h.kernel.mem

theorem KernelOk.step (h : KernelOk c s B cnt) (hi : i < NPROC) (hs : SlotStep c s s' i) :
    KernelOk c s' B cnt := by
  have hm := h.mem.step hi hs
  rw [← hs.file] at hm
  refine ⟨hm, ?_⟩
  rw [hs.file]
  refine h.files.mem_congr fun q hq => hs.mem h.mem hi ?_
  exact Multiset.mem_add.mpr (.inr (Multiset.mem_add.mpr (.inl hq)))

theorem Held.step (h : Held c s B extra) (hi : i < NPROC) (hs : SlotStep c s s' i)
    (hof : (s'.proc i).ofile = (s.proc i).ofile) (hgone : (s'.proc i).gone → (s.proc i).gone ∨
      ∀ fd, fd < NOFILE → (s.proc i).ofile fd = none) : Held c s' B extra := by
  have hofile : ∀ j, (s'.proc j).ofile = (s.proc j).ofile := by
    intro j
    by_cases hj : j = i
    · rw [hj, hof]
    · rw [hs.others j hj]
  refine ⟨?_, fun j hj fd hfd f hf => ?_, fun j hj hg fd hfd => ?_⟩
  · rw [opens_congr fun j _ => hofile j]
    exact h.kernel.step hi hs
  · rw [hofile j] at hf
    exact h.bounded j hj fd hfd f hf
  · rw [hofile j]
    by_cases hji : j = i
    · rw [hji] at hg ⊢
      rcases hgone hg with hg | hg
      · exact h.closed i hi hg fd hfd
      · exact hg fd hfd
    · rw [hs.others j hji] at hg
      exact h.closed j hj hg fd hfd

theorem sameMemory_putOfile : SameMemory (s.proc j) ((s.putOfile i fd x).proc j) := by
  by_cases hj : j = i
  · rw [hj, putOfile_self]
    exact ⟨Iff.rfl, rfl, rfl, rfl⟩
  · rw [putOfile_of_ne hj]
    exact SameMemory.refl _

theorem KernelOk.putOfile (h : KernelOk c s B cnt) : KernelOk c (s.putOfile i fd x) B cnt :=
  ⟨h.mem.kernel (fun _ _ => sameMemory_putOfile) (fun _ _ => rfl) rfl, h.files⟩

theorem Held.put (h : Held c s B extra) (hx : ∀ f, x = some f → f < NFILE)
    (hlive : x = none ∨ ¬ (s.proc i).gone)
    (hk : KernelOk c (s.putOfile i fd x) B (opens (s.putOfile i fd x).proc + extra')) :
    Held c (s.putOfile i fd x) B extra' := by
  refine ⟨hk, fun j hj k hk f hf => ?_, fun j hj hg k hk => ?_⟩
  · by_cases hji : j = i
    · rw [hji, putOfile_self] at hf
      have hf : update (s.proc i).ofile fd x k = some f := hf
      by_cases hkf : k = fd
      · rw [hkf, update_self] at hf
        exact hx f hf
      · rw [update_of_ne hkf] at hf
        exact h.bounded i (hji ▸ hj) k hk f hf
    · rw [putOfile_of_ne hji] at hf
      exact h.bounded j hj k hk f hf
  · by_cases hji : j = i
    · rw [hji, putOfile_self] at hg ⊢
      have hg : (s.proc i).gone := hg
      by_cases hkf : k = fd
      · rw [hkf]
        exact (update_self ..).trans (hlive.resolve_right (not_not_intro hg))
      · exact (update_of_ne hkf ..).trans (h.closed i (hji ▸ hj) hg k hk)
    · rw [putOfile_of_ne hji] at hg ⊢
      exact h.closed j hj hg k hk

theorem Held.install (h : Held c s B (extra + Pi.single f 1)) (hi : i < NPROC) (hfd : fd < NOFILE)
    (hf : f < NFILE) (hlive : ¬ (s.proc i).gone) (hfree : (s.proc i).ofile fd = none) :
    Held c (s.putOfile i fd (some f)) B extra := by
  refine h.put (fun g hg => by cases hg; exact hf) (.inr hlive) ?_
  have ho := opens_putOfile (s := s) (x := some f) hi hfd
  rw [hfree, entryRef_none, add_zero, entryRef_some] at ho
  rw [ho, add_assoc, add_comm (Pi.single f 1)]
  exact h.kernel.putOfile

theorem Held.remove (h : Held c s B extra) (hi : i < NPROC) (hfd : fd < NOFILE)
    (hf : (s.proc i).ofile fd = some f) :
    Held c (s.putOfile i fd none) B (extra + Pi.single f 1) := by
  refine h.put (fun g hg => by cases hg) (.inl rfl) ?_
  have ho := opens_putOfile (s := s) (x := none) hi hfd
  rw [hf, entryRef_none, add_zero, entryRef_some] at ho
  rw [add_comm extra, ← add_assoc, ho]
  exact h.kernel.putOfile

theorem Held.files (h : Held c s B extra) (hs : FileStep s s')
    (hk : KernelOk c s' B (opens s.proc + extra')) : Held c s' B extra' := by
  refine ⟨by rw [hs.proc]; exact hk, ?_, ?_⟩
  · rw [hs.proc]
    exact h.bounded
  · rw [hs.proc]
    exact h.closed

end

end ZeptOS.Mem
