import ZeptOS.Mem.Runs

/-!
# The size of a process

`p->sz` decides what `uvmunmap`, `uvmcopy` and `uvmfree` go through, and they panic at a
page that is not there. So the size has to say exactly which pages below the special ones
are mapped. That is part of the invariant, and every call keeps it; with it none of these
panics can be reached.
-/

namespace ZeptOS.Mem

open Lib Lib.Prog

/-- The mapped pages below `SHADOW_STACK` are those below the size, rounded up. -/
def WellSized (vm : Vm) (p : Proc) : Prop :=
  ∀ v, v < vShadow ∧ isValid (vm.leaf p.pagetable v) ↔ v < pages p.sz

def Sys.allSized (s : Sys) : Prop := ∀ i ∈ s.live, WellSized s.vm (s.proc i)

/-- The panics of `uvmunmap`, `uvmcopy`, `mappages` and `freewalk` that a wrong size
    would lead to. -/
def sizePanics : List Panic :=
  [.unmapVa, .unmapWalk, .unmapMissing, .unmapLeaf, .copyPte, .copyPage, .remap, .freewalkLeaf,
    .freewalkDepth]

section
variable {c : Board} {s : Sys} {vm : Vm} {B : Multiset Nat} {i : Nat} {p : Proc} {r tf sz : Nat}

theorem Space.wellSized (h : Space c vm p.pagetable tf p.sz) : WellSized vm p := by
  intro v
  constructor
  · rintro ⟨hv, hval⟩
    by_contra hge
    exact h.gap v (by omega) hv hval
  · intro hv
    exact ⟨hv.trans_le h.size, h.low v hv⟩

theorem Good.allSized (h : Good c s B) : s.allSized := by
  intro i hi
  obtain ⟨h1, h2⟩ := Finset.mem_filter.mp hi
  exact ((h.mem.slots i (Finset.mem_range.mp h1)).space h2).2.2.wellSized

/-- **Every call leaves every process well-sized**, the child of a `fork` included, and
    none panics over a size. A `growproc` that fails changes neither the size nor what is
    mapped. -/
theorem calls_keep_wellSized (h : Good c s B) (hi : i < NPROC) (hl : ¬ (s.proc i).gone) :
    (∀ n, wp (growproc c i n) (· ∉ sizePanics) (fun r s' => s'.allSized ∧
      (r = -1 → (s'.proc i).sz = (s.proc i).sz ∧ (s'.proc i).pagetable = (s.proc i).pagetable ∧
        ∀ v, v < 2 ^ 26 → s'.vm.leaf (s.proc i).pagetable v = s.vm.leaf (s.proc i).pagetable v)) s) ∧
    wp (fork c i) (· ∉ sizePanics) (fun _ s' => s'.allSized) s ∧
    (∀ path file argv, wp (exec c i path file argv) (· ∉ sizePanics) (fun _ s' => s'.allSized) s) ∧
    (∀ status, wp (exit c i status) (· ∉ sizePanics) (fun _ s' => s'.allSized) s) ∧
    (∀ addr, wp (wait c i addr) (· ∉ sizePanics) (fun _ s' => s'.allSized) s) := by
  have hli : (s.proc i).state ≠ .unused := fun hh => hl (.inl hh)
  have hkfree : Panic.kfree ∉ sizePanics := by decide
  refine ⟨fun n => ?_, ?_, fun path file argv => ?_, fun status => ?_, fun addr => ?_⟩
  · refine wp_mono (growproc_spec h.mem hi hli) ?_
    rintro r s' ⟨vm, sz, hg⟩
    refine ⟨(hg.good h hi hl).allSized, fun hr => ?_⟩
    obtain ⟨hsz, hleaf⟩ := hg.fail hr
    rw [hg.on.proc, hg.on.vm]
    exact ⟨hsz, rfl, fun v hv => hleaf v (hv.trans_le (by decide))⟩
  · exact wp_mono (fork_spec h hi hl fun _ _ _ => hkfree) fun _ _ hf => (hf.good h).allSized
  · exact wp_mono (exec_spec h.mem hi hli (fun _ _ _ => hkfree) fun _ _ => hkfree)
      fun _ _ he => (he.good h hi).allSized
  · exact wp_mono (exit_good h hi hl fun _ => by decide) fun _ _ hg => hg.allSized
  · exact wp_mono (wait_spec h hi hl fun _ _ => hkfree) fun _ _ hw => (hw.good h).allSized

end

theorem calls_keep_wellSized_boot : ∃ ps s,
    boot (Board.virt true true) 0 [] (Sys.zero fun _ => Bytes.fill 0) = .ok (ps, s) ∧
    wp (growproc (Board.virt true true) 0 (-5000)) (· ∉ sizePanics) (fun _ s' => s'.allSized) s := by
  have hram : 0 + 8 ≤ (ramPages (Board.virt true true)).card := by
    rw [card_ramPages]
    decide
  have hcode : ([] : List UInt8).length < PGSIZE := by decide
  obtain ⟨ps, s, hboot, hb, -⟩ := boot_runs (fun _ => Bytes.fill 0) hram hcode
  have hl : ¬ (s.proc 0).gone := by
    unfold Proc.gone
    rw [hb.state]
    decide
  have hgrow := (calls_keep_wellSized hb.good (by decide) hl).1 (-5000)
  exact ⟨ps, s, hboot, wp_mono hgrow fun _ _ hh => hh.1⟩

end ZeptOS.Mem
