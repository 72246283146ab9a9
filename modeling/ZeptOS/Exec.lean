import ZeptOS.Fs.Within
import ZeptOS.Mem.Image

/-!
# `exec` as a whole

The two halves of `exec` are modelled apart: what it does to memory and to the process, given the
file that its path leads to (`Mem.exec`), and what it does to the file system, given how the rest of
it goes (`Fs.exec`). Without the hardware shadow stack no file makes it panic
(`exec_never_panics`), and when it fails it has left both halves as they were
(`failed_exec_changes_nothing`).
-/

namespace ZeptOS

open Lib Lib.Prog Mem

section
variable {c : Board} {s s' : Sys} {X : Multiset Nat} {i : Nat} {path : List UInt8}
  {file : Option Image} {argv : List (List UInt8)}

theorem exec_runs (hc : c.shadowStack = false) (h : MemOk c s X) (hi : i < NPROC)
    (hl : (s.proc i).state ≠ .unused) (path : List UInt8) (file : Option Image)
    (argv : List (List UInt8)) :
    ∃ r s', Mem.exec c i path file argv s = .ok (r, s') ∧ Execed c s s' i path file argv r := by
  have hno : c.shadowStack ≠ true := by
    rw [hc]
    exact Bool.false_ne_true
  have hspec : wp (Mem.exec c i path file argv) (fun _ => False) _ s :=
    exec_spec h hi hl (fun hh _ _ => hno hh) fun hh _ => hno hh
  exact run_of_wp hspec

theorem exec_fails_of_few (hc : c.shadowStack = false) (h : MemOk c s X) (hi : i < NPROC)
    (hl : (s.proc i).state ≠ .unused) (hfew : s.vm.freelist.length < 3) (path : List UInt8)
    (file : Option Image) (argv : List (List UInt8)) :
    ∃ s', Mem.exec c i path file argv s = .ok (-1, s') := by
  obtain ⟨r, s', hrun, hend⟩ := exec_runs hc h hi hl path file argv
  cases hend with
  | refused => exact ⟨s', hrun⟩
  | failed => exact ⟨s', hrun⟩
  | ok prog pt elf step proc oom shadow good old image =>
    obtain ⟨img, vm₁, vm₂, -, him⟩ := image
    have htable : wp (procPagetable c (s.proc i).trapframe) (fun _ => False) _ s.vm :=
      procPagetable_spec (h.own_slot hi).free (h.isPage_trapframe hi hl)
    rcases post_of_run htable him.table with ⟨-, h0, -⟩ | ⟨h3, -⟩
    · exact absurd h0 him.pt_ne
    · omega

/-- **No file makes `exec` panic.** -/
theorem exec_never_panics (hc : c.shadowStack = false) (h : MemOk c s X) (hi : i < NPROC)
    (hl : (s.proc i).state ≠ .unused) (hargc : argv.length < MAXARG)
    (hlen : ∀ a ∈ argv, a.length < PGSIZE) :
    ∃ r s', Mem.exec c i path file argv s = .ok (r, s') ∧ (r = argv.length ∨ r = -1) := by
  obtain ⟨r, s', hrun, hend⟩ := exec_runs hc h hi hl path file argv
  refine ⟨r, s', hrun, ?_⟩
  cases hend with
  | refused => exact .inr rfl
  | failed => exact .inr rfl
  | ok prog pt elf step proc oom shadow good old image =>
    obtain ⟨img, vm₁, vm₂, -, him⟩ := image
    rw [(him.args (h.own_slot hi).left hargc hlen).2.1]
    exact .inl rfl

/-- The first process, with a file of two segments that share a page. -/
theorem exec_never_panics_writableCode : ∃ s B, Booted (Board.virt false false) s B ∧
    ∃ r s', Mem.exec (Board.virt false false) 0 [] (some writableCode) [[104, 105]] s = .ok (r, s') ∧
      (r = 1 ∨ r = -1) := by
  obtain ⟨s, B, hb, -⟩ := exists_booted_virt false false (k := 100) (by decide)
  exact ⟨s, B, hb, exec_never_panics rfl hb.good.mem (by decide)
    (by rw [hb.state]; decide) (by decide) (by decide)⟩

/-- A process and its memory are as they were, and the same pages are free. -/
structure Intact (s s' : Sys) (i : Nat) : Prop where
  proc : s'.proc i = s.proc i
  map : ∀ v, s'.vm.leaf (s.proc i).pagetable v = s.vm.leaf (s.proc i).pagetable v
  bytes : ∀ a, vpn a < pages (s.proc i).sz →
    s'.vm.byte (s.proc i).pagetable a = s.vm.byte (s.proc i).pagetable a
  trapframe : s'.vm.mem (s.proc i).trapframe = s.vm.mem (s.proc i).trapframe
  free : (↑s'.vm.freelist : Multiset Nat) = ↑s.vm.freelist

theorem Intact.refl (s : Sys) (i : Nat) : Intact s s i :=
  ⟨rfl, fun _ => rfl, fun _ _ => rfl, rfl, rfl⟩

theorem intact_of_failed (h : MemOk c s X) (hi : i < NPROC) (hl : (s.proc i).state ≠ .unused)
    (hrun : Mem.exec c i path file argv s = .ok (-1, s')) : Intact s s' i := by
  have hend := execed_of_run h hi hl hrun
  generalize hr : (-1 : Int) = r at hend
  cases hend with
  | refused elf same =>
    rw [same]
    exact .refl s i
  | failed elf step proc mem good cause =>
    obtain ⟨hfree, hleaf⟩ := step.unchanged h hi hl proc mem
    obtain ⟨h1, h2, -⟩ := (h.slots i hi).space hl
    rw [owned_live h1 h2] at mem
    refine ⟨proc, hleaf, fun a ha => Vm.byte_congr (hleaf _) (mem _ ?_), mem _ ?_, hfree⟩
    · exact Multiset.mem_add.mpr (.inr (Multiset.mem_add.mpr (.inr (mem_user_of_lt ha))))
    · exact Multiset.mem_add.mpr (.inl (Multiset.mem_singleton_self _))
  | ok prog => omega

/-- **A failed `exec` changes nothing**: not the process, its memory or the free pages, and in the file
system, wherever the other processes are in their calls, not the current directory, the open files
or how often an inode is referenced. -/
theorem failed_exec_changes_nothing {sb : Fs.Superblock} {disk : Nat → Block} {p : Fs.Proc}
    {k : Machine.Config Fs.sig Fs.Proc Fs.State Fs.Call Int} (h : MemOk c s X)
    (hi : i < NPROC) (hl : (s.proc i).state ≠ .unused)
    (hreach : (Fs.system sb).Reach (Fs.boot disk) k) (hidle : k.thread p = none)
    (hlive : k.state.pstate p = .live) :
    (∀ s', Mem.exec c i path file argv s = .ok (-1, s') → Intact s s' i) ∧
    ∀ argc, Fs.Does Fs.anyEnd p (Fs.exec sb path argc) (fun _ s' =>
      s'.cwd p = k.state.cwd p ∧ s'.ofile p = k.state.ofile p ∧
      ∀ ip, (s'.ident ip).ref = (k.state.ident ip).ref) k.state :=
  ⟨fun _ hrun => intact_of_failed h hi hl hrun, fun argc =>
    Fs.exec_drops_reference hreach hidle hlive path argc⟩

/-- The first process, on a machine with two pages left, and on a disk where the path leads to a
directory. -/
theorem failed_exec_changes_nothing_twoPages : ∃ s B, Booted (Board.virt false false) s B ∧
    (∃ s', Mem.exec (Board.virt false false) 0 [0x61] (some writableCode) [] s = .ok (-1, s') ∧
      Intact s s' 0) ∧
    (Fs.alone Fs.plenty 0 (Fs.exec Fs.chainSb [0x61] 0) (Fs.boot Fs.chainDisk)).map Prod.fst = .ok (-1) ∧
    Fs.Does Fs.anyEnd 0 (Fs.exec Fs.chainSb [0x61] 0) (fun _ s' =>
      s'.cwd 0 = some 0 ∧ s'.ofile 0 = (fun _ => none) ∧
      ∀ ip, (s'.ident ip).ref = ((Fs.boot Fs.chainDisk).ident ip).ref) (Fs.boot Fs.chainDisk) := by
  obtain ⟨s, B, hb, h2⟩ := exists_booted_virt false false (k := 2) (by decide)
  have hl : (s.proc 0).state ≠ .unused := by
    rw [hb.state]
    decide
  obtain ⟨s', hrun⟩ := exec_fails_of_few rfl hb.good.mem (by decide) hl (by omega) [0x61]
    (some writableCode) []
  obtain ⟨hmem, hfs⟩ := @failed_exec_changes_nothing _ s _ 0 [0x61] (some writableCode) [] Fs.chainSb
    Fs.chainDisk 0 _ hb.good.mem (by decide) hl .refl rfl rfl
  exact ⟨s, B, hb, ⟨s', hrun, hmem s' hrun⟩, by decide +kernel, hfs 0⟩

end

end ZeptOS
