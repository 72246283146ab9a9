import ZeptOS.Mem.Sized

/-!
# Out of memory with the hardware shadow stack

`proc_pagetable` does not look at what `kalloc` returns for the shadow-stack page. With
exactly three pages left it maps physical page 0 there and returns a page table as if
nothing had happened; whoever frees that table panics in `kfree`. This is the only number
of free pages at which `fork` (which has taken one page before) and `exec` go wrong.
-/

namespace ZeptOS.Mem

open Lib Lib.Prog

variable {i : Nat} {s : Sys} {B : Multiset Nat} {c : Board} {path : List UInt8}
  {file : Option Image} {argv : List (List UInt8)}

def Vm.mapsZero (s : Vm) (r : Nat) : Prop :=
  ∃ v, v < 2 ^ 26 ∧ isValid (s.leaf r v) ∧ PTE2PA (s.leaf r v) = 0

def Sys.noZero (s : Sys) : Prop := ∀ i ∈ s.live, ¬ s.vm.mapsZero (s.proc i).pagetable

/-- The call of the process `i` has failed and left nothing behind. -/
structure Undone (s s' : Sys) (i : Nat) (r : Int) : Prop where
  result : r = -1
  free : (↑s'.vm.freelist : Multiset Nat) = ↑s.vm.freelist
  noZero : s'.noZero
  pagetable : (s'.proc i).pagetable = (s.proc i).pagetable
  sz : (s'.proc i).sz = (s.proc i).sz
  map : ∀ v, s'.vm.leaf (s.proc i).pagetable v = s.vm.leaf (s.proc i).pagetable v

/-- The call does not panic, and is undone if some `kalloc` on the way has returned 0. -/
def Survives (x : P Int) (s : Sys) (i : Nat) : Prop :=
  wp x (fun _ => False) (fun r s' => s'.vm.oom = true → Undone s s' i r) s

section
variable {s' : Sys} {vm : Vm} {X : Multiset Nat} {j r tf sz : Nat}

theorem Space.mapsZero_iff (h : Space c vm r tf sz) (hc : c.shadowStack = true) (htf : IsPage c tf)
    (ho : Own c vm (vm.space c r sz)) : vm.mapsZero r ↔ vm.shadowPage r = 0 := by
  constructor
  · rintro ⟨v, hv, hval, h0⟩
    by_cases hlow : v < pages sz
    · have hpg := ho.isPage (Multiset.mem_add.mpr (.inr (mem_user_of_lt (c := c) hlow)))
      exact absurd h0 hpg.pos
    · by_cases hgap : v < vShadow
      · exact absurd hval (h.gap v (by omega) hgap)
      · rcases special_of_ge (Nat.le_of_not_lt hgap) hv with rfl | rfl | rfl
        · exact h0
        · rw [h.trapframe, PTE2PA_mkPte (by decide) (htf.lt.trans (by decide)) htf.1] at h0
          exact absurd h0 htf.pos
        · have hlt : c.trampoline < 2 ^ 62 := Nat.lt_of_lt_of_le c.trampoline_lt
            (c.kernelEnd_le.trans (by decide))
          rw [h.trampoline, PTE2PA_mkPte (by decide) hlt c.trampoline_aligned] at h0
          have := c.kernbase_le
          rw [h0] at this
          exact absurd this (by decide)
  · intro h0
    exact ⟨vShadow, by decide, (h.shadow_valid hc).1, h0⟩

theorem mem_live : i ∈ s.live ↔ i < NPROC ∧ (s.proc i).state ≠ .unused := by
  unfold Sys.live
  rw [Finset.mem_filter, Finset.mem_range]

theorem MemOk.mapsZero_iff (h : MemOk c s X) (hc : c.shadowStack = true) (hi : i ∈ s.live) :
    s.vm.mapsZero (s.proc i).pagetable ↔ s.vm.shadowPage (s.proc i).pagetable = 0 := by
  obtain ⟨hi, hl⟩ := mem_live.mp hi
  obtain ⟨-, -, hsp⟩ := (h.slots i hi).space hl
  exact hsp.mapsZero_iff hc (h.isPage_trapframe hi hl) (h.space_own' hi hl)

theorem SlotStep.leaf (h : SlotStep c s s' i) (hm : MemOk c s X) (hi : i < NPROC) (hj : j ∈ s.live)
    (hji : j ≠ i) (v : Nat) : s'.vm.leaf (s.proc j).pagetable v = s.vm.leaf (s.proc j).pagetable v := by
  obtain ⟨hj, hl⟩ := mem_live.mp hj
  obtain ⟨h1, h2, -⟩ := (hm.slots j hj).space hl
  refine Vm.leafAt_congr fun q hq => h.mem hm hi ?_
  refine Multiset.mem_add.mpr (.inl (mem_otherPages hj hji ?_))
  rw [owned_live h1 h2]
  exact Multiset.mem_add.mpr (.inr (Multiset.mem_add.mpr (.inl hq)))

theorem SlotStep.noZero (h : SlotStep c s s' i) (hm : MemOk c s X) (hi : i < NPROC) (h0 : s.noZero)
    (hself : i ∈ s'.live → ¬ s'.vm.mapsZero (s'.proc i).pagetable) : s'.noZero := by
  intro j hj
  by_cases hji : j = i
  · rw [hji] at hj ⊢
    exact hself hj
  · obtain ⟨hj1, hj2⟩ := mem_live.mp hj
    rw [h.others j hji] at hj2 ⊢
    have hlive : j ∈ s.live := mem_live.mpr ⟨hj1, hj2⟩
    rintro ⟨v, hv, hval, hzero⟩
    rw [h.leaf hm hi hlive hji] at hval hzero
    exact h0 j hlive ⟨v, hv, hval, hzero⟩

/-! ## `fork` -/

theorem Forked.undone {res : Int} (h : Good c s B) (hi : i < NPROC) (hl : ¬ (s.proc i).gone)
    (h0 : s.noZero) (hoom : s.vm.oom = false)
    (hgood : ¬ (s.freeSlot ≠ none ∧ s.vm.freelist.length = 4)) (hf : Forked c s s' B i res)
    (hoom' : s'.vm.oom = true) : Undone s s' i res := by
  have hli : (s.proc i).state ≠ .unused := fun hh => hl (.inl hh)
  cases hf with
  | noSlot slot same => rw [same, hoom] at hoom'; cases hoom'
  | @noPages np slot step cleared oom good few =>
    obtain ⟨hnp, hun⟩ := freeSlot_some slot
    have hne : i ≠ np := by
      rintro rfl
      exact hli hun
    have hfree : (↑s'.vm.freelist : Multiset Nat) = ↑s.vm.freelist := by
      have hbal := step.bal
      rwa [cleared, owned_cleared, (h.mem.slots np hnp).owned_unused hun, zero_add, zero_add] at hbal
    refine ⟨rfl, hfree, step.noZero h.mem hnp h0 fun hlive => ?_, ?_, ?_, fun v => ?_⟩
    · exact absurd (by rw [cleared]; rfl) (mem_live.mp hlive).2
    · rw [step.others i hne]
    · rw [step.others i hne]
    · exact step.leaf h.mem hnp (mem_live.mpr ⟨hi, hli⟩) hne v
  | @ok np child =>
    have hslot : s.freeSlot ≠ none := by
      rw [child.slot]
      exact Option.some_ne_none np
    rw [(child.shadow fun hh => hgood ⟨hslot, hh.2⟩).1, hoom] at hoom'
    cases hoom'

/-- **`fork` survives every number of free pages but four.** -/
theorem fork_survives_iff (hc : c.shadowStack = true) (h : Good c s B) (hi : i < NPROC)
    (hl : ¬ (s.proc i).gone) (h0 : s.noZero) (hoom : s.vm.oom = false) :
    Survives (fork c i) s i ↔ ¬ (s.freeSlot ≠ none ∧ s.vm.freelist.length = 4) := by
  constructor
  · rintro hsafe ⟨hslot, h4⟩
    have hspec := fork_spec (E := fun _ => True) h hi hl fun _ _ _ => trivial
    obtain ⟨r, s', -, hundone, hf⟩ := run_of_wp (wp_conseq (wp_and hsafe hspec) (fun _ hh => hh.1)
      fun _ _ hh => hh)
    cases hf with
    | noSlot slot => exact hslot slot
    | noPages slot step cleared oom good few => exact good ⟨hc, h4⟩
    | ok child =>
      have hneg := (hundone (child.noShadow hc h4).1).result
      omega
  · intro hgood
    refine wp_mono (fork_spec h hi hl fun _ hslot h4 => hgood ⟨hslot, h4⟩) ?_
    intro r s' hf hoom'
    exact hf.undone h hi hl h0 hoom hgood hoom'

/-! ## `exec` -/

/-- **`exec` survives every number of free pages but three.** -/
theorem exec_survives_iff (hc : c.shadowStack = true) (h : Good c s B) (hi : i < NPROC)
    (hl : ¬ (s.proc i).gone) (h0 : s.noZero) (hoom : s.vm.oom = false) :
    Survives (exec c i path file argv) s i ↔ ¬ (isElf file ∧ s.vm.freelist.length = 3) := by
  have hli : (s.proc i).state ≠ .unused := fun hh => hl (.inl hh)
  have hlive : i ∈ s.live := mem_live.mpr ⟨hi, hli⟩
  constructor
  · rintro hsafe ⟨helf, h3⟩
    have hspec := @exec_spec c s i _ (fun _ => True) path argv file h.mem hi hli (fun _ _ _ => trivial)
      fun _ _ => trivial
    obtain ⟨r, s', -, -, he⟩ := run_of_wp (wp_conseq (wp_and hsafe hspec) (fun _ hh => hh.1)
      fun _ _ hh => hh)
    cases he with
    | refused elf => exact elf helf
    | failed elf step proc mem good cause => exact good ⟨hc, h3⟩
    | ok prog pt elf step proc oom shadow good old image => exact good ⟨hc, h3⟩
  · intro hgood
    refine wp_mono (exec_spec h.mem hi hli (fun _ helf h3 => hgood ⟨helf, h3⟩) fun _ hzero =>
      h0 i hlive ((h.mem.mapsZero_iff hc hlive).mpr hzero)) ?_
    intro r s' he hoom'
    cases he with
    | refused elf same => rw [same, hoom] at hoom'; cases hoom'
    | ok prog pt elf step proc oom shadow good old image => rw [oom, hoom] at hoom'; cases hoom'
    | failed elf step proc mem good cause =>
      obtain ⟨hfree, hleaf⟩ := step.unchanged h.mem hi hli proc mem
      refine ⟨rfl, hfree, step.noZero h.mem hi h0 fun _ => ?_, by rw [proc], by rw [proc], hleaf⟩
      rw [proc]
      rintro ⟨v, hv, hval, hzero⟩
      rw [hleaf] at hval hzero
      exact h0 i hlive ⟨v, hv, hval, hzero⟩

/-- **Running out of memory is survived except at one number of free pages**: `fork` at
    four, if it has found a slot, and `exec` at three, if it has found an executable. -/
theorem exhaustion_survived_iff {path : List UInt8} {file : Option Image} {argv : List (List UInt8)}
    (hc : c.shadowStack = true) (h : Good c s B) (hi : i < NPROC) (hl : ¬ (s.proc i).gone)
    (h0 : s.noZero) (hoom : s.vm.oom = false) :
    (Survives (fork c i) s i ↔ ¬ (s.freeSlot ≠ none ∧ s.vm.freelist.length = 4)) ∧
    (Survives (exec c i path file argv) s i ↔ ¬ (isElf file ∧ s.vm.freelist.length = 3)) :=
  ⟨fork_survives_iff hc h hi hl h0 hoom, exec_survives_iff hc h hi hl h0 hoom⟩

end

/-! ## The two numbers -/

section
variable {k : Nat}

theorem Booted.noZero (h : Booted c s B) (hc : c.shadowStack = true) : s.noZero := by
  intro i hi
  rw [h.good.mem.mapsZero_iff hc hi]
  by_cases hi0 : i = 0
  · rw [hi0]
    exact h.shadow hc
  · exact absurd (h.others i hi0) (mem_live.mp hi).2

theorem Booted.not_gone (h : Booted c s B) : ¬ (s.proc 0).gone := by
  unfold Proc.gone
  rw [h.state]
  decide

theorem Booted.freeSlot (h : Booted c s B) : s.freeSlot ≠ none := by
  intro hnone
  unfold Sys.freeSlot at hnone
  have h1 := List.find?_eq_none.mp hnone 1 (List.mem_range.mpr (by decide))
  rw [h.others 1 (by decide)] at h1
  exact h1 rfl

theorem exists_booted_virt (shadowStack landingPad : Bool) (hk : k ≤ 30000) :
    ∃ s B, Booted (Board.virt shadowStack landingPad) s B ∧ s.vm.freelist.length = k := by
  have hram : (ramPages (Board.virt shadowStack landingPad)).card = 32000 := by
    rw [card_ramPages]
    change 0x88000000 / PGSIZE - pages 0x80300000 = 32000
    decide
  have hcode : ([] : List UInt8).length < PGSIZE := by decide
  obtain ⟨ps, s, -, hb, hleft⟩ := boot_runs (n := 0) (fun _ => Bytes.fill 0) (by rw [hram]; decide) hcode
  exact hb.drain (by omega)

theorem exists_booted (hk : k ≤ 30000) :
    ∃ s B, Booted (Board.virt true true) s B ∧ s.vm.freelist.length = k :=
  exists_booted_virt true true hk

end

theorem fork_panics (hc : c.shadowStack = true) (h : Good c s B) (hi : i < NPROC)
    (hl : ¬ (s.proc i).gone) (hslot : s.freeSlot ≠ none) (h4 : s.vm.freelist.length = 4)
    (hsz : pages (s.proc i).sz ≠ 0) : fork c i s = .error .kfree := by
  refine error_of_wp (wp_mono (fork_spec h hi hl fun _ _ _ => rfl) ?_)
  intro r s' hf
  cases hf with
  | noSlot slot => exact hslot slot
  | noPages slot step cleared oom good few => exact good ⟨hc, h4⟩
  | ok child => exact hsz (child.noShadow hc h4).2.2

theorem exec_panics (hc : c.shadowStack = true) (h : Good c s B) (hi : i < NPROC)
    (hl : ¬ (s.proc i).gone) (helf : isElf file) (h3 : s.vm.freelist.length = 3) :
    exec c i path file argv s = .error .kfree := by
  refine error_of_wp (wp_mono (exec_spec h.mem hi (fun hh => hl (.inl hh)) (fun _ _ _ => rfl)
    fun _ _ => rfl) ?_)
  intro r s' he
  cases he with
  | refused elf => exact elf helf
  | failed elf step proc mem good cause => exact good ⟨hc, h3⟩
  | ok prog pt elf step proc oom shadow good old image => exact good ⟨hc, h3⟩

def bareElf : Image where
  size := 64
  data k := [0x7F, 0x45, 0x4C, 0x46].getD k 0
  size_le := by decide

theorem isElf_bareElf : isElf (some bareElf) := ⟨bareElf, rfl, by decide, by decide⟩

/-- The first process, just booted, forks with four pages left, or executes a file with
    three. -/
theorem exhaustion_panics : (∃ s B, Booted (Board.virt true true) s B ∧ s.noZero ∧
      s.vm.freelist.length = 4 ∧ fork (Board.virt true true) 0 s = .error .kfree) ∧
    ∃ s B, Booted (Board.virt true true) s B ∧ s.noZero ∧ s.vm.freelist.length = 3 ∧
      exec (Board.virt true true) 0 [] (some bareElf) [] s = .error .kfree := by
  refine ⟨?_, ?_⟩
  · obtain ⟨s, B, hb, h4⟩ := exists_booted (k := 4) (by decide)
    have hsz : pages (s.proc 0).sz ≠ 0 := by
      rw [hb.sz]
      decide
    exact ⟨s, B, hb, hb.noZero rfl, h4,
      fork_panics rfl hb.good (by decide) hb.not_gone hb.freeSlot h4 hsz⟩
  · obtain ⟨s, B, hb, h3⟩ := exists_booted (k := 3) (by decide)
    exact ⟨s, B, hb, hb.noZero rfl, h3, exec_panics rfl hb.good (by decide) hb.not_gone isElf_bareElf h3⟩

theorem exhaustion_survived_iff_five : ∃ s B, Booted (Board.virt true true) s B ∧
    s.vm.freelist.length = 5 ∧ Survives (fork (Board.virt true true) 0) s 0 ∧
    Survives (exec (Board.virt true true) 0 [] (some bareElf) [[104, 105]]) s 0 := by
  obtain ⟨s, B, hb, h5⟩ := exists_booted (k := 5) (by decide)
  have hiff := @exhaustion_survived_iff 0 s B _ [] (some bareElf) [[104, 105]] rfl hb.good (by decide) hb.not_gone
    (hb.noZero rfl) hb.oom
  exact ⟨s, B, hb, h5, hiff.1.mpr fun hh => by omega, hiff.2.mpr fun hh => by omega⟩

end ZeptOS.Mem
