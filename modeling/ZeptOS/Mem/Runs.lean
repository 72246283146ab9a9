import ZeptOS.Mem.Boot

/-!
# Runs of the kernel, and who owns a page

The machine boots, and from then on any process that has not exited may make any of the
modelled system calls, in any order and with any arguments, until the kernel panics. In
every state between two calls the invariant holds; read page by page, it says that every
page of RAM is held exactly once.

Two calls at once are not covered. `fork` and `exec` hold no lock on the memory of their own
process, which is safe because nobody else touches it, but that is not shown here.
-/

namespace ZeptOS.Mem

open Lib Lib.Prog Multiset

variable {i j : Nat} {c : Board} {a : Nat × Call} {B : Multiset Nat}

/-! ## System calls -/

/-- A system call with its arguments, and for `exec` the files there are at the time. -/
inductive Call where
  | fork
  | exec (namei : List UInt8 → Option Image) (path uargv : Nat)
  | growproc (n : Int)
  | exit (status : Nat)
  | wait (addr : Nat)
  | pipe (fdarray : Nat)
  | close (fd : Nat)

def Call.run (c : Board) (i : Nat) : Call → P Unit
  | .fork => do let _ ← Mem.fork c i
  | .exec namei path uargv => do let _ ← sysExec c namei i path uargv
  | .growproc n => do let _ ← Mem.growproc c i n
  | .exit status => Mem.exit c i status
  | .wait addr => do let _ ← Mem.wait c i addr
  | .pipe fdarray => do let _ ← sysPipe c i fdarray
  | .close fd => do let _ ← sysClose c i fd

/-- One call by one process, which must exist and not have exited. -/
def step (c : Board) (s : Sys) (a : Nat × Call) : Outcome Sys Panic :=
  if a.1 < NPROC ∧ ¬ (s.proc a.1).gone then
    match a.2.run c a.1 s with
    | .ok (_, s') => .next s'
    | .error e => .panic e
  else .blocked

abbrev Runs (c : Board) (s₀ : Sys) : Sys → Prop := Reach (· = s₀) (step c) fun _ _ => True

def Reachable (c : Board) (e : Panic) : Prop :=
  e = .initExiting ∨ (c.shadowStack = true ∧ e = .kfree)

section
variable {s s' s₀ : Sys} {E : Panic → Prop}

theorem wp_ignore {α : Type} {x : P α} {Q : Sys → Prop} (h : wp x E (fun _ s' => Q s') s) :
    wp (do let _ ← x) E (fun _ s' => Q s') s := wp_call h fun _ _ hQ => hQ

/-- **Every call keeps the invariant.** -/
theorem Call.good (h : Good c s B) (hi : i < NPROC) (hl : ¬ (s.proc i).gone) (a : Call) :
    wp (a.run c i) (Reachable c) (fun _ s' => Good c s' B) s := by
  cases a with
  | fork =>
    exact wp_ignore (wp_mono (fork_spec h hi hl fun hc _ _ => .inr ⟨hc, rfl⟩) fun _ _ hf => hf.good h)
  | exec namei path uargv => exact wp_ignore (sysExec_good h hi hl fun hc => .inr ⟨hc, rfl⟩)
  | growproc n => exact wp_ignore (growproc_good h hi hl)
  | exit status => exact exit_good h hi hl fun _ => .inl rfl
  | wait addr =>
    exact wp_ignore (wp_mono (wait_spec h hi hl fun hc _ => .inr ⟨hc, rfl⟩) fun _ _ hw => hw.good h)
  | pipe fdarray => exact wp_ignore (sysPipe_good h hi hl)
  | close fd => exact wp_ignore (sysClose_good h hi)

theorem step_good (h : Good c s B) (hs : step c s a = .next s') : Good c s' B := by
  unfold step at hs
  split at hs
  · rename_i hlive
    have hg := Call.good h hlive.1 hlive.2 a.2
    unfold wp at hg
    split at hs
    · rename_i he
      rw [he] at hg
      cases hs
      exact hg
    · cases hs
  · cases hs

theorem step_panic {e : Panic} (h : Good c s B) (hs : step c s a = .panic e) : Reachable c e := by
  unfold step at hs
  split at hs
  · rename_i hlive
    have hg := Call.good h hlive.1 hlive.2 a.2
    unfold wp at hg
    split at hs
    · cases hs
    · rename_i he
      rw [he] at hg
      cases hs
      exact hg
  · cases hs

theorem fork_enabled (h : Good c s B) (hc : c.shadowStack = false) (hi : i < NPROC)
    (hl : ¬ (s.proc i).gone) : ∃ s', step c s (i, .fork) = .next s' := by
  have hsafe := fork_spec (E := fun _ => False) h hi hl fun hh => by
    rw [hc] at hh
    exact absurd hh (by decide)
  obtain ⟨_, s', hrun, -⟩ := run_of_wp (wp_ignore (wp_mono hsafe fun _ _ _ => trivial))
  have hrun : Call.fork.run c i s = .ok ((), s') := hrun
  refine ⟨s', ?_⟩
  unfold step
  rw [if_pos ⟨hi, hl⟩, hrun]

/-- **The invariant holds in every state of every run.** -/
theorem Runs.good (h0 : Good c s₀ B) (hr : Runs c s₀ s) : Good c s B :=
  Reach.invariant (fun _ hs => hs ▸ h0) (fun _ _ _ h _ hs => step_good h hs) hr

end

/-! ## Page by page -/

/-- How many leaf entries below `TRAPFRAME` lead to a page. -/
def Vm.leafCount (s : Vm) (r q : Nat) : Nat :=
  ((Finset.range vTrapframe).filter fun v => isValid (s.leaf r v) ∧ PTE2PA (s.leaf r v) = q).card

def Sys.live (s : Sys) : Finset Nat := (Finset.range NPROC).filter fun i => (s.proc i).state ≠ .unused

/-- How often a page is held: on the free list, as an interior node, as the target of a
    user mapping, as a trapframe, as an open pipe, and by the kernel since booting. -/
def Sys.holders (s : Sys) (boot : List Nat) (q : Nat) : Nat :=
  s.vm.freelist.count q
    + ∑ i ∈ s.live, (s.vm.nodes (s.proc i).pagetable).count q
    + ∑ i ∈ s.live, s.vm.leafCount (s.proc i).pagetable q
    + (s.live.filter fun i => (s.proc i).trapframe = q).card
    + (if q ∈ pipePages s.file then 1 else 0)
    + boot.count q

section
variable {s s' : Sys} {vm : Vm} {r tf sz q : Nat}

theorem Space.leafCount_eq (h : Space c vm r tf sz) (hc : c.shadowStack = false) :
    vm.leafCount r q = (vm.targets r 0 (pages sz)).count q := by
  have hval : ∀ v, v < vTrapframe → (isValid (vm.leaf r v) ↔ v < pages sz) := by
    intro v hv
    refine ⟨fun hval => ?_, h.low v⟩
    by_contra hge
    by_cases hlt : v < vShadow
    · exact h.gap v (by omega) hlt hval
    · have heq : v = vShadow := by
        have : vTrapframe = vShadow + 1 := by decide
        omega
      have hs := h.shadow
      rw [if_neg (by rw [hc]; decide), ← heq] at hs
      exact hs hval
  have hsz : pages sz ≤ vTrapframe := h.size.trans (by decide)
  have hset : (Finset.range vTrapframe).filter
      (fun v => isValid (vm.leaf r v) ∧ PTE2PA (vm.leaf r v) = q) =
      (Finset.range (pages sz)).filter fun v => q = PTE2PA (vm.leaf r v) := by
    ext v
    rw [Finset.mem_filter, Finset.mem_filter, Finset.mem_range, Finset.mem_range]
    constructor
    · rintro ⟨h1, h2, h3⟩
      exact ⟨(hval v h1).mp h2, h3.symm⟩
    · rintro ⟨h1, h2⟩
      exact ⟨h1.trans_le hsz, (hval v (h1.trans_le hsz)).mpr h1, h2.symm⟩
  unfold Vm.leafCount Vm.targets
  rw [hset, count_map]
  simp only [Nat.zero_add]
  rfl

theorem SlotOk.count_owned {p : Proc} (h : SlotOk c vm p) (hc : c.shadowStack = false)
    (hl : p.state ≠ .unused) : (p.owned c vm).count q =
      (if p.trapframe = q then 1 else 0) + (vm.nodes p.pagetable).count q + vm.leafCount p.pagetable q := by
  obtain ⟨h1, h2, hsp⟩ := h.space hl
  have hsh : vm.shadowOf c p.pagetable = 0 := if_neg fun hh => by
    rw [hc] at hh
    exact absurd hh.1 (by decide)
  rw [owned_live h1 h2, hsp.leafCount_eq hc]
  unfold Vm.space Vm.user
  rw [hsh, add_zero, count_add, count_add, count_singleton, ← Nat.add_assoc]
  simp only [eq_comm]

theorem procPages_count (h : ∀ i, i < NPROC → SlotOk c s.vm (s.proc i)) (hc : c.shadowStack = false) :
    (s.procPages c).count q = (s.live.filter fun i => (s.proc i).trapframe = q).card
        + ∑ i ∈ s.live, (s.vm.nodes (s.proc i).pagetable).count q
        + ∑ i ∈ s.live, s.vm.leafCount (s.proc i).pagetable q := by
  have hlive : ∀ i ∈ s.live, i < NPROC ∧ (s.proc i).state ≠ .unused := by
    intro i hi
    obtain ⟨h1, h2⟩ := Finset.mem_filter.mp hi
    exact ⟨Finset.mem_range.mp h1, h2⟩
  have hempty : ∀ i ∈ Finset.range NPROC, i ∉ s.live → ((s.proc i).owned c s.vm).count q = 0 := by
    intro i hi hnot
    have hun : (s.proc i).state = .unused := by
      by_contra hne
      exact hnot (Finset.mem_filter.mpr ⟨hi, hne⟩)
    rw [(h i (Finset.mem_range.mp hi)).owned_unused hun, count_zero]
  unfold Sys.procPages
  rw [Multiset.count_sum', ← Finset.sum_subset (Finset.filter_subset _ _) hempty,
    Finset.card_filter, ← Finset.sum_add_distrib, ← Finset.sum_add_distrib]
  exact Finset.sum_congr rfl fun i hi =>
    (h i (hlive i hi).1).count_owned hc (hlive i hi).2

theorem Good.holders_eq_one {ps : List Nat} (h : Good c s ↑ps) (hc : c.shadowStack = false)
    (hq : q ∈ ramPages c) : s.holders ps q = 1 := by
  have htotal := congrArg (count q) h.mem.total
  have hpipe : (pipePages s.file).val.count q = if q ∈ pipePages s.file then 1 else 0 :=
    count_eq_of_nodup (pipePages s.file).nodup
  rw [count_eq_one_of_mem (ramPages c).nodup hq, count_add, count_add,
    count_add, procPages_count h.mem.slots hc, hpipe, coe_count, coe_count]
    at htotal
  unfold Sys.holders
  omega

theorem Good.isolated {u v : Nat} (h : Good c s B) (hc : c.shadowStack = false) (hi : i < NPROC)
    (hj : j < NPROC) (hij : i ≠ j) (hli : (s.proc i).state ≠ .unused)
    (hlj : (s.proc j).state ≠ .unused) (hu : u < vTrapframe) (hv : v < vTrapframe)
    (hvu : isValid (s.vm.leaf (s.proc i).pagetable u))
    (hvv : isValid (s.vm.leaf (s.proc j).pagetable v)) :
    PTE2PA (s.vm.leaf (s.proc i).pagetable u) ≠ PTE2PA (s.vm.leaf (s.proc j).pagetable v) := by
  have hmem : ∀ {k w : Nat}, k < NPROC → (s.proc k).state ≠ .unused → w < vTrapframe →
      isValid (s.vm.leaf (s.proc k).pagetable w) →
      PTE2PA (s.vm.leaf (s.proc k).pagetable w) ∈ (s.proc k).owned c s.vm := by
    intro k w hk hlk hw hval
    rw [← count_pos, (h.mem.slots k hk).count_owned hc hlk]
    refine Nat.add_pos_right _ (Finset.card_pos.mpr ⟨w, ?_⟩)
    exact Finset.mem_filter.mpr ⟨Finset.mem_range.mpr hw, hval, rfl⟩
  intro heq
  have h1 := hmem hi hli hu hvu
  rw [heq] at h1
  have h2 := mem_otherPages hj hij.symm (hmem hj hlj hv hvv)
  exact (h.mem.own_slot hi).disjoint h1 (subset_add_left h2)

theorem Waited.free_of_reaped {res : Option Int} (h : Waited c s s' B i res)
    (hz : (s.proc j).state = .zombie) (hun : (s'.proc j).state = .unused)
    (hq : q ∈ (s.proc j).owned c s.vm) : q ∈ s'.vm.freelist := by
  cases h with
  | asleep same => rw [same, hz] at hun; cases hun
  | noChild same => rw [same, hz] at hun; cases hun
  | fault good proc => rw [proc, hz] at hun; cases hun
  | @reaped k lt parent zombie good cleared others free =>
    by_cases hjk : j = k
    · rw [← mem_coe, free, ← hjk]
      exact subset_add_left hq
    · rw [others j hjk, hz] at hun
      cases hun

end

/-- **Every page of RAM is held exactly once**, in every state of every run of a kernel
    without the hardware shadow stack. So no two processes map the same page, what a
    reaped process had is free, and no call panics but the exit of init. -/
theorem pages_held_once {c : Board} {n : Nat} {initcode : List UInt8} {mem : Nat → Page}
    {ps : List Nat} {s₀ s : Sys} (hc : c.shadowStack = false) (hram : n + 8 ≤ (ramPages c).card)
    (hcode : initcode.length < PGSIZE) (hboot : boot c n initcode (Sys.zero mem) = .ok (ps, s₀))
    (hr : Runs c s₀ s) : (∀ q ∈ ramPages c, s.holders ps q = 1) ∧
    (∀ i j u v, i ∈ s.live → j ∈ s.live → i ≠ j → u < vTrapframe → v < vTrapframe →
      isValid (s.vm.leaf (s.proc i).pagetable u) → isValid (s.vm.leaf (s.proc j).pagetable v) →
      PTE2PA (s.vm.leaf (s.proc i).pagetable u) ≠ PTE2PA (s.vm.leaf (s.proc j).pagetable v)) ∧
    (∀ i addr res s', i < NPROC → ¬ (s.proc i).gone → wait c i addr s = .ok (res, s') →
      ∀ j, (s.proc j).state = .zombie → (s'.proc j).state = .unused →
        ∀ q ∈ (s.proc j).owned c s.vm, q ∈ s'.vm.freelist) ∧
    (∀ a e, step c s a = .panic e → e = .initExiting) := by
  have hb := @boot_spec (fun _ => False) n c mem initcode hram hcode
  unfold wp at hb
  rw [hboot] at hb
  have h : Good c s ↑ps := hr.good hb.1.good
  refine ⟨fun q hq => h.holders_eq_one hc hq, ?_, ?_, ?_⟩
  · intro i j u v hi hj hij hu hv
    obtain ⟨hi1, hi2⟩ := Finset.mem_filter.mp hi
    obtain ⟨hj1, hj2⟩ := Finset.mem_filter.mp hj
    exact h.isolated hc (Finset.mem_range.mp hi1) (Finset.mem_range.mp hj1) hij hi2 hj2 hu hv
  · intro i addr res s' hi hl hw j hz hun q hq
    have hspec := @wait_spec c s ↑ps i (fun _ => False) addr h hi hl fun hh => by
      rw [hc] at hh
      exact absurd hh (by decide)
    unfold wp at hspec
    rw [hw] at hspec
    exact hspec.free_of_reaped hz hun hq
  · intro a e he
    rcases step_panic h he with hh | ⟨hh, -⟩
    · exact hh
    · rw [hc] at hh
      exact absurd hh (by decide)

theorem pages_held_once_fork : ∃ ps s₀ s₁,
    boot (Board.virt false false) 0 [] (Sys.zero fun _ => Bytes.fill 0) = .ok (ps, s₀) ∧
    step (Board.virt false false) s₀ (0, .fork) = .next s₁ ∧
    ∀ q ∈ ramPages (Board.virt false false), s₁.holders ps q = 1 := by
  have hram : 0 + 8 ≤ (ramPages (Board.virt false false)).card := by
    rw [card_ramPages]
    decide
  have hcode : ([] : List UInt8).length < PGSIZE := by decide
  obtain ⟨ps, s₀, hboot, hb, -⟩ := boot_runs (fun _ => Bytes.fill 0) hram hcode
  have hl : ¬ (s₀.proc 0).gone := by
    unfold Proc.gone
    rw [hb.state]
    decide
  obtain ⟨s₁, hstep⟩ := fork_enabled hb.good rfl (by decide) hl
  have hruns : Runs (Board.virt false false) s₀ s₁ := .step (.start rfl) trivial hstep
  exact ⟨ps, s₀, s₁, hboot, hstep, (pages_held_once rfl hram hcode hboot hruns).1⟩

end ZeptOS.Mem
