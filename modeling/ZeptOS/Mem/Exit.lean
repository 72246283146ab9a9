import ZeptOS.Mem.Process

/-!
# `exit` and `wait`, and the invariant over every call

With `exit` and `wait` the system calls are complete, and each of them leads from a state
between system calls to a state between system calls, whichever way it ends. None of the
kernel's panics can be reached, except that `exit` refuses to end init and that, with the
hardware shadow stack, a table that maps physical page 0 cannot be freed.
-/

namespace ZeptOS.Mem

open Lib Lib.Prog

variable {c : Board} {s s' : Sys} {B : Multiset Nat} {i : Nat} {E : Panic → Prop} {r : Int}

/-! ## `fork` and `exec` -/

theorem Forked.good (h : Good c s B) (hf : Forked c s s' B i r) : Good c s' B := by
  cases hf with
  | noSlot slot same =>
    rw [same]
    exact h
  | noPages slot step cleared oom good few =>
    obtain ⟨hnp, hun⟩ := freeSlot_some slot
    exact Held.step h hnp step (by rw [cleared]; rfl) fun _ => .inl (.inl hun)
  | ok child => exact child.good

theorem Execed.good {path : List UInt8} {file : Option Image} {argv : List (List UInt8)}
    (h : Good c s B) (hi : i < NPROC) (he : Execed c s s' i path file argv r) : Good c s' B := by
  cases he with
  | refused elf same =>
    rw [same]
    exact h
  | failed elf step proc mem good cause =>
    exact Held.step h hi step (by rw [proc]) fun hh => .inl (by rw [proc] at hh; exact hh)
  | ok prog pt elf step proc oom shadow good old image =>
    exact Held.step h hi step (by rw [proc]) fun hh => .inl (by rw [proc] at hh; exact hh)

/-! ## `exit` -/

theorem reparent_sameMemory (j : Nat) : SameMemory (s.proc j) ((s.reparent i).proc j) := by
  unfold Sys.reparent
  dsimp only
  split
  · exact ⟨Iff.rfl, rfl, rfl, rfl⟩
  · exact SameMemory.refl _

theorem reparent_ofile (j : Nat) : ((s.reparent i).proc j).ofile = (s.proc j).ofile := by
  unfold Sys.reparent
  dsimp only
  split <;> rfl

theorem reparent_state (j : Nat) : ((s.reparent i).proc j).state = (s.proc j).state := by
  unfold Sys.reparent
  dsimp only
  split <;> rfl

theorem Good.reparent (h : Good c s B) : Good c (s.reparent i) B := by
  refine ⟨?_, fun j hj fd hfd f hf => ?_, fun j hj hg fd hfd => ?_⟩
  · rw [opens_congr fun j _ => reparent_ofile j]
    exact ⟨h.mem.kernel (fun j _ => reparent_sameMemory j) (fun _ _ => rfl) rfl, h.kernel.files⟩
  · rw [reparent_ofile] at hf
    exact h.bounded j hj fd hfd f hf
  · rw [reparent_ofile]
    unfold Proc.gone at hg
    rw [reparent_state] at hg
    exact h.closed j hj hg fd hfd

/-- **`exit`** keeps the invariant; the process becomes a zombie with its memory. -/
theorem exit_good {status : Nat} (h : Good c s B) (hi : i < NPROC) (hl : ¬ (s.proc i).gone)
    (hE : i = s.initproc → E .initExiting) :
    wp (exit c i status) E (fun _ s' => Good c s' B) s := by
  unfold exit
  rw [wp_bind, wp_get]
  by_cases hinit : i = s.initproc
  · rw [if_pos hinit]
    exact hE hinit
  · rw [if_neg hinit]
    refine wp_call (closeLoop_spec hi le_rfl h fun fd hfd => by omega) ?_
    rintro _ s₁ ⟨h1, hr, hnone⟩
    rw [wp_bind, wp_modify]
    have h2 : Good c (s₁.reparent i) B := h1.reparent
    have hlive2 : ((s₁.reparent i).proc i).state ≠ .unused := by
      rw [reparent_state]
      exact fun hh => hl ((hr.gone i).mp (.inl hh))
    have hnone2 : ∀ fd, fd < NOFILE → ((s₁.reparent i).proc i).ofile fd = none := by
      rw [reparent_ofile]
      exact hnone
    generalize s₁.reparent i = s₂ at h2 hlive2 hnone2
    refine (OnSlot.refl s₂ i).wp_setProc (f := fun p => { p with xstate := status, state := .zombie }) ?_
    intro s₃ h3
    have hsame : SameMemory (s₂.proc i) { s₂.proc i with xstate := status, state := .zombie } :=
      ⟨⟨fun hh => (by cases hh), fun hh => absurd hh hlive2⟩, rfl, rfl, rfl⟩
    exact Held.step h2 hi (hsame.slotStep (h2.mem.slots i hi) h3) (by rw [h3.proc]) fun _ => .inr hnone2

/-! ## `wait` -/

inductive Waited (c : Board) (s s' : Sys) (B : Multiset Nat) (i : Nat) : Option Int → Prop where
  | asleep (same : s' = s) : Waited c s s' B i none
  | noChild (same : s' = s) : Waited c s s' B i (some (-1))
  | fault (good : Good c s' B) (proc : s'.proc = s.proc) : Waited c s s' B i (some (-1))
  | reaped {j : Nat} (lt : j < NPROC) (parent : (s.proc j).parent = some i)
      (zombie : (s.proc j).state = .zombie) (good : Good c s' B)
      (cleared : s'.proc j = (s.proc j).cleared) (others : ∀ k, k ≠ j → s'.proc k = s.proc k)
      (free : (↑s'.vm.freelist : Multiset Nat) = (s.proc j).owned c s.vm + ↑s.vm.freelist) :
      Waited c s s' B i (some (s.proc j).pid)

section
variable {j : Nat}

theorem wp_reap {Q : Unit → Sys → Prop} (h : Good c s B) (hj : j < NPROC)
    (hz : (s.proc j).state = .zombie)
    (hE : c.shadowStack = true → s.vm.shadowPage (s.proc j).pagetable = 0 → E .kfree)
    (hQ : ∀ s', Good c s' B → s'.proc j = (s.proc j).cleared → (∀ k, k ≠ j → s'.proc k = s.proc k) →
      (↑s'.vm.freelist : Multiset Nat) = (s.proc j).owned c s.vm + ↑s.vm.freelist → Q () s') :
    wp (freeproc c j) E Q s := by
  have hl : (s.proc j).state ≠ .unused := by rw [hz]; exact nofun
  obtain ⟨-, -, hsp⟩ := (h.mem.slots j hj).space hl
  refine wp_freeproc (OnSlot.refl s j) (h.mem.own_slot hj).left (fun _ => ⟨_, hsp⟩)
    (fun hc _ h0 => hE hc h0) ?_
  intro s' vm' h' hf _
  refine hQ s' (Held.step h hj (hf.slotStep h') (by rw [h'.proc]; rfl) fun _ => .inl (.inr hz))
    h'.proc h'.others ?_
  rw [h'.vm]
  exact hf.free

/-- **`wait`**: a child that was reaped has given all its pages back. -/
theorem wait_spec {addr : Nat} (h : Good c s B) (hi : i < NPROC) (hl : ¬ (s.proc i).gone)
    (hE : c.shadowStack = true → (∃ j, j < NPROC ∧ (s.proc j).state ≠ .unused ∧
      s.vm.shadowPage (s.proc j).pagetable = 0) → E .kfree) :
    wp (wait c i addr) E (fun r s' => Waited c s s' B i r) s := by
  have hli : (s.proc i).state ≠ .unused := fun hh => hl (.inl hh)
  unfold wait
  rw [wp_bind, wp_get]
  cases hfind : (List.range NPROC).find? fun j =>
      (s.proc j).parent == some i && (s.proc j).state == .zombie with
  | none =>
    dsimp only
    split
    · exact .asleep rfl
    · exact .noChild rfl
  | some j =>
    have hj : j < NPROC := List.mem_range.mp (List.mem_of_find?_eq_some hfind)
    obtain ⟨hpar, hz⟩ : (s.proc j).parent = some i ∧ (s.proc j).state = .zombie := by
      simpa using List.find?_some hfind
    have hne : j ≠ i := by
      rintro rfl
      exact hl (.inr hz)
    have hlj : (s.proc j).state ≠ .unused := by rw [hz]; exact nofun
    obtain ⟨-, hptj, hspj⟩ := (h.mem.slots j hj).space hlj
    dsimp only
    -- what is left after the exit status was copied out, or need not be
    have hrest : ∀ (r : Int) (s₁ : Sys), Good c s₁ B → s₁.proc = s.proc → SlotStep c s s₁ i →
        s₁.vm.freelist = s.vm.freelist →
        wp (if r < 0 then pure (some (-1)) else do
          freeproc c j
          pure (some ((s.proc j).pid : Int))) E (fun r s' => Waited c s s' B i r) s₁ := by
      intro r s₁ h1 hp1 hstep hfree1
      by_cases hr : r < 0
      · rw [if_pos hr]
        exact .fault h1 hp1
      · rw [if_neg hr, wp_bind]
        have howned := (hstep.other h.mem hi hj hne).2
        have hshp : s₁.vm.shadowPage (s.proc j).pagetable = s.vm.shadowPage (s.proc j).pagetable := by
          refine congrArg PTE2PA (Vm.leafAt_congr fun q hq => ?_)
          refine hstep.mem h.mem hi (Multiset.mem_add.mpr (.inl (mem_otherPages hj hne ?_)))
          rw [owned_live ((h.mem.slots j hj).space hlj).1 hptj]
          exact Multiset.mem_add.mpr (.inr (Multiset.mem_add.mpr (.inl hq)))
        refine wp_reap h1 hj (by rw [hp1]; exact hz) ?_ ?_
        · intro hc h0
          rw [hp1, hshp] at h0
          exact hE hc ⟨j, hj, hlj, h0⟩
        · intro s₂ h2 hcl hoth hfree
          rw [hp1] at hcl hoth hfree
          rw [hp1] at howned
          rw [howned, hfree1] at hfree
          exact .reaped hj hpar hz h2 hcl hoth hfree
    by_cases haddr : addr ≠ 0
    · rw [if_pos haddr, wp_bind]
      exact Held.copyout h hi hli fun r s₁ h1 hp1 hstep hfree => hrest r s₁ h1 hp1 hstep hfree
    · rw [if_neg haddr, wp_bind, wp_pure]
      exact hrest 0 s h rfl (SlotStep.refl (h.mem.slots i hi)) rfl

theorem Waited.good {r : Option Int} (h : Good c s B) (hw : Waited c s s' B i r) : Good c s' B := by
  cases hw with
  | asleep same => exact same ▸ h
  | noChild same => exact same ▸ h
  | fault good proc => exact good
  | reaped lt parent zombie good cleared others free => exact good

end

end ZeptOS.Mem
