import ZeptOS.Mem.Invariant

/-!
# Descriptors

`close`, `pipe` and the loops of `fork` and `exit` over the open files of a process, from
a state between system calls to a state between system calls, whichever way they end.
-/

namespace ZeptOS.Mem

open Lib Lib.Prog Function

variable {c : Board} {s : Sys} {B : Multiset Nat} {f i : Nat} {extra : Nat → Nat} {E : Panic → Prop}
  {x : Option Nat}

/-! ## Descriptors -/

section
variable {fd : Nat}

theorem wp_setOfile {Q : Unit → Sys → Prop} :
    wp (setOfile i fd x) E Q s = Q () (s.putOfile i fd x) := rfl

theorem Held.close (h : Held c s B (extra + Pi.single f 1)) (hf : f < NFILE) :
    wp (fileclose c f) E (fun _ s' => Held c s' B extra ∧ FileStep s s') s := by
  have hk := h.kernel
  rw [← add_assoc] at hk
  refine wp_mono (fileclose_spec hk hf) ?_
  rintro _ s' ⟨hk', hs⟩
  exact ⟨h.files hs hk', hs⟩

/-- **`close`** -/
theorem sysClose_good (h : Good c s B) (hi : i < NPROC) :
    wp (sysClose c i fd) E (fun _ s' => Good c s' B) s := by
  unfold sysClose
  rw [wp_bind, wp_get]
  by_cases hfd : fd ≥ NOFILE
  · rw [if_pos hfd]
    exact h
  · rw [if_neg hfd]
    cases hf : (s.proc i).ofile fd with
    | none => exact h
    | some f =>
      have hlt := h.bounded i hi fd (Nat.lt_of_not_le hfd) f hf
      have hr := h.remove hi (Nat.lt_of_not_le hfd) hf
      dsimp only
      rw [wp_bind, wp_setOfile]
      refine wp_call (hr.close hlt) ?_
      rintro _ s' ⟨hs', -⟩
      exact hs'

theorem fdalloc_spec : wp (fdalloc i f) E (fun res s' => (res = none ∧ s' = s) ∨
    ∃ fd, res = some fd ∧ fd < NOFILE ∧ (s.proc i).ofile fd = none ∧
      s' = s.putOfile i fd (some f)) s := by
  unfold fdalloc
  rw [wp_bind, wp_get]
  cases hfind : (List.range NOFILE).find? fun fd => (s.proc i).ofile fd == none with
  | none => exact .inl ⟨rfl, rfl⟩
  | some fd =>
    refine .inr ⟨fd, rfl, List.mem_range.mp (List.mem_of_find?_eq_some hfind), ?_, rfl⟩
    simpa using List.find?_some hfind

end

/-! ## One process's memory -/

section
variable {s' : Sys} {vm : Vm} {X : Multiset Nat} {p : Proc}

theorem MemOk.space_own (h : MemOk c s X) (hi : i < NPROC) (hl : (s.proc i).state ≠ .unused) :
    Own c s.vm (s.vm.space c (s.proc i).pagetable (s.proc i).sz +
      ({(s.proc i).trapframe} + (s.otherPages c i + X))) := by
  obtain ⟨h1, h2, -⟩ := (h.slots i hi).space hl
  have := h.own_slot hi
  rwa [owned_live h1 h2, add_comm {(s.proc i).trapframe}, add_assoc] at this

theorem MemOk.space_own' (h : MemOk c s X) (hi : i < NPROC) (hl : (s.proc i).state ≠ .unused) :
    Own c s.vm (s.vm.space c (s.proc i).pagetable (s.proc i).sz) :=
  (h.space_own hi hl).left

theorem Became.slotStep (h : Became c s.vm vm (s.proc i).pagetable (s.proc i).trapframe (s.proc i).sz p.sz)
    (hs : SlotOk c s.vm (s.proc i)) (hl : (s.proc i).state ≠ .unused) (hon : OnSlot s s' i vm p)
    (hstate : p.state ≠ .unused) (htf : p.trapframe = (s.proc i).trapframe)
    (hpt : p.pagetable = (s.proc i).pagetable) : SlotStep c s s' i := by
  obtain ⟨h1, h2, -⟩ := hs.space hl
  have h1' : p.trapframe ≠ 0 := by rw [htf]; exact h1
  have h2' : p.pagetable ≠ 0 := by rw [hpt]; exact h2
  refine hon.step (.live hstate h1' h2' ?_) ?_ ?_
  · rw [htf, hpt]
    exact h.space
  · rw [owned_live h1 h2, owned_live h1' h2', htf, hpt, add_assoc, h.bal, add_assoc]
  · rw [owned_live h1 h2]
    intro q hq
    refine h.upd.frame q fun hm => hq ?_
    rw [add_assoc]
    exact Multiset.mem_add.mpr (.inr hm)

theorem Held.copyout {dstva : Nat} {src : List UInt8} {Q : Int → Sys → Prop} (h : Held c s B extra)
    (hi : i < NPROC) (hl : (s.proc i).state ≠ .unused)
    (hQ : ∀ r s', Held c s' B extra → s'.proc = s.proc → SlotStep c s s' i →
      s'.vm.freelist = s.vm.freelist → Q r s') :
    wp (onVm (copyout (s.proc i).pagetable dstva src)) E Q s := by
  obtain ⟨-, -, hsp⟩ := (h.mem.slots i hi).space hl
  have ho := h.mem.space_own' hi hl
  rw [wp_onVm]
  refine wp_mono (copyout_spec hsp ho) ?_
  intro r vm' hw
  have hon : OnSlot s { s with vm := vm' } i vm' (s.proc i) := ⟨fun _ _ => rfl, rfl, rfl, rfl, rfl⟩
  have hstep := (hw.became hsp ho).slotStep (h.mem.slots i hi) hl hon hl rfl rfl
  exact hQ r _ (h.step hi hstep rfl fun hg => .inl hg) rfl hstep hw.free

end

/-! ## `pipe` -/

theorem Held.close_two {f0 f1 : Nat} (h : Held c s B (extra + Pi.single f0 1 + Pi.single f1 1))
    (hf0 : f0 < NFILE) (hf1 : f1 < NFILE) :
    wp (do
      fileclose c f0
      fileclose c f1
      pure (-1 : Int)) E (fun _ s' => Held c s' B extra) s := by
  rw [add_right_comm] at h
  refine wp_call (h.close hf0) ?_
  rintro _ s₁ ⟨h1, -⟩
  refine wp_call (h1.close hf1) ?_
  rintro _ s₂ ⟨h2, -⟩
  exact h2

/-- **`pipe`** -/
theorem sysPipe_good {fdarray : Nat} (h : Good c s B) (hi : i < NPROC) (hl : ¬ (s.proc i).gone) :
    wp (sysPipe c i fdarray) E (fun _ s' => Good c s' B) s := by
  have hk : KernelOk c s B (opens s.proc + 0) := h.kernel
  unfold sysPipe
  refine wp_call (pipealloc_spec hk) ?_
  intro res s₁ hres
  cases hres with
  | none ok step => exact h.files step ok
  | @some rf wf lt0 lt1 ok step =>
    have hl1 : ¬ (s₁.proc i).gone := by rw [step.proc]; exact hl
    have h1 : Held c s₁ B (0 + Pi.single rf 1 + Pi.single wf 1) := by
      refine h.files step ?_
      rw [← add_assoc, ← add_assoc]
      exact ok
    dsimp only
    refine wp_call fdalloc_spec ?_
    rintro _ s₂ (⟨rfl, rfl⟩ | ⟨fd0, rfl, hfd0, hfree0, rfl⟩)
    · exact h1.close_two lt0 lt1
    · have h2 : Held c (s₁.putOfile i fd0 (some rf)) B (0 + Pi.single wf 1) := by
        rw [add_right_comm] at h1
        exact h1.install hi hfd0 lt0 hl1 hfree0
      have hl2 : ¬ ((s₁.putOfile i fd0 (some rf)).proc i).gone := by
        rw [putOfile_self]
        exact hl1
      have hof2 : ((s₁.putOfile i fd0 (some rf)).proc i).ofile fd0 = some rf := by
        rw [putOfile_self]
        exact update_self ..
      dsimp only
      refine wp_call fdalloc_spec ?_
      rintro _ s₃ (⟨rfl, rfl⟩ | ⟨fd1, rfl, hfd1, hfree1, rfl⟩)
      · have h3 := h2.remove hi hfd0 hof2
        rw [add_right_comm] at h3
        dsimp only
        rw [wp_bind, wp_setOfile]
        exact h3.close_two lt0 lt1
      · have h3 := h2.install hi hfd1 lt1 hl2 hfree1
        generalize hs3 : (s₁.putOfile i fd0 (some rf)).putOfile i fd1 (some wf) = s₃ at h3
        have hne : fd0 ≠ fd1 := by
          rintro rfl
          rw [hof2] at hfree1
          cases hfree1
        have hof30 : (s₃.proc i).ofile fd0 = some rf := by
          rw [← hs3, putOfile_self]
          exact (update_of_ne hne ..).trans hof2
        have hof31 : (s₃.proc i).ofile fd1 = some wf := by
          rw [← hs3, putOfile_self]
          exact update_self ..
        have hl3 : (s₃.proc i).state ≠ .unused := by
          rw [← hs3, putOfile_self]
          exact fun hh => hl2 (.inl hh)
        -- after a failed `copyout` both descriptors are taken back
        have hundo : ∀ s₄ : Sys, Held c s₄ B 0 → s₄.proc = s₃.proc →
            wp (do
              setOfile i fd0 none
              setOfile i fd1 none
              fileclose c rf
              fileclose c wf
              pure (-1 : Int)) E (fun _ s' => Good c s' B) s₄ := by
          intro s₄ h4 hp4
          have h5 := h4.remove hi hfd0 (by rw [hp4]; exact hof30)
          have h6 := h5.remove (f := wf) hi hfd1 (by
            rw [putOfile_self]
            refine (update_of_ne hne.symm ..).trans ?_
            rw [hp4]
            exact hof31)
          rw [wp_bind, wp_setOfile, wp_bind, wp_setOfile]
          exact h6.close_two lt0 lt1
        dsimp only
        rw [wp_bind, wp_get, wp_bind]
        refine h3.copyout hi hl3 ?_
        intro r s₄ h4 hp4 _ _
        have hlast : ∀ (r : Int) (s₅ : Sys), Held c s₅ B 0 → s₅.proc = s₃.proc →
            wp (if r < 0 then do
              setOfile i fd0 none
              setOfile i fd1 none
              fileclose c rf
              fileclose c wf
              pure (-1 : Int)
            else pure 0) E (fun _ s' => Good c s' B) s₅ := by
          intro r s₅ h5 hp5
          by_cases hr : r < 0
          · rw [if_pos hr]
            exact hundo s₅ h5 hp5
          · rw [if_neg hr]
            exact h5
        by_cases hr : r < 0
        · rw [if_pos hr, wp_bind, wp_pure]
          exact hlast r s₄ h4 hp4
        · rw [if_neg hr, wp_bind]
          have hpt : (s₃.proc i).pagetable = (s₄.proc i).pagetable := by rw [hp4]
          rw [hpt]
          refine h4.copyout hi (by rw [hp4]; exact hl3) ?_
          intro r' s₅ h5 hp5 _ _
          exact hlast r' s₅ h5 (hp5.trans hp4)

/-! ## The loops over the descriptors of a process -/

structure Redirected (s s' : Sys) (i : Nat) : Prop where
  others : ∀ j, j ≠ i → s'.proc j = s.proc j
  proc : s'.proc i = { s.proc i with ofile := (s'.proc i).ofile }
  initproc : s'.initproc = s.initproc

section
variable {s' s'' : Sys} {np fd : Nat}

theorem Redirected.refl (s : Sys) (i : Nat) : Redirected s s i := ⟨fun _ _ => rfl, rfl, rfl⟩

theorem Redirected.trans (h : Redirected s s' i) (h' : Redirected s' s'' i) : Redirected s s'' i where
  others j hj := (h'.others j hj).trans (h.others j hj)
  proc := by rw [h'.proc, h.proc]
  initproc := h'.initproc.trans h.initproc

theorem redirected_put : Redirected s (s.putOfile i fd x) i := by
  refine ⟨fun j hj => putOfile_of_ne hj, ?_, rfl⟩
  rw [putOfile_self]

theorem FileStep.redirected (h : FileStep s s') (i : Nat) : Redirected s s' i := by
  refine ⟨fun j _ => by rw [h.proc], ?_, h.initproc⟩
  rw [h.proc]

theorem Redirected.gone (h : Redirected s s' i) (j : Nat) : (s'.proc j).gone ↔ (s.proc j).gone := by
  by_cases hj : j = i
  · rw [hj, h.proc]
    exact Iff.rfl
  · rw [h.others j hj]

theorem opens_ne_zero (hi : i < NPROC) (hfd : fd < NOFILE) (hf : (s.proc i).ofile fd = some f) :
    opens s.proc f ≠ 0 := by
  have h := congrFun (opens_putOfile (s := s) (x := none) hi hfd) f
  rw [hf, entryRef_none, entryRef_some, add_zero, Pi.add_apply, single_self] at h
  omega

theorem dupLoop_spec (hi : i < NPROC) (hnp : np < NPROC) (hne : i ≠ np) : ∀ {n : Nat} {s : Sys},
    n ≤ NOFILE → Good c s B → ¬ (s.proc np).gone →
    (∀ fd, NOFILE - n ≤ fd → fd < NOFILE → (s.proc np).ofile fd = none) →
    wp (dupLoop i np n) E (fun _ s' => Good c s' B ∧ s'.vm = s.vm ∧ Redirected s s' np ∧
      ∀ fd, fd < NOFILE → (s'.proc np).ofile fd =
        if fd < NOFILE - n then (s.proc np).ofile fd else (s.proc i).ofile fd) s := by
  intro n
  induction n with
  | zero =>
    intro s _ h _ _
    refine ⟨h, rfl, Redirected.refl s np, fun fd hfd => ?_⟩
    rw [Nat.sub_zero, if_pos hfd]
  | succ n ih =>
    intro s hn h hlive hfree
    have hfd : NOFILE - (n + 1) < NOFILE := Nat.sub_lt (by decide) (Nat.succ_pos n)
    have hnext : NOFILE - n = NOFILE - (n + 1) + 1 := by omega
    have hnone := hfree _ le_rfl hfd
    unfold dupLoop
    rw [wp_bind, wp_get]
    cases hf : (s.proc i).ofile (NOFILE - (n + 1)) with
    | none =>
      refine wp_mono (ih (by omega) h hlive fun fd h1 h2 => hfree fd (by omega) h2) ?_
      rintro _ s' ⟨hg, hvm, hr, hsame⟩
      refine ⟨hg, hvm, hr, fun fd h1 => ?_⟩
      rw [hsame fd h1]
      by_cases heq : fd = NOFILE - (n + 1)
      · rw [if_pos (by omega), if_neg (by omega), heq, hnone, hf]
      · by_cases hlt : fd < NOFILE - (n + 1)
        · rw [if_pos (by omega), if_pos hlt]
        · rw [if_neg (by omega), if_neg hlt]
    | some f =>
      have hflt := h.bounded i hi _ hfd f hf
      have hk : KernelOk c s B (opens s.proc + 0) := h.kernel
      dsimp only
      refine wp_call (filedup_spec hk hflt (by rw [add_zero]; exact opens_ne_zero hi hfd hf)) ?_
      rintro _ s₁ ⟨hk1, hst, hvm1⟩
      have h1 : Held c s₁ B (0 + Pi.single f 1) := h.files hst (by rw [← add_assoc]; exact hk1)
      have hlive1 : ¬ (s₁.proc np).gone := by rw [hst.proc]; exact hlive
      have h2 := h1.install hnp hfd hflt hlive1 (by rw [hst.proc]; exact hnone)
      have hr2 : Redirected s (s₁.putOfile np (NOFILE - (n + 1)) (some f)) np :=
        (hst.redirected np).trans redirected_put
      have hof2 : ∀ fd, ((s₁.putOfile np (NOFILE - (n + 1)) (some f)).proc np).ofile fd =
          if fd = NOFILE - (n + 1) then some f else (s.proc np).ofile fd := by
        intro fd
        rw [putOfile_self, hst.proc]
        exact update_apply ..
      rw [wp_bind, wp_setOfile]
      refine wp_mono (ih (by omega) h2 (fun hg => hlive ((hr2.gone np).mp hg)) ?_) ?_
      · intro fd h1 h2
        rw [hof2, if_neg (by omega)]
        exact hfree fd (by omega) h2
      · rintro _ s' ⟨hg, hvm, hr, hsame⟩
        refine ⟨hg, hvm.trans hvm1, hr2.trans hr, fun fd h1 => ?_⟩
        rw [hsame fd h1, hof2, putOfile_of_ne hne, hst.proc]
        by_cases heq : fd = NOFILE - (n + 1)
        · rw [if_pos (by omega), if_pos heq, if_neg (by omega), heq, hf]
        · by_cases hlt : fd < NOFILE - (n + 1)
          · rw [if_pos (by omega), if_neg heq, if_pos hlt]
          · rw [if_neg (by omega), if_neg hlt]

theorem closeLoop_spec (hi : i < NPROC) : ∀ {n : Nat} {s : Sys}, n ≤ NOFILE → Good c s B →
    (∀ fd, fd < NOFILE - n → (s.proc i).ofile fd = none) →
    wp (closeLoop c i n) E (fun _ s' => Good c s' B ∧ Redirected s s' i ∧
      ∀ fd, fd < NOFILE → (s'.proc i).ofile fd = none) s := by
  intro n
  induction n with
  | zero =>
    intro s _ h hdone
    exact ⟨h, Redirected.refl s i, hdone⟩
  | succ n ih =>
    intro s hn h hdone
    have hfd : NOFILE - (n + 1) < NOFILE := Nat.sub_lt (by decide) (Nat.succ_pos n)
    have hnext : NOFILE - n = NOFILE - (n + 1) + 1 := by omega
    unfold closeLoop
    rw [wp_bind, wp_get]
    cases hf : (s.proc i).ofile (NOFILE - (n + 1)) with
    | none =>
      refine ih (by omega) h fun fd hlt => ?_
      by_cases heq : fd = NOFILE - (n + 1)
      · rw [heq]
        exact hf
      · exact hdone fd (by omega)
    | some f =>
      have hflt := h.bounded i hi _ hfd f hf
      -- the reference is dropped while the descriptor still names the file
      have hrem := h.remove hi hfd hf
      have hopen : opens s.proc + 0 =
          opens (s.putOfile i (NOFILE - (n + 1)) none).proc + Pi.single f 1 := by
        have ho := opens_putOfile (s := s) (x := none) hi hfd
        rw [hf, entryRef_none, entryRef_some] at ho
        exact ho.symm
      have hk : KernelOk c s B (opens (s.putOfile i (NOFILE - (n + 1)) none).proc + Pi.single f 1) := by
        rw [← hopen]
        exact h.kernel
      dsimp only
      refine wp_call (fileclose_spec hk hflt) ?_
      rintro _ s₁ ⟨hk1, hst⟩
      rw [wp_bind, wp_setOfile]
      have hproc : (s₁.putOfile i (NOFILE - (n + 1)) none).proc =
          (s.putOfile i (NOFILE - (n + 1)) none).proc := by
        unfold Sys.putOfile Sys.setProc
        rw [hst.proc]
      have h1 : Good c (s₁.putOfile i (NOFILE - (n + 1)) none) B := by
        refine ⟨?_, ?_, ?_⟩
        · rw [hproc, add_zero]
          exact hk1.putOfile
        · rw [hproc]
          exact hrem.bounded
        · rw [hproc]
          exact hrem.closed
      have hr : Redirected s (s₁.putOfile i (NOFILE - (n + 1)) none) i :=
        (hst.redirected i).trans redirected_put
      refine wp_mono (ih (by omega) h1 fun fd hlt => ?_) ?_
      · rw [putOfile_self, hst.proc]
        by_cases heq : fd = NOFILE - (n + 1)
        · rw [heq]
          exact update_self ..
        · exact (update_of_ne heq ..).trans (hdone fd (by omega))
      · rintro _ s' ⟨hg, hr', hall⟩
        exact ⟨hg, hr.trans hr', hall⟩

end

end ZeptOS.Mem
