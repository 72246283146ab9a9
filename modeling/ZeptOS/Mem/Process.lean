import ZeptOS.Mem.Calls

/-!
# `sbrk`, `fork` and `exec`

What a call to `growproc`, `fork` or `exec` leaves behind, in full. The only panic that
can be reached is `kfree`'s, and only with the hardware shadow stack: in a `fork` that
had exactly four free pages, in an `exec` that had exactly three, and in an `exec` of a
process that such a `fork` has made.
-/

namespace ZeptOS.Mem

open Lib Lib.Prog Multiset

variable {c : Board} {s s' : Sys} {i pt sz tf : Nat} {n r : Int} {vm vm' vm₀ : Vm}
  {A B X : Multiset Nat} {E : Panic → Prop} {path : List UInt8} {argv : List (List UInt8)}

/-! ## `growproc` -/

structure GrowOk (c : Board) (s s' : Sys) (i : Nat) (r : Int) (vm : Vm) (sz : Nat) : Prop where
  on : OnSlot s s' i vm { s.proc i with sz := sz }
  became : Became c s.vm vm (s.proc i).pagetable (s.proc i).trapframe (s.proc i).sz sz
  result : r = 0 ∨ r = -1
  fail : r = -1 → sz = (s.proc i).sz ∧
    ∀ u, u < 512 ^ 3 → vm.leaf (s.proc i).pagetable u = s.vm.leaf (s.proc i).pagetable u

theorem GrowOk.step (h : GrowOk c s s' i r vm sz) (hs : SlotOk c s.vm (s.proc i))
    (hl : (s.proc i).state ≠ .unused) : SlotStep c s s' i :=
  h.became.slotStep hs hl h.on hl rfl rfl

/-- **`growproc`** for every `n`. -/
theorem growproc_spec (h : MemOk c s X) (hi : i < NPROC) (hl : (s.proc i).state ≠ .unused) :
    wp (growproc c i n) E (fun r s' => ∃ vm sz, GrowOk c s s' i r vm sz) s := by
  obtain ⟨-, -, hsp⟩ := (h.slots i hi).space hl
  have ho := h.space_own' hi hl
  have hself := OnSlot.refl s i
  unfold growproc
  rw [wp_bind, wp_get]
  dsimp only
  by_cases hpos : n > 0
  · rw [if_pos hpos, wp_bind]
    refine hself.wp_onVm (hsp.grow ho (by decide)) ?_
    intro res s₁ vm₁ h1 hg
    have hb := hg.became
    by_cases h0 : res = 0
    · rw [if_pos h0] at hb ⊢
      refine ⟨vm₁, (s.proc i).sz, h1, hb, .inr rfl, fun _ => ⟨rfl, ?_⟩⟩
      cases hg with
      | ok space upd oom new old kept took =>
        intro u hu
        have hz : pages (addInt (s.proc i).sz n) = 0 := by
          rw [show addInt (s.proc i).sz n = 0 by omega]
          rfl
        exact old u hu (by omega)
      | fail space upd oom old le few => exact old
    · rw [if_neg h0] at hb ⊢
      rw [wp_bind]
      refine h1.wp_setProc (f := fun p => { p with sz := res }) ?_
      intro s₂ h2
      exact ⟨vm₁, res, h2, hb, .inl rfl, fun hh => absurd hh (by decide)⟩
  · rw [if_neg hpos]
    by_cases hneg : n < 0
    · rw [if_pos hneg, wp_bind]
      refine hself.wp_onVm (hsp.shrink ho) ?_
      rintro res s₁ vm₁ h1 ⟨-, -, hsp1, hupd, hl1⟩
      rw [wp_bind]
      refine h1.wp_setProc (f := fun p => { p with sz := res }) ?_
      intro s₂ h2
      have hvs : vm₁.leaf (s.proc i).pagetable vShadow = s.vm.leaf (s.proc i).pagetable vShadow :=
        hl1 _ (by decide) fun hh => by
          have := hsp.size
          omega
      exact ⟨vm₁, res, h2, ⟨hsp1, hupd, hvs⟩, .inl rfl, fun hh => absurd hh (by decide)⟩
    · rw [if_neg hneg]
      exact ⟨s.vm, (s.proc i).sz, hself, Became.refl hsp, .inl rfl, fun _ => ⟨rfl, fun _ _ => rfl⟩⟩

theorem GrowOk.good (hg : GrowOk c s s' i r vm sz) (h : Good c s B) (hi : i < NPROC)
    (hl : ¬ (s.proc i).gone) : Good c s' B := by
  have hof : (s'.proc i).ofile = (s.proc i).ofile := by rw [hg.on.proc]
  refine Held.step h hi (hg.step (h.mem.slots i hi) fun hh => hl (.inl hh)) hof fun hgone => ?_
  rw [hg.on.proc] at hgone
  exact .inl hgone

/-- **`sbrk` keeps the invariant.** -/
theorem growproc_good (h : Good c s B) (hi : i < NPROC) (hl : ¬ (s.proc i).gone) :
    wp (growproc c i n) E (fun _ s' => Good c s' B) s := by
  refine wp_mono (growproc_spec h.mem hi fun hh => hl (.inl hh)) ?_
  rintro r s' ⟨vm, sz, hg⟩
  exact hg.good h hi hl

/-! ## `fork` -/

/-- The trapframe of the child, over what its page held before. -/
def childTrapframe (c : Board) (pg parent : Page) : Page :=
  (pg.blit 0 (parent.slice 0 (tfSize c))).st TF_A0 8 0

structure ForkOk (c : Board) (s s' : Sys) (B : Multiset Nat) (i np : Nat) : Prop where
  slot : s.freeSlot = some np
  good : Good c s' B
  others : ∀ j, j ≠ np → s'.proc j = s.proc j
  state : (s'.proc np).state = .runnable
  parent : (s'.proc np).parent = some i
  sz : (s'.proc np).sz = (s.proc i).sz
  ofile : ∀ fd, fd < NOFILE → (s'.proc np).ofile fd = (s.proc i).ofile fd
  mem : ∀ q, q ∉ s.vm.freelist → s'.vm.mem q = s.vm.mem q
  copy : CopyOf c s.vm s'.vm (s.proc i).pagetable (s'.proc np).pagetable (s.proc i).sz
  trapframe : ∃ pg, s'.vm.mem (s'.proc np).trapframe =
    childTrapframe c pg (s.vm.mem (s.proc i).trapframe)
  shadow : ¬ (c.shadowStack = true ∧ s.vm.freelist.length = 4) →
    s'.vm.oom = s.vm.oom ∧ (c.shadowStack = true →
      IsPage c (s'.vm.shadowPage (s'.proc np).pagetable) ∧
      s'.vm.mem (s'.vm.shadowPage (s'.proc np).pagetable) = Bytes.fill 5)
  noShadow : c.shadowStack = true → s.vm.freelist.length = 4 →
    s'.vm.oom = true ∧ s'.vm.shadowPage (s'.proc np).pagetable = 0 ∧ pages (s.proc i).sz = 0

inductive Forked (c : Board) (s s' : Sys) (B : Multiset Nat) (i : Nat) : Int → Prop where
  | noSlot (slot : s.freeSlot = none) (same : s' = s) : Forked c s s' B i (-1)
  | noPages {np : Nat} (slot : s.freeSlot = some np) (step : SlotStep c s s' np)
      (cleared : s'.proc np = (s.proc np).cleared) (oom : s'.vm.oom = true)
      (good : ¬ (c.shadowStack = true ∧ s.vm.freelist.length = 4))
      (few : s.vm.freelist.length < 5 + 3 * pages (s.proc i).sz) : Forked c s s' B i (-1)
  | ok {np : Nat} (child : ForkOk c s s' B i np) : Forked c s s' B i s.nextpid

section
variable {np : Nat}

theorem Wrote.slotStep (hw : Wrote s.vm vm' {(s.proc i).trapframe}) (hm : MemOk c s X) (hi : i < NPROC)
    (hl : (s.proc i).state ≠ .unused) (hon : OnSlot s s' i vm' (s.proc i)) : SlotStep c s s' i := by
  obtain ⟨h1, h2, hsp⟩ := (hm.slots i hi).space hl
  have hkeep : ∀ q ∈ s.vm.space c (s.proc i).pagetable (s.proc i).sz, vm'.mem q = s.vm.mem q := by
    intro q hq
    refine hw.frame q fun hq' => ?_
    exact (hm.space_own hi hl).disjoint hq (subset_add_left hq')
  obtain ⟨hsp', hsame⟩ := hsp.congr fun q hq => hkeep q (subset_add_left hq)
  refine hon.step (.live hl h1 h2 hsp') ?_ ?_
  · rw [owned_live h1 h2, owned_live h1 h2, hsame, hw.free]
  · rw [owned_live h1 h2]
    intro q hq
    refine hw.frame q fun hq' => hq ?_
    exact subset_add_left (subset_add_left hq')

theorem copyTrapframe_spec {src dst : Nat} :
    wp (copyTrapframe c src dst) E (fun _ vm' => Wrote vm vm' {dst} ∧
      vm'.mem dst = childTrapframe c (vm.mem dst) (vm.mem src)) vm := by
  unfold copyTrapframe storeTf
  rw [wp_bind, wp_modify, wp_modify]
  refine ⟨(wrote_put (mem_singleton_self dst)).trans
    (wrote_put (mem_singleton_self dst)), ?_⟩
  rw [Vm.put_mem_self, Vm.put_mem_self]
  rfl

theorem Good.own_free (h : Good c s B) : Own c s.vm 0 := by
  refine h.mem.own.mono ?_
  rw [zero_add]
  exact le_add_left _ _

theorem Freed.slotStep (hf : Freed s.vm vm' ((s.proc i).owned c s.vm))
    (hon : OnSlot s s' i vm' (s.proc i).cleared) : SlotStep c s s' i := by
  refine hon.step (slotOk_cleared _) ?_ fun q hq => hf.frame q fun hq' => ?_
  · rw [owned_cleared, zero_add, hf.free]
  · exact hq (subset_add_left hq')

structure ChildCopied (c : Board) (s s' : Sys) (i np tf pt : Nat) : Prop where
  slot : s.freeSlot = some np
  step : SlotStep c s s' np
  proc : s'.proc np = { s.proc np with
    pid := s.nextpid, state := .used, trapframe := tf, pagetable := pt, sz := (s.proc i).sz }
  copy : CopyOf c s.vm s'.vm (s.proc i).pagetable pt (s.proc i).sz
  shadow : ¬ (c.shadowStack = true ∧ s.vm.freelist.length = 4) →
    s'.vm.oom = s.vm.oom ∧ (c.shadowStack = true →
      IsPage c (s'.vm.shadowPage pt) ∧ s'.vm.mem (s'.vm.shadowPage pt) = Bytes.fill 5)
  noShadow : c.shadowStack = true → s.vm.freelist.length = 4 →
    s'.vm.oom = true ∧ s'.vm.shadowPage pt = 0 ∧ pages (s.proc i).sz = 0

theorem ChildCopied.wrote {s'' : Sys} (h : ChildCopied c s s' i np tf pt) (hm : MemOk c s' X)
    (hnp : np < NPROC) (hw : Wrote s'.vm vm' {tf}) (hon : OnSlot s' s'' np vm' (s'.proc np)) :
    ChildCopied c s s'' i np tf pt := by
  have htf : (s'.proc np).trapframe = tf := by rw [h.proc]
  have hpt : (s'.proc np).pagetable = pt := by rw [h.proc]
  have hsz : (s'.proc np).sz = (s.proc i).sz := by rw [h.proc]
  have hl : (s'.proc np).state ≠ .unused := by
    rw [h.proc]
    exact nofun
  have ho := hm.space_own hnp hl
  rw [hpt, htf, hsz] at ho
  have hkeep : ∀ q ∈ s'.vm.space c pt (s.proc i).sz, vm'.mem q = s'.vm.mem q := fun q hq =>
    hw.frame q fun hq' => ho.disjoint hq (subset_add_left hq')
  have hshp : vm'.shadowPage pt = s'.vm.shadowPage pt :=
    congrArg PTE2PA (Vm.leafAt_congr fun q hq => hkeep q (subset_add_left hq))
  refine ⟨h.slot, h.step.trans (Wrote.slotStep (htf ▸ hw) hm hnp hl hon), hon.proc.trans h.proc, ?_, ?_, ?_⟩
  · rw [hon.vm]
    exact h.copy.after hkeep
  · intro hgood
    obtain ⟨h1, h2⟩ := h.shadow hgood
    rw [hon.vm, hshp]
    refine ⟨hw.oom.trans h1, fun hc => ⟨(h2 hc).1, (hkeep _ ?_).trans (h2 hc).2⟩⟩
    exact subset_add_right (mem_user.mpr (.inr ⟨hc, (h2 hc).1.pos, rfl⟩))
  · intro hc h4
    rw [hon.vm, hshp]
    exact ⟨hw.oom.trans (h.noShadow hc h4).1, (h.noShadow hc h4).2⟩

theorem wp_fork_rest {name : List UInt8} (h : Good c s B) (hi : i < NPROC)
    (hli : (s.proc i).state ≠ .unused) (hc : ChildCopied c s s' i np tf pt) :
    wp (do
      onVm (copyTrapframe c (s.proc i).trapframe tf)
      dupLoop i np NOFILE
      modify fun s => s.setProc np { s.proc np with
        name := name, parent := some i, state := .runnable }
      pure (s.nextpid : Int)) E (fun r s'' => Forked c s s'' B i r) s' := by
  obtain ⟨hnp, hun⟩ := freeSlot_some hc.slot
  obtain ⟨htfi, hpti, -⟩ := (h.mem.slots i hi).space hli
  have hne : i ≠ np := by
    rintro rfl
    exact hli hun
  have hlive : ∀ {s'' : Sys}, ChildCopied c s s'' i np tf pt → ¬ (s''.proc np).gone := by
    intro s'' hc''
    rw [hc''.proc]
    rintro (hh | hh) <;> cases hh
  have hgood : ∀ {s'' : Sys}, ChildCopied c s s'' i np tf pt → Good c s'' B := fun hc'' =>
    Held.step h hnp hc''.step (by rw [hc''.proc]) fun hh => absurd hh (hlive hc'')
  rw [wp_bind]
  refine (OnSlot.refl s' np).wp_onVm (copyTrapframe_spec) ?_
  rintro _ s₁ vm₁ h1 ⟨hw, hcopy⟩
  have hc1 := hc.wrote (hgood hc).mem hnp hw h1
  have hpi : s₁.proc i = s.proc i := hc1.step.others i hne
  have hfree : ∀ fd, NOFILE - NOFILE ≤ fd → fd < NOFILE → (s₁.proc np).ofile fd = none := by
    intro fd _ hfd
    rw [hc1.proc]
    exact h.closed np hnp (.inl hun) fd hfd
  refine wp_call (dupLoop_spec hi hnp hne le_rfl (hgood hc1) (hlive hc1) hfree) ?_
  rintro _ s₂ ⟨h2, hvm2, hr, hof⟩
  rw [wp_bind]
  refine (OnSlot.refl s₂ np).wp_setProc (f := fun p => { p with
    name := name, parent := some i, state := .runnable }) ?_
  intro s₃ h3
  have hstate2 : (s₂.proc np).state = .used := by rw [hr.proc, hc1.proc]
  have hsame : SameMemory (s₂.proc np) { s₂.proc np with
      name := name, parent := some i, state := .runnable } := by
    refine ⟨?_, rfl, rfl, rfl⟩
    rw [hstate2]
    exact ⟨fun hh => (by cases hh), fun hh => (by cases hh)⟩
  have hstep3 : SlotStep c s₂ s₃ np := hsame.slotStep (h2.mem.slots np hnp) h3
  have hvm3 : s₃.vm = s₁.vm := h3.vm.trans hvm2
  have hp3 : s₃.proc np = { s₁.proc np with
      name := name, parent := some i, state := .runnable, ofile := (s₂.proc np).ofile } := by
    rw [h3.proc, hr.proc]
  have hpt3 : (s₃.proc np).pagetable = pt := by rw [hp3, hc1.proc]
  have htf3 : (s₃.proc np).trapframe = tf := by rw [hp3, hc1.proc]
  refine @Forked.ok c s s₃ B i np ⟨hc.slot, ?_, ?_, ?_, ?_, ?_, ?_, ?_, ?_, ?_, ?_, ?_⟩
  · refine Held.step h2 hnp hstep3 (by rw [h3.proc]) ?_
    rw [h3.proc]
    rintro (hh | hh) <;> cases hh
  · intro j hj
    rw [h3.others j hj, hr.others j hj, hc1.step.others j hj]
  · rw [hp3]
  · rw [hp3]
  · rw [hp3, hc1.proc]
  · intro fd hfd
    rw [hp3]
    refine (hof fd hfd).trans ?_
    rw [if_neg (by omega), hpi]
  · intro q hq
    rw [hvm3]
    refine hc1.step.frame q fun hm => hq ?_
    rwa [(h.mem.slots np hnp).owned_unused hun, zero_add, mem_coe] at hm
  · rw [hvm3, hpt3]
    exact hc1.copy
  · have hq : (s.proc i).trapframe ∈ s.otherPages c np := by
      refine mem_otherPages hi hne ?_
      rw [owned_live htfi hpti]
      exact subset_add_left (mem_singleton_self _)
    refine ⟨s'.vm.mem tf, ?_⟩
    rw [hvm3, h1.vm, htf3, hcopy]
    exact congrArg _ (hc.step.mem h.mem hnp (subset_add_left hq))
  · rw [hvm3, hpt3]
    exact hc1.shadow
  · rw [hvm3, hpt3]
    exact hc1.noShadow

/-- **`fork`**: the parent's memory is copied, or nothing has happened. -/
theorem fork_spec (h : Good c s B) (hi : i < NPROC) (hl : ¬ (s.proc i).gone)
    (hE : c.shadowStack = true → s.freeSlot ≠ none → s.vm.freelist.length = 4 → E .kfree) :
    wp (fork c i) E (fun r s' => Forked c s s' B i r) s := by
  have hli : (s.proc i).state ≠ .unused := fun hh => hl (.inl hh)
  unfold fork
  refine wp_call (allocproc_spec h.own_free fun j hj => h.mem.slots j (freeSlot_some hj).1) ?_
  intro res s₁ hres
  cases hres with
  | noSlot slot same => exact .noSlot slot same
  | noPages slot few step cleared free oom =>
    exact .noPages slot step cleared oom (fun hh => by omega) (by omega)
  | @ok np tf pt slot enough left step proc good bad =>
    obtain ⟨hnp, hun⟩ := freeSlot_some slot
    have hne : i ≠ np := by
      rintro rfl
      exact hli hun
    have hpi : s₁.proc i = s.proc i := step.others i hne
    have hgone : ¬ (s₁.proc np).gone := by
      rw [proc]
      rintro (hh | hh) <;> cases hh
    have hlnp : (s₁.proc np).state ≠ .unused := fun hh => hgone (.inl hh)
    have hsz0 : (s₁.proc np).sz = 0 := by
      rw [proc]
      exact ((h.mem.slots np hnp).unused hun).2.2
    have hpt : (s₁.proc np).pagetable = pt := by rw [proc]
    have htf : (s₁.proc np).trapframe = tf := by rw [proc]
    have hpid : (s₁.proc np).pid = s.nextpid := by rw [proc]
    have h1 : Good c s₁ B := Held.step h hnp step (by rw [proc]) fun hh => absurd hh hgone
    obtain ⟨htf0, hpt0, hspn⟩ := (h1.mem.slots np hnp).space hlnp
    obtain ⟨htfi, hpti, hspi⟩ := (h1.mem.slots i hi).space (by rw [hpi]; exact hli)
    have how := h1.mem.space_own hnp hlnp
    have hX : ∀ q ∈ s₁.vm.space c (s₁.proc i).pagetable (s₁.proc i).sz,
        q ∈ {(s₁.proc np).trapframe} + (s₁.otherPages c np + ((pipePages s₁.file).val + B)) := by
      intro q hq
      refine subset_add_right (subset_add_left (mem_otherPages hi hne ?_))
      rw [owned_live htfi hpti]
      exact subset_add_right hq
    rw [hsz0] at hspn how
    dsimp only
    rw [wp_bind, wp_get, wp_bind]
    refine (OnSlot.refl s₁ np).wp_onVm (Space.copy hspi hspn how hX) ?_
    rintro _ s₂ vm₂ h2 (⟨rfl, hoom, hb, hcopy, hold⟩ | ⟨rfl, hoom, hb, hfew⟩)
    · rw [if_neg (by decide), wp_bind]
      refine h2.wp_setProc (f := fun p => { p with sz := (s₁.proc i).sz }) ?_
      intro s₃ h3
      have hstep3 : SlotStep c s₁ s₃ np := by
        refine Became.slotStep ?_ (h1.mem.slots np hnp) hlnp h3 hlnp rfl rfl
        rw [hsz0]
        exact hb
      have hshp : vm₂.shadowPage pt = s₁.vm.shadowPage pt := by
        rw [← hpt]
        exact hb.shadowPage
      have hparent : ∀ q ∈ s.vm.space c (s.proc i).pagetable (s.proc i).sz, s₁.vm.mem q = s.vm.mem q := by
        intro q hq
        refine step.mem h.mem hnp (subset_add_left (mem_otherPages hi hne ?_))
        rw [owned_live (hpi ▸ htfi) (hpi ▸ hpti)]
        exact subset_add_right hq
      have hc : ChildCopied c s s₃ i np tf pt := by
        refine ⟨slot, step.trans hstep3, ?_, ?_, ?_, ?_⟩
        · rw [h3.proc, proc, hpi]
        · rw [h3.vm]
          rw [hpt, hpi] at hcopy
          exact hcopy.before hparent
        · intro hgood
          obtain ⟨hoom1, hsh⟩ := good hgood
          rw [h3.vm, hshp]
          refine ⟨hoom.trans hoom1, fun hc => ⟨(hsh hc).1, (hold _ ?_).trans (hsh hc).2⟩⟩
          rw [hpt]
          exact mem_user.mpr (.inr ⟨hc, (hsh hc).1.pos, rfl⟩)
        · intro hc h4
          obtain ⟨hoom1, hnil, hsh⟩ := bad hc h4
          have hle := hb.pages_le
          rw [hnil, show pages 0 = 0 from rfl, List.length_nil, hpi] at hle
          rw [h3.vm, hshp]
          exact ⟨hoom.trans hoom1, hsh, by omega⟩
      rw [hpi, htf, hpid]
      exact wp_fork_rest h hi hli hc
    · rw [if_pos (by decide), wp_bind]
      have hstep2 : SlotStep c s₁ s₂ np := by
        refine Became.slotStep ?_ (h1.mem.slots np hnp) hlnp h2 hlnp rfl rfl
        rw [hsz0]
        exact hb
      have h2' : Good c s₂ B := Held.step h1 hnp hstep2 (by rw [h2.proc]) fun hh => by
        rw [h2.proc] at hh
        exact absurd hh hgone
      have hl2 : (s₂.proc np).state ≠ .unused := by rw [h2.proc]; exact hlnp
      have hbad : c.shadowStack = true → s₂.vm.shadowPage (s₂.proc np).pagetable = 0 →
          s.vm.freelist.length = 4 := by
        intro hc h0
        by_contra h4
        obtain ⟨-, hsh⟩ := good fun hh => h4 hh.2
        rw [h2.vm, h2.proc, hb.shadowPage, hpt] at h0
        exact (hsh hc).1.pos h0
      refine wp_freeproc (OnSlot.refl s₂ np) (h2'.mem.own_slot hnp).left
        (fun _ => ⟨_, ((h2'.mem.slots np hnp).space hl2).2.2⟩)
        (fun hc _ h0 => hE hc (by rw [slot]; exact Option.some_ne_none np) (hbad hc h0)) ?_
      intro s₃ vm₃ h3 hf hno
      rw [hpi] at hfew
      refine .noPages slot ((step.trans hstep2).trans (hf.slotStep h3)) ?_ ?_ ?_ (by omega)
      · rw [h3.proc, h2.proc, proc]
        rfl
      · rw [h3.vm, hf.oom, h2.vm]
        exact hoom
      · rintro ⟨hc, h4⟩
        obtain ⟨-, -, hsh⟩ := bad hc h4
        refine hno ⟨hc, ((h2'.mem.slots np hnp).space hl2).2.1, ?_⟩
        rw [h2.vm, h2.proc, hb.shadowPage, hpt]
        exact hsh

end

/-! ## `exec` -/

def isElf (file : Option Image) : Prop :=
  ∃ img, file = some img ∧ (img.read 0 ELFHDR_SIZE).length = ELFHDR_SIZE ∧
    field (img.read 0 ELFHDR_SIZE) 0 4 = ELF_MAGIC

/-- The program headers of a file: where they start and how many there are. -/
def Image.phoff (img : Image) : Nat := field (img.read 0 ELFHDR_SIZE) 32 8 % 2 ^ 32
def Image.phnum (img : Image) : Nat := field (img.read 0 ELFHDR_SIZE) 56 2
def Image.entry (img : Image) : Nat := field (img.read 0 ELFHDR_SIZE) 24 8

/-- The trapframe with which a program starts, over the one of the program before it. -/
def startedPage (c : Board) (pg : Page) (entry sp : Nat) : Page :=
  let pg := ((pg.st TF_A1 8 sp).st TF_EPC 8 entry).st TF_SP 8 sp
  if c.shadowStack then pg.st (tfSsp c) 8 (SHADOW_STACK + PGSIZE - 8) else pg

/-- Two tables at once: the second, at `r`, is made of pages that were free in `s`. -/
structure Beside (c : Board) (s vm : Vm) (r tf sz : Nat) : Prop where
  space : Space c vm r tf sz
  bal : vm.space c r sz + ↑vm.freelist = (↑s.freelist : Multiset Nat)
  frame : ∀ q, q ∉ s.freelist → vm.mem q = s.mem q

/-- The image that an `exec` has put in place: `vm₁` is the memory with its table still
    empty, `vm₂` with the program loaded. -/
structure Imaged (c : Board) (s s' : Sys) (i : Nat) (img : Image) (argv : List (List UInt8))
    (pt : Nat) (prog : Loaded) (vm₁ vm₂ : Vm) : Prop where
  pt_ne : pt ≠ 0
  table : procPagetable c (s.proc i).trapframe s.vm = .ok (pt, vm₁)
  empty : Beside c s.vm vm₁ pt (s.proc i).trapframe 0
  load : loadProgram c img img.phoff img.phnum argv pt vm₁ = .ok (.inr prog, vm₂)
  beside : Beside c s.vm vm₂ pt (s.proc i).trapframe prog.sz
  kept : ∀ q ∈ vm₂.space c pt prog.sz, s'.vm.mem q = vm₂.mem q
  trapframe : s'.vm.mem (s.proc i).trapframe =
    startedPage c (s.vm.mem (s.proc i).trapframe) img.entry prog.sp

/-- Why `exec` gives up on an executable: there is no page table, or no program. -/
def GaveUp (c : Board) (s : Sys) (i : Nat) (img : Image) (argv : List (List UInt8)) : Prop :=
  ∃ pt vm₁, procPagetable c (s.proc i).trapframe s.vm = .ok (pt, vm₁) ∧
    (pt = 0 ∨ ∃ sz vm₂, loadProgram c img img.phoff img.phnum argv pt vm₁ = .ok (.inl sz, vm₂))

inductive Execed (c : Board) (s s' : Sys) (i : Nat) (path : List UInt8) (file : Option Image)
    (argv : List (List UInt8)) : Int → Prop where
  | refused (elf : ¬ isElf file) (same : s' = s) : Execed c s s' i path file argv (-1)
  | failed (elf : isElf file) (step : SlotStep c s s' i) (proc : s'.proc i = s.proc i)
      (mem : ∀ q ∈ (s.proc i).owned c s.vm, s'.vm.mem q = s.vm.mem q)
      (good : ¬ (c.shadowStack = true ∧ s.vm.freelist.length = 3))
      (cause : ∃ img, file = some img ∧ GaveUp c s i img argv) :
      Execed c s s' i path file argv (-1)
  | ok (prog : Loaded) (pt : Nat) (elf : isElf file) (step : SlotStep c s s' i)
      (proc : s'.proc i = { s.proc i with
        name := safestrcpy (lastName path path), pagetable := pt, sz := prog.sz })
      (oom : s'.vm.oom = s.vm.oom) (shadow : c.shadowStack = true → s'.vm.shadowPage pt ≠ 0)
      (good : ¬ (c.shadowStack = true ∧ s.vm.freelist.length = 3))
      (old : c.shadowStack = true → s.vm.shadowPage (s.proc i).pagetable ≠ 0)
      (image : ∃ img vm₁ vm₂, file = some img ∧ Imaged c s s' i img argv pt prog vm₁ vm₂) :
      Execed c s s' i path file argv prog.argc

theorem storeTf_spec {off v : Nat} : wp (storeTf tf off v) E (fun _ vm' => Wrote vm vm' {tf} ∧
      vm'.mem tf = (vm.mem tf).st off 8 v) vm :=
  ⟨wrote_put (mem_singleton_self _), Vm.put_mem_self⟩

theorem startTrapframe_spec {entry sp : Nat} {pg : Page} (h : vm.mem tf = pg.st TF_A1 8 sp) :
    wp (startTrapframe c tf entry sp) E (fun _ vm' => Wrote vm vm' {tf} ∧
      vm'.mem tf = startedPage c pg entry sp) vm := by
  unfold startTrapframe startedPage
  refine wp_call storeTf_spec fun _ vm₁ h1 => ?_
  refine wp_call storeTf_spec fun _ vm₂ h2 => ?_
  have hpg : vm₂.mem tf = ((pg.st TF_A1 8 sp).st TF_EPC 8 entry).st TF_SP 8 sp := by
    rw [h2.2, h1.2, h]
  dsimp only
  split
  · refine wp_mono storeTf_spec fun _ vm₃ h3 => ⟨(h1.1.trans h2.1).trans h3.1, ?_⟩
    rw [h3.2, hpg]
  · exact ⟨h1.1.trans h2.1, hpg⟩

theorem SlotOk.slotStep (h : SlotOk c s.vm (s.proc i)) (hon : OnSlot s s' i vm' (s.proc i))
    (hfree : (↑vm'.freelist : Multiset Nat) = ↑s.vm.freelist)
    (hmem : ∀ q, q ∉ s.vm.freelist → vm'.mem q = s.vm.mem q)
    (hown : ∀ q ∈ (s.proc i).owned c s.vm, q ∉ s.vm.freelist) :
    SlotStep c s s' i ∧ ∀ q ∈ (s.proc i).owned c s.vm, s'.vm.mem q = s.vm.mem q := by
  have hkeep : ∀ q ∈ (s.proc i).owned c s.vm, vm'.mem q = s.vm.mem q := fun q hq =>
    hmem q (hown q hq)
  obtain ⟨h1, h2⟩ := h.congr hkeep
  refine ⟨hon.step h1 (by rw [h2, hfree]) fun q hq => hmem q fun hq' => hq ?_, ?_⟩
  · exact subset_add_right (mem_coe.mpr hq')
  · rw [hon.vm]
    exact hkeep

theorem Beside.mem_free {r q : Nat} (h : Beside c vm₀ vm r tf sz)
    (hq : q ∈ vm.space c r sz + (↑vm.freelist : Multiset Nat)) : q ∈ vm₀.freelist := by
  rw [h.bal] at hq
  exact mem_coe.mp hq

theorem Beside.became {r sz' : Nat} (h : Beside c vm₀ vm r tf sz) (hb : Became c vm vm' r tf sz sz') :
    Beside c vm₀ vm' r tf sz' :=
  ⟨hb.space, hb.bal.trans h.bal, fun q hq =>
    (hb.upd.frame q fun hm => hq (h.mem_free hm)).trans (h.frame q hq)⟩

theorem Beside.own {r : Nat} (h : Beside c vm₀ vm r tf sz) (ho : Own c vm₀ A) :
    Own c vm (vm.space c r sz + A) := by
  refine ho.of_eq ?_
  rw [← h.bal]
  abel

theorem Beside.mem {r q : Nat} (h : Beside c vm₀ vm r tf sz) (ho : Own c vm₀ A) (hq : q ∈ A) :
    vm.mem q = vm₀.mem q := h.frame q (ho.not_free hq)

theorem wp_commitImage {prog : Loaded} {img : Image} {vm₁ : Vm} (h : MemOk c s X) (hi : i < NPROC)
    (hl : (s.proc i).state ≠ .unused) (h1 : OnSlot s s' i vm (s.proc i)) (hpt : pt ≠ 0)
    (htable : procPagetable c (s.proc i).trapframe s.vm = .ok (pt, vm₁))
    (hempty : Beside c s.vm vm₁ pt (s.proc i).trapframe 0)
    (hload : loadProgram c img img.phoff img.phnum argv pt vm₁ = .ok (.inr prog, vm))
    (hb : Beside c s.vm vm pt (s.proc i).trapframe prog.sz) (helf : isElf (some img))
    (hgood : ¬ (c.shadowStack = true ∧ s.vm.freelist.length = 3)) (hoom : vm.oom = s.vm.oom)
    (hsh : c.shadowStack = true → vm.shadowPage pt ≠ 0)
    (hE : c.shadowStack = true → s.vm.shadowPage (s.proc i).pagetable = 0 → E .kfree) :
    wp (commitImage c i (s.proc i) path pt img.entry prog) E
      (fun r s' => Execed c s s' i path (some img) argv r) s' := by
  obtain ⟨htf0, hpt0, hsp⟩ := (h.slots i hi).space hl
  have ho := (h.own_slot hi).left
  have ho1 := hb.own ho
  rw [owned_live htf0 hpt0] at ho ho1
  unfold commitImage
  rw [wp_bind]
  refine h1.wp_onVm storeTf_spec ?_
  rintro _ s₂ vm₂ h2 ⟨hw2, hpg2⟩
  rw [wp_bind]
  refine h2.wp_setProc (f := fun p => { p with
    name := safestrcpy (lastName path path), pagetable := pt, sz := prog.sz }) ?_
  intro s₃ h3
  rw [wp_bind]
  refine h3.wp_onVm (startTrapframe_spec hpg2) ?_
  rintro _ s₄ vm₄ h4 ⟨hw4, hpg4⟩
  have hw : Wrote vm vm₄ {(s.proc i).trapframe} := hw2.trans hw4
  -- neither table is written
  have hold : ∀ q ∈ s.vm.space c (s.proc i).pagetable (s.proc i).sz, vm₄.mem q = s.vm.mem q := by
    intro q hq
    rw [hw.frame q fun hq' => ho.disjoint hq' hq]
    exact hb.mem ho (subset_add_right hq)
  have hnew : ∀ q ∈ vm.space c pt prog.sz, vm₄.mem q = vm.mem q := fun q hq =>
    hw.frame q fun hq' => ho1.disjoint hq (subset_add_left hq')
  obtain ⟨hsp4, hs4⟩ := hsp.congr fun q hq => hold q (subset_add_left hq)
  have ho4 : Own c vm₄ (vm₄.space c (s.proc i).pagetable (s.proc i).sz) := by
    rw [hs4]
    refine ho1.mono ?_
    rw [hw.free]
    exact add_le_add_left ((le_add_left _ _).trans (le_add_left _ _)) _
  have hshp4 : vm₄.shadowPage (s.proc i).pagetable = s.vm.shadowPage (s.proc i).pagetable :=
    congrArg PTE2PA (Vm.leafAt_congr fun q hq => hold q (subset_add_left hq))
  rw [wp_bind]
  by_cases hbad : c.shadowStack = true ∧ s.vm.shadowPage (s.proc i).pagetable = 0
  · have hpanic := procFreepagetable_panics hsp4 ho4.left hbad.1 (hshp4.trans hbad.2)
    refine h4.wp_onVm (wp_conseq hpanic ?_ fun _ _ hf => hf) fun _ _ _ _ hf => hf.elim
    rintro e rfl
    exact hE hbad.1 hbad.2
  · refine h4.wp_onVm (procFreepagetable_spec hsp4 ho4 fun hc h0 => hbad ⟨hc, hshp4.symm.trans h0⟩) ?_
    intro _ s₅ vm₅ h5 hf
    rw [hs4] at hf
    have hnew5 : ∀ q ∈ vm.space c pt prog.sz, vm₅.mem q = vm.mem q := by
      intro q hq
      rw [hf.frame q fun hq' => ho1.disjoint hq (subset_add_right hq')]
      exact hnew q hq
    obtain ⟨hsp5, hs5⟩ := hb.space.congr fun q hq => hnew5 q (subset_add_left hq)
    have hshp5 : vm₅.shadowPage pt = vm.shadowPage pt :=
      congrArg PTE2PA (Vm.leafAt_congr fun q hq => hnew5 q (subset_add_left hq))
    have hbal : vm₅.space c pt prog.sz + ↑vm₅.freelist =
        s.vm.space c (s.proc i).pagetable (s.proc i).sz + (↑s.vm.freelist : Multiset Nat) := by
      rw [hs5, hf.free, hw.free, ← hb.bal]
      abel
    have htf5 : vm₅.mem (s.proc i).trapframe =
        startedPage c (s.vm.mem (s.proc i).trapframe) img.entry prog.sp := by
      have hmem := mem_singleton_self (s.proc i).trapframe
      rw [hf.frame _ (ho.disjoint hmem), hpg4, hb.mem ho (subset_add_left hmem)]
    refine .ok prog pt helf (h5.step (.live hl htf0 hpt hsp5) ?_ ?_) h5.proc ?_ ?_ hgood
      (fun hc h0 => hbad ⟨hc, h0⟩) ⟨img, vm₁, vm, rfl, hpt, htable, hempty, hload, hb, ?_, ?_⟩
    · have howned : Proc.owned c vm₅ { s.proc i with
            name := safestrcpy (lastName path path), pagetable := pt, sz := prog.sz } =
          {(s.proc i).trapframe} + vm₅.space c pt prog.sz := owned_live htf0 hpt
      rw [howned, owned_live htf0 hpt0, add_assoc, add_assoc]
      exact congrArg _ hbal
    · rw [owned_live htf0 hpt0]
      intro q hq
      rw [mem_add, mem_add, not_or, not_or] at hq
      rw [hf.frame q hq.1.2, hw.frame q hq.1.1]
      exact hb.frame q hq.2
    · rw [h5.vm, hf.oom, hw.oom, hoom]
    · rw [h5.vm, hshp5]
      exact hsh
    · rw [h5.vm]
      exact hnew5
    · rw [h5.vm]
      exact htf5

theorem MemOk.isPage_trapframe (h : MemOk c s X) (hi : i < NPROC) (hl : (s.proc i).state ≠ .unused) :
    IsPage c (s.proc i).trapframe := by
  obtain ⟨htf0, hpt0, -⟩ := (h.slots i hi).space hl
  refine (h.own_slot hi).isPage (subset_add_left ?_)
  rw [owned_live htf0 hpt0]
  exact subset_add_left (mem_singleton_self _)

/-- A step that has left the process and its pages as they were has changed no mapping, and the
    same pages are free. -/
theorem SlotStep.unchanged (h : SlotStep c s s' i) (hm : MemOk c s X) (hi : i < NPROC)
    (hl : (s.proc i).state ≠ .unused) (hproc : s'.proc i = s.proc i)
    (hmem : ∀ q ∈ (s.proc i).owned c s.vm, s'.vm.mem q = s.vm.mem q) :
    (↑s'.vm.freelist : Multiset Nat) = ↑s.vm.freelist ∧
      ∀ v, s'.vm.leaf (s.proc i).pagetable v = s.vm.leaf (s.proc i).pagetable v := by
  obtain ⟨h1, h2, -⟩ := (hm.slots i hi).space hl
  constructor
  · have hbal := h.bal
    rw [hproc, ((hm.slots i hi).congr hmem).2] at hbal
    exact add_left_cancel hbal
  · intro v
    refine Vm.leafAt_congr fun q hq => hmem q ?_
    rw [owned_live h1 h2]
    exact subset_add_right (subset_add_left hq)

/-- **`exec`**: the process has a new image, or nothing has happened. -/
theorem exec_spec {file : Option Image} (h : MemOk c s X) (hi : i < NPROC)
    (hl : (s.proc i).state ≠ .unused)
    (hE : c.shadowStack = true → isElf file → s.vm.freelist.length = 3 → E .kfree)
    (hE' : c.shadowStack = true → s.vm.shadowPage (s.proc i).pagetable = 0 → E .kfree) :
    wp (exec c i path file argv) E (fun r s' => Execed c s s' i path file argv r) s := by
  have ho := h.own_slot hi
  have hself := OnSlot.refl s i
  have hnot : ∀ q ∈ (s.proc i).owned c s.vm, q ∉ s.vm.freelist := fun q hq => ho.left.not_free hq
  have htf := h.isPage_trapframe hi hl
  unfold exec
  cases file with
  | none => exact .refused (fun ⟨_, hh, _⟩ => by cases hh) rfl
  | some img =>
    dsimp only
    by_cases hlen : (img.read 0 ELFHDR_SIZE).length ≠ ELFHDR_SIZE
    · rw [if_pos hlen]
      refine .refused ?_ rfl
      rintro ⟨img', hh, hl', -⟩
      cases hh
      exact hlen hl'
    · rw [if_neg hlen]
      by_cases hmagic : field (img.read 0 ELFHDR_SIZE) 0 4 ≠ ELF_MAGIC
      · rw [if_pos hmagic]
        refine .refused ?_ rfl
        rintro ⟨img', hh, -, hm'⟩
        cases hh
        exact hmagic hm'
      · rw [if_neg hmagic]
        have helf : isElf (some img) := ⟨img, rfl, not_not.mp hlen, not_not.mp hmagic⟩
        rw [wp_bind, wp_get, wp_bind]
        refine hself.wp_onVm (wp_run (procPagetable_spec ho.free htf)) ?_
        rintro pt s₁ vm₁ h1 ⟨⟨hshort, rfl, hno⟩ | ⟨hlong, hpt, hnew⟩, htable⟩
        · rw [if_pos rfl]
          obtain ⟨hstep, hmem⟩ := (h.slots i hi).slotStep h1 hno.free hno.frame hnot
          exact .failed helf hstep h1.proc hmem (fun hh => by omega)
            ⟨img, rfl, 0, vm₁, htable, .inl rfl⟩
        · rw [if_neg hpt, wp_bind]
          have hb1 : Beside c s.vm vm₁ pt (s.proc i).trapframe 0 := ⟨hnew.space, hnew.bal, hnew.frame⟩
          refine h1.wp_onVm (wp_run (loadProgram_spec hnew.space (hb1.own ho.left).left)) ?_
          rintro res s₂ vm₂ h2 ⟨hload, hrun⟩
          cases res with
          | inl sz =>
            have hload : Became c vm₁ vm₂ pt (s.proc i).trapframe 0 sz := hload
            have hb2 := hb1.became hload
            have ho2 := (hb2.own ho.left).left
            dsimp only
            rw [wp_bind]
            by_cases hbad : c.shadowStack = true ∧ vm₂.shadowPage pt = 0
            · have hpanic := procFreepagetable_panics hb2.space ho2.left hbad.1 hbad.2
              refine h2.wp_onVm (wp_conseq hpanic ?_ fun _ _ hf => hf) fun _ _ _ _ hf => hf.elim
              rintro e rfl
              refine hE hbad.1 helf (by_contra fun h3 => ?_)
              have hsh := (hnew.good fun hh => h3 hh.2).2 hbad.1
              exact hsh.1.pos (hload.shadowPage.symm.trans hbad.2)
            · have hfree := procFreepagetable_spec (E := E) hb2.space ho2 fun hc h0 => hbad ⟨hc, h0⟩
              refine h2.wp_onVm hfree ?_
              intro _ s₃ vm₃ h3 hf
              have hmem : ∀ q, q ∉ s.vm.freelist → vm₃.mem q = s.vm.mem q := by
                intro q hq
                rw [hf.frame q fun hq' => hq (hb2.mem_free (subset_add_left hq'))]
                exact hb2.frame q hq
              obtain ⟨hstep, hmem⟩ := (h.slots i hi).slotStep h3 (hf.free.trans hb2.bal) hmem hnot
              refine .failed helf hstep h3.proc hmem (fun hh => hbad ⟨hh.1, ?_⟩)
                ⟨img, rfl, pt, vm₁, htable, .inr ⟨sz, vm₂, hrun⟩⟩
              exact hload.shadowPage.trans (hnew.bad hh.1 hh.2).2.2
          | inr prog =>
            obtain ⟨hload, hoom, htwo⟩ := hload
            have hgood : ¬ (c.shadowStack = true ∧ s.vm.freelist.length = 3) := by
              rintro ⟨hc, h3⟩
              have hle := hload.pages_le
              rw [(hnew.bad hc h3).2.1, show pages 0 = 0 from rfl, List.length_nil] at hle
              omega
            obtain ⟨hoom1, hsh⟩ := hnew.good hgood
            refine wp_commitImage h hi hl h2 hpt htable hb1 hrun (hb1.became hload) helf hgood
              (hoom.trans hoom1) ?_ hE'
            intro hc
            rw [hload.shadowPage]
            exact (hsh hc).1.pos

end ZeptOS.Mem
