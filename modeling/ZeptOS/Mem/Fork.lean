import ZeptOS.Mem.System

/-!
# Making and freeing processes

`allocproc`, `freeproc`, `growproc` and `fork`, as steps on one slot of the process
table. `allocproc` needs a trapframe and what `proc_pagetable` needs, so with the
hardware shadow stack it comes out wrong when exactly four pages are free.
-/

namespace ZeptOS.Mem

open Lib Lib.Prog Multiset

variable {s s' : Sys} {c : Board} {vm : Vm} {E : Panic → Prop} {i tf : Nat}

/-! ## `freeproc` -/

section
variable {vm' : Vm}

theorem Freed.refl (vm : Vm) : Freed vm vm 0 := ⟨(zero_add _).symm, fun _ _ => rfl, rfl⟩

theorem Freed.trans {vm'' : Vm} {A B : Multiset Nat} (h : Freed vm vm' A) (h' : Freed vm' vm'' B) :
    Freed vm vm'' (A + B) where
  free := by
    rw [h'.free, h.free]
    abel
  frame q hq := by
    rw [mem_add, not_or] at hq
    rw [h'.frame q hq.2, h.frame q hq.1]
  oom := h'.oom.trans h.oom

theorem wp_free_trapframe (h : tf ≠ 0 → IsPage c tf) : wp (if tf ≠ 0 then kfree c tf else pure ()) E
      (fun _ vm' => Freed vm vm' (if tf = 0 then 0 else {tf})) vm := by
  by_cases h0 : tf = 0
  · rw [if_neg (not_not_intro h0), if_pos h0]
    exact Freed.refl vm
  · rw [if_pos h0, if_neg h0, wp_kfree (h h0)]
    refine ⟨?_, fun q hq => Vm.give_mem_of_ne ?_, rfl⟩
    · rw [Vm.give_freelist, singleton_add]
      rfl
    · rintro rfl
      exact hq (mem_singleton_self q)

/-- **`freeproc`** gives back all that the slot owns. It panics if, and only if, physical
    page 0 is its shadow stack. -/
theorem wp_freeproc {p : Proc} {Q : Unit → Sys → Prop} (h : OnSlot s s' i vm p)
    (ho : Own c vm (p.owned c vm)) (hsp : p.pagetable ≠ 0 → ∃ tf, Space c vm p.pagetable tf p.sz)
    (hE : c.shadowStack = true → p.pagetable ≠ 0 → vm.shadowPage p.pagetable = 0 → E .kfree)
    (hQ : ∀ s'' vm', OnSlot s s'' i vm' p.cleared → Freed vm vm' (p.owned c vm) →
      ¬ (c.shadowStack = true ∧ p.pagetable ≠ 0 ∧ vm.shadowPage p.pagetable = 0) → Q () s'') :
    wp (freeproc c i) E Q s' := by
  have htf : p.trapframe ≠ 0 → IsPage c p.trapframe := by
    intro h0
    refine ho.isPage (subset_add_left ?_)
    rw [if_neg h0]
    exact mem_singleton_self _
  unfold freeproc
  rw [wp_bind, wp_get, h.proc]
  dsimp only
  rw [wp_bind]
  refine h.wp_onVm (wp_free_trapframe htf) ?_
  intro _ s₁ vm₁ h1 hf1
  rw [wp_bind]
  by_cases hpt : p.pagetable = 0
  · rw [if_neg (not_not_intro hpt)]
    refine h1.wp_onVm (R := fun _ vm' => vm' = vm₁) rfl ?_
    rintro _ s₂ _ h2 rfl
    refine hQ _ _ (h2.setProc _) ?_ fun hh => hh.2.1 hpt
    unfold Proc.owned
    rw [if_pos hpt, add_zero]
    exact hf1
  · have howned : p.owned c vm =
        (if p.trapframe = 0 then 0 else {p.trapframe}) + vm.space c p.pagetable p.sz := by
      unfold Proc.owned
      rw [if_neg hpt]
    have hkeep : ∀ q ∈ vm.space c p.pagetable p.sz, vm₁.mem q = vm.mem q := by
      intro q hq
      refine hf1.frame q fun hq' => ?_
      rw [howned] at ho
      exact ho.disjoint hq' hq
    have hnodes : ∀ q ∈ vm.nodes p.pagetable, vm₁.mem q = vm.mem q := fun q hq =>
      hkeep q (subset_add_left hq)
    obtain ⟨tf, hsp⟩ := hsp hpt
    obtain ⟨hsp1, hsame⟩ := hsp.congr hnodes
    have hshp : vm₁.shadowPage p.pagetable = vm.shadowPage p.pagetable :=
      congrArg PTE2PA (Vm.leafAt_congr hnodes)
    have ho1 : Own c vm₁ (vm₁.space c p.pagetable p.sz) := by
      refine ho.of_eq ?_
      rw [hsame, hf1.free, howned]
      abel
    rw [if_pos hpt]
    by_cases hbad : c.shadowStack = true ∧ vm.shadowPage p.pagetable = 0
    · have hpanic := procFreepagetable_panics hsp1 (ho1.mono (add_le_add_left
        (le_add_right _ _) _)) hbad.1 (hshp.trans hbad.2)
      refine h1.wp_onVm (wp_conseq hpanic ?_ fun _ _ hf => hf) ?_
      · rintro e rfl
        exact hE hbad.1 hpt hbad.2
      · intro _ _ _ _ hf
        exact hf.elim
    · have hfree := procFreepagetable_spec (E := E) hsp1 ho1 fun hc h0 =>
        hbad ⟨hc, hshp.symm.trans h0⟩
      refine h1.wp_onVm hfree ?_
      intro _ s₂ vm₂ h2 hf2
      rw [hsame] at hf2
      refine hQ _ _ (h2.setProc _) ?_ fun hh => hbad ⟨hh.1, hh.2.2⟩
      rw [howned]
      exact hf1.trans hf2

theorem owned_cleared (p : Proc) : p.cleared.owned c vm = 0 := owned_empty rfl rfl

theorem slotOk_cleared (p : Proc) : SlotOk c vm p.cleared := .empty rfl rfl rfl rfl

end

/-! ## `allocproc` -/

theorem freeSlot_some (h : s.freeSlot = some i) : i < NPROC ∧ (s.proc i).state = .unused := by
  unfold Sys.freeSlot at h
  refine ⟨List.mem_range.mp (List.mem_of_find?_eq_some h), ?_⟩
  simpa using List.find?_some h

inductive Allocated (c : Board) (s s' : Sys) : Option Nat → Prop where
  | noSlot (slot : s.freeSlot = none) (same : s' = s) : Allocated c s s' none
  | noPages {i : Nat} (slot : s.freeSlot = some i) (few : s.vm.freelist.length < 4)
      (step : SlotStep c s s' i) (cleared : s'.proc i = (s.proc i).cleared)
      (free : (↑s'.vm.freelist : Multiset Nat) = ↑s.vm.freelist) (oom : s'.vm.oom = true) :
      Allocated c s s' none
  | ok {i : Nat} (tf pt : Nat) (slot : s.freeSlot = some i) (enough : 4 ≤ s.vm.freelist.length)
      (left : s.vm.freelist.length ≤ s'.vm.freelist.length + 5) (step : SlotStep c s s' i)
      (proc : s'.proc i =
        { s.proc i with pid := s.nextpid, state := .used, trapframe := tf, pagetable := pt })
      (good : ¬ (c.shadowStack = true ∧ s.vm.freelist.length = 4) →
        s'.vm.oom = s.vm.oom ∧ (c.shadowStack = true →
          IsPage c (s'.vm.shadowPage pt) ∧ s'.vm.mem (s'.vm.shadowPage pt) = Bytes.fill 5))
      (bad : c.shadowStack = true → s.vm.freelist.length = 4 →
        s'.vm.oom = true ∧ s'.vm.freelist = [] ∧ s'.vm.shadowPage pt = 0) :
      Allocated c s s' (some i)

theorem wp_storeTf {off v : Nat} {Q : Unit → Vm → Prop} (h : ∀ vm', Wrote vm vm' {tf} → Q () vm') :
    wp (storeTf tf off v) E Q vm := h _ (wrote_put (mem_singleton_self tf))

theorem initTrapframe_spec : wp (initTrapframe c tf) E (fun _ vm' => Wrote vm vm' {tf}) vm := by
  have hlast : ∀ {vm₁ : Vm}, Wrote vm vm₁ {tf} →
      wp (if c.shadowStack then storeTf tf (tfSsp c) 0 else pure ()) E
        (fun _ vm' => Wrote vm vm' {tf}) vm₁ := by
    intro vm₁ h1
    split
    · exact wp_storeTf fun _ h2 => h1.trans h2
    · exact h1
  unfold initTrapframe
  dsimp only
  by_cases hl : c.landingPad = true
  · rw [if_pos hl, wp_bind]
    exact wp_storeTf fun _ h1 => hlast h1
  · rw [if_neg hl]
    exact hlast (Wrote.refl _ _)

theorem allocproc_spec (ho : Own c s.vm 0)
    (hslot : ∀ i, s.freeSlot = some i → SlotOk c s.vm (s.proc i)) :
    wp (allocproc c) E (fun res s' => Allocated c s s' res) s := by
  unfold allocproc
  rw [wp_bind, wp_get]
  cases hs : s.freeSlot with
  | none => exact .noSlot hs rfl
  | some i =>
    obtain ⟨-, hun⟩ := freeSlot_some hs
    obtain ⟨-, hpt0, hsz0⟩ := (hslot i hs).unused hun
    have hown0 := (hslot i hs).owned_unused hun
    rw [wp_bind, wp_set]
    obtain ⟨p₁, hp₁⟩ : ∃ p, p = { s.proc i with pid := s.nextpid, state := .used } := ⟨_, rfl⟩
    obtain ⟨s₁, hs₁⟩ : ∃ s₁, s₁ = { s.setProc i p₁ with nextpid := s.nextpid + 1 } := ⟨_, rfl⟩
    rw [← hp₁, ← hs₁, wp_bind]
    have h1 : OnSlot s s₁ i s.vm p₁ := by
      obtain ⟨ho', hf', hi', hv', hp'⟩ := (OnSlot.refl s i).setProc p₁
      rw [hs₁]
      exact ⟨ho', hf', hi', hv', hp'⟩
    have hsz1 : p₁.sz = 0 := by rw [hp₁]; exact hsz0
    have hpt1 : p₁.pagetable = 0 := by rw [hp₁]; exact hpt0
    have hclear : ∀ tf pt, ({ p₁ with trapframe := tf, pagetable := pt } : Proc).cleared =
        (s.proc i).cleared := fun tf pt => by rw [hp₁]; rfl
    cases hf : s.vm.freelist with
    | nil =>
      refine h1.wp_onVm (R := fun a vm' => a = 0 ∧ vm' = { s.vm with oom := true })
        (by rw [wp_kalloc_nil hf]; exact ⟨rfl, rfl⟩) ?_
      rintro _ s₂ vm₂ h2 ⟨rfl, hvm⟩
      rw [wp_bind]
      refine h2.wp_setProc (f := fun p => { p with trapframe := 0 }) ?_
      intro s₃ h3
      rw [if_pos rfl, wp_bind]
      have hnone : ({ p₁ with trapframe := 0 } : Proc).owned c vm₂ = 0 := owned_empty rfl hpt1
      refine wp_freeproc h3 ?_ (fun hh => absurd hpt1 hh) (fun _ hh => absurd hpt1 hh) ?_
      · rw [hnone]
        exact ho.of_eq (by rw [hvm])
      · intro s' vm' h4 hfr _
        rw [hnone] at hfr
        have hfree : (↑vm'.freelist : Multiset Nat) = ↑s.vm.freelist := by
          rw [hfr.free, zero_add, hvm]
        have h5 : OnSlot s s' i vm' (s.proc i).cleared := hclear 0 p₁.pagetable ▸ h4
        refine .noPages hs (by rw [hf]; decide) (h5.step (slotOk_cleared _) ?_ ?_) h5.proc ?_ ?_
        · rw [owned_cleared, hown0, hfree]
        · intro q _
          rw [hfr.frame q (notMem_zero q), hvm]
        · rw [h5.vm]
          exact hfree
        · rw [h5.vm, hfr.oom, hvm]
    | cons tf rest =>
      have htf : IsPage c tf := ho.free_isPage (hf ▸ List.mem_cons_self)
      refine h1.wp_onVm (R := fun a vm' => tf = a ∧ vm' = s.vm.take tf rest)
        (by rw [wp_kalloc_cons hf]; exact ⟨rfl, rfl⟩) ?_
      rintro _ s₂ vm₂ h2 ⟨rfl, hvm⟩
      rw [wp_bind]
      refine h2.wp_setProc (f := fun p => { p with trapframe := tf }) ?_
      intro s₃ h3
      rw [if_neg htf.pos, wp_bind]
      refine h3.wp_onVm initTrapframe_spec ?_
      intro _ s₄ vm₄ h4 hw
      have hfree4 : vm₄.freelist = rest := by
        rw [hw.free, hvm]
        rfl
      have hoom4 : vm₄.oom = s.vm.oom := by
        rw [hw.oom, hvm]
        rfl
      have hmem4 : ∀ q, q ≠ tf → vm₄.mem q = s.vm.mem q := by
        intro q hq
        rw [hw.frame q (by rw [mem_singleton]; exact hq), hvm, Vm.take_mem_of_ne hq]
      have ho4 : Own c vm₄ {tf} := by
        refine ho.of_eq ?_
        rw [hfree4, hf, zero_add]
        rfl
      have hlen : s.vm.freelist.length = vm₄.freelist.length + 1 := by
        rw [hf, hfree4]
        rfl
      -- nothing outside the free list has been written
      have hframe : ∀ {vm₅ : Vm}, (∀ q, q ∉ vm₄.freelist → vm₅.mem q = vm₄.mem q) →
          ∀ q, q ∉ (s.proc i).owned c s.vm + (↑s.vm.freelist : Multiset Nat) →
            vm₅.mem q = s.vm.mem q := by
        intro vm₅ hfr q hq
        rw [hown0, zero_add, hf, mem_coe, List.mem_cons, not_or] at hq
        rw [hfr q (by rw [hfree4]; exact hq.2), hmem4 q hq.1]
      rw [wp_bind]
      refine h4.wp_onVm (procPagetable_spec (ho4.mono ?_) htf) ?_
      · rw [zero_add]
        exact le_add_left _ _
      · rintro pt s₅ vm₅ h5 (⟨hshort, rfl, hno⟩ | ⟨hlong, hpt, hnew⟩)
        · rw [wp_bind]
          refine h5.wp_setProc (f := fun p => { p with pagetable := 0 }) ?_
          intro s₆ h6
          rw [if_pos rfl, wp_bind]
          have hone : ({ p₁ with trapframe := tf, pagetable := 0 } : Proc).owned c vm₅ = {tf} := by
            unfold Proc.owned
            rw [if_neg htf.pos, if_pos rfl, add_zero]
          refine wp_freeproc h6 ?_ (fun hh => absurd rfl hh) (fun _ hh => absurd rfl hh) ?_
          · rw [hone]
            exact ho4.of_eq (by rw [hno.free])
          · intro s' vm' h7 hfr _
            rw [hone] at hfr
            have hfree : (↑vm'.freelist : Multiset Nat) = ↑s.vm.freelist := by
              rw [hfr.free, hno.free, hfree4, hf]
              rfl
            have h8 : OnSlot s s' i vm' (s.proc i).cleared := hclear tf 0 ▸ h7
            refine .noPages hs (by omega) (h8.step (slotOk_cleared _) ?_ ?_) h8.proc ?_ ?_
            · rw [owned_cleared, hown0, hfree]
            · intro q hq
              rw [hfr.frame q ?_, hframe hno.frame q hq]
              rw [mem_singleton]
              rintro rfl
              rw [hown0, zero_add, hf] at hq
              exact hq (mem_coe.mpr List.mem_cons_self)
            · rw [h8.vm]
              exact hfree
            · rw [h8.vm, hfr.oom]
              exact hno.oom
        · rw [wp_bind]
          refine h5.wp_setProc (f := fun p => { p with pagetable := pt }) ?_
          intro s₆ h6
          rw [if_neg hpt, wp_pure]
          have hspace : ({ p₁ with trapframe := tf, pagetable := pt } : Proc).owned c vm₅ =
              {tf} + vm₅.space c pt 0 := by
            rw [owned_live htf.pos hpt, hsz1]
          have hused : ({ p₁ with trapframe := tf, pagetable := pt } : Proc).state ≠ .unused := by
            rw [hp₁]
            exact nofun
          have hok : SlotOk c vm₅ { p₁ with trapframe := tf, pagetable := pt } := by
            refine .live hused htf.pos hpt ?_
            rw [hsz1]
            exact hnew.space
          have hleft : s.vm.freelist.length ≤ s₆.vm.freelist.length + 5 := by
            rw [h6.vm, hlen]
            exact Nat.succ_le_succ hnew.left
          refine .ok tf pt hs (by omega) hleft (h6.step hok ?_ (hframe hnew.frame)) ?_ ?_ ?_
          · rw [hspace, hown0, zero_add, add_assoc, hnew.bal, hfree4, hf]
            rfl
          · rw [h6.proc, hp₁]
          · intro hgood
            rw [h6.vm]
            obtain ⟨hoom, hsh⟩ := hnew.good fun hh => hgood ⟨hh.1, by omega⟩
            exact ⟨hoom.trans hoom4, hsh⟩
          · intro hc h4
            rw [h6.vm]
            exact hnew.bad hc (by omega)

end ZeptOS.Mem
