import ZeptOS.Mem.Kernel

/-!
# The state after booting

`kinit` puts every page between the kernel and the end of RAM on the free list, the
kernel takes some for itself, and `userinit` makes the first process. When RAM has eight
pages more than the kernel takes, this ends in a state that satisfies the invariant. With
fewer it need not: `uvmfirst` does not look at what `mappages` returns.
-/

namespace ZeptOS.Mem

open Lib Lib.Prog Multiset

variable {E : Panic → Prop} {n p : Nat} {vm : Vm} {c : Board} {B : Multiset Nat} {mem : Nat → Page}
  {src initcode : List UInt8}

/-! ## `kinit` -/

section Rounds

variable {r : Ram} {Q : Unit → Vm → Prop}

theorem nextPage_eq : nextPage p = add64 p PGSIZE := by
  unfold nextPage
  rfl

theorem nextPage_of_lt (h : p + PGSIZE < 2 ^ 64) : nextPage p = p + PGSIZE :=
  nextPage_eq.trans (add64_of_lt h)

theorem addressPages_eq : addressPages * PGSIZE = 2 ^ 64 := by decide

theorem wp_kfree_in (hal : p % PGSIZE = 0) (hlo : r.kernelEnd ≤ p) (hhi : p < r.ramEnd) :
    wp (kfree r p) E Q vm = Q () (vm.give p) := by
  unfold kfree
  rw [if_neg (by omega)]
  rfl

theorem wp_freerange_zero : wp (freerange r 0 p) E Q vm = Q () vm := rfl

theorem wp_freerange_stop (h : ¬ nextPage p ≤ r.ramEnd) :
    wp (freerange r (n + 1) p) E Q vm = Q () vm := by
  unfold freerange
  rw [if_neg h, wp_pure]

theorem wp_freerange_round (h : nextPage p ≤ r.ramEnd) : wp (freerange r (n + 1) p) E Q vm =
      wp (kfree r p) E (fun _ => wp (freerange r n (nextPage p)) E Q) vm := by
  rw [freerange, if_pos h, wp_bind]

/-- Behind the last page of the address space comes page 0, which is not the allocator's. -/
theorem wp_freerange_wrap (hpos : 0 < r.kernelEnd) (hal : p % PGSIZE = 0) (hlo : r.kernelEnd ≤ p)
    (hlast : p + PGSIZE = 2 ^ 64) (hend : p < r.ramEnd → 0 < n) (hE : E .kfree) :
    wp (freerange r (n + 1) p) E Q vm := by
  have hzero : nextPage p = 0 :=
    nextPage_eq.trans ((congrArg (· % 2 ^ 64) hlast).trans (Nat.mod_self _))
  rw [wp_freerange_round (by rw [hzero]; exact Nat.zero_le _), hzero]
  rcases Nat.lt_or_ge p r.ramEnd with hhi | hhi
  · obtain ⟨k, rfl⟩ : ∃ k, n = k + 1 := ⟨n - 1, by have := hend hhi; omega⟩
    have hone : nextPage 0 ≤ r.ramEnd := by
      rw [nextPage_of_lt (by decide)]
      simp only [PGSIZE] at *
      omega
    rw [wp_kfree_in hal hlo hhi, wp_freerange_round hone, kfree, if_pos (.inr (.inl hpos))]
    exact hE
  · rw [kfree, if_pos (.inr (.inr hhi))]
    exact hE

end Rounds

/-- `vm'` is `vm` with the pages of the RAM from `p` on freed. -/
def FreesFrom (r : Ram) (p : Nat) (vm vm' : Vm) : Prop :=
  ∃ l, vm'.oom = vm.oom ∧ vm'.freelist = l ++ vm.freelist ∧ l.Nodup ∧
    ∀ q, q ∈ l ↔ q % PGSIZE = 0 ∧ p ≤ q ∧ q + PGSIZE ≤ r.ramEnd

section
variable {r : Ram}

theorem freesFrom_nil (h : ¬ p + PGSIZE ≤ r.ramEnd) : FreesFrom r p vm vm :=
  ⟨[], rfl, rfl, List.nodup_nil, fun q => ⟨fun hq => absurd hq List.not_mem_nil, fun hq => by omega⟩⟩

theorem FreesFrom.cons {vm' : Vm} (hal : p % PGSIZE = 0) (hlt : p + PGSIZE ≤ r.ramEnd)
    (h : FreesFrom r (p + PGSIZE) (vm.give p) vm') : FreesFrom r p vm vm' := by
  obtain ⟨l, hoom, hl, hnd, hmem⟩ := h
  refine ⟨l ++ [p], hoom, ?_, ?_, fun q => ?_⟩
  · rw [hl, Vm.give_freelist, List.append_assoc]
    rfl
  · refine List.nodup_append'.mpr ⟨hnd, List.nodup_singleton p, fun q hq hp => ?_⟩
    have := (hmem q).mp hq
    rw [List.mem_singleton.mp hp] at this
    simp only [PGSIZE] at *
    omega
  · rw [List.mem_append, hmem, List.mem_singleton]
    constructor
    · rintro (⟨h1, h2, h3⟩ | rfl)
      · exact ⟨h1, by omega, h3⟩
      · exact ⟨hal, le_rfl, hlt⟩
    · rintro ⟨h1, h2, h3⟩
      simp only [PGSIZE] at *
      omega

theorem freerange_spec (hpos : 0 < r.kernelEnd) (hE : r.ramEnd + PGSIZE < 2 ^ 64 ∨ E .kfree) :
    ∀ {n p : Nat} {vm : Vm}, p % PGSIZE = 0 → r.kernelEnd ≤ p →
      (p + PGSIZE < 2 ^ 64 ∨ p + PGSIZE = 2 ^ 64 ∧ E .kfree) → r.ramEnd + PGSIZE < p + n * PGSIZE →
      wp (freerange r n p) E (fun _ vm' => FreesFrom r p vm vm') vm := by
  intro n
  induction n with
  | zero =>
    intro p vm _ _ _ hfuel
    rw [wp_freerange_zero]
    exact freesFrom_nil (by omega)
  | succ n ih =>
    intro p vm hal hlo hwrap hfuel
    rw [Nat.succ_mul] at hfuel
    rcases hwrap with hin | ⟨hlast, hkfree⟩
    · have hnext := nextPage_of_lt hin
      by_cases hlt : p + PGSIZE ≤ r.ramEnd
      · rw [wp_freerange_round (hnext.trans_le hlt), hnext,
          wp_kfree_in hal hlo (Nat.lt_of_lt_of_le (Nat.lt_add_of_pos_right (by decide)) hlt)]
        refine wp_mono (ih (by rw [Nat.add_mod_right]; exact hal) (by omega) ?_ (by omega))
          fun _ vm' h => h.cons hal hlt
        rcases hE with h | h
        · exact .inl (by omega)
        · rcases Nat.lt_or_ge (p + PGSIZE + PGSIZE) (2 ^ 64) with h' | h'
          · exact .inl h'
          · refine .inr ⟨?_, h⟩
            simp only [PGSIZE] at *
            omega
      · rw [wp_freerange_stop (fun h => hlt (hnext.symm.trans_le h))]
        exact freesFrom_nil hlt
    · refine wp_freerange_wrap hpos hal hlo hlast (fun hhi => ?_) hkfree
      simp only [PGSIZE] at *
      omega

/-- **The pages `kinit` frees**: those behind the kernel that fit into the RAM. It panics
    only if the RAM reaches the last page of the address space. -/
theorem kinit_spec (hpos : 0 < r.kernelEnd) (hend : r.kernelEnd ≤ MAXVA) (hlt : r.ramEnd < 2 ^ 64)
    (hE : r.ramEnd + PGSIZE < 2 ^ 64 ∨ E .kfree) :
    wp (kinit r) E (fun _ vm' => FreesFrom r r.kernelEnd vm vm') vm := by
  have hround : PGROUNDUP r.kernelEnd = pages r.kernelEnd * PGSIZE :=
    PGROUNDUP_eq (Nat.le_trans (Nat.add_le_add_right hend _) (by decide))
  have hle := le_pages_mul r.kernelEnd
  have hup : pages r.kernelEnd * PGSIZE < r.kernelEnd + PGSIZE := by
    unfold pages
    simp only [PGSIZE]
    omega
  unfold kinit
  rw [hround]
  refine wp_mono (freerange_spec hpos hE (Nat.mul_mod_left _ _) hle ?_ ?_) ?_
  · refine .inl (Nat.lt_of_lt_of_le (Nat.add_lt_add_right hup _) ?_)
    exact Nat.le_trans (Nat.add_le_add_right (Nat.add_le_add_right hend _) _) (by decide)
  · calc r.ramEnd + PGSIZE < addressPages * PGSIZE + PGSIZE := by
          rw [addressPages_eq]
          exact Nat.add_lt_add_right hlt _
      _ = (addressPages + 1) * PGSIZE := (Nat.succ_mul _ _).symm
      _ ≤ pages r.kernelEnd * PGSIZE + (addressPages + 1) * PGSIZE := Nat.le_add_left _ _
  · rintro _ vm' ⟨l, hoom, hl, hnd, hmem⟩
    refine ⟨l, hoom, hl, hnd, fun q => (hmem q).trans ?_⟩
    unfold pages
    simp only [PGSIZE]
    omega

end

section
variable {s : Sys}

/-- On a board every page is free then. -/
theorem kinit_ramPages (h : vm.freelist = []) : wp (kinit c) E (fun _ vm' => vm'.oom = vm.oom ∧
      (↑vm'.freelist : Multiset Nat) = (ramPages c).val) vm := by
  have hmax : c.ramEnd + PGSIZE < 2 ^ 64 :=
    Nat.lt_of_le_of_lt (Nat.add_le_add_right c.ramEnd_le _) (by decide)
  refine wp_mono (kinit_spec c.end_pos c.kernelEnd_le (by omega) (.inl hmax)) ?_
  rintro _ vm' ⟨l, hoom, hl, hnd, hmem⟩
  rw [hl, h, List.append_nil]
  refine ⟨hoom, (Multiset.Nodup.ext (coe_nodup.mpr hnd) (ramPages c).nodup).mpr fun q => ?_⟩
  rw [mem_coe, hmem, Finset.mem_val, mem_ramPages]

theorem card_ramPages (c : Board) : (ramPages c).card = c.ramEnd / PGSIZE - pages c.kernelEnd := by
  have heq : ramPages c = (Finset.Ico (pages c.kernelEnd) (c.ramEnd / PGSIZE)).image (· * PGSIZE) := by
    ext q
    unfold ramPages pages
    simp only [Finset.mem_filter, Finset.mem_image, Finset.mem_range, Finset.mem_Ico]
    constructor
    · rintro ⟨⟨k, hk, rfl⟩, hq⟩
      simp only [PGSIZE] at *
      exact ⟨k, ⟨by omega, hk⟩, rfl⟩
    · rintro ⟨k, ⟨h1, h2⟩, rfl⟩
      simp only [PGSIZE] at *
      exact ⟨⟨k, h2, rfl⟩, by omega⟩
  rw [heq, Finset.card_image_of_injective _ (mul_left_injective₀ (by decide)), Nat.card_Ico]

theorem good_zero (h : (↑vm.freelist : Multiset Nat) = (ramPages c).val) :
    Good c { Sys.zero mem with vm := vm } 0 := by
  have hpipe : pipePages (Sys.zero mem).file = ∅ := by
    refine Finset.eq_empty_of_forall_notMem fun q hq => ?_
    obtain ⟨f, -, hf, -⟩ := mem_pipePages.mp hq
    exact hf.1 rfl
  have hopens : opens (Sys.zero mem).proc = 0 :=
    Finset.sum_eq_zero fun i _ => Finset.sum_eq_zero fun fd _ => rfl
  refine ⟨⟨⟨fun i _ => .empty rfl rfl rfl rfl, ?_⟩, ?_⟩, fun i _ fd _ f hf => ?_, fun i _ _ fd _ => rfl⟩
  · have hproc : Sys.procPages c { Sys.zero mem with vm := vm } = 0 :=
      Finset.sum_eq_zero fun i _ => owned_empty rfl rfl
    rw [hproc, show ({ Sys.zero mem with vm := vm } : Sys).file = (Sys.zero mem).file from rfl, hpipe,
      Finset.empty_val, zero_add, zero_add, zero_add]
    exact h
  · refine ⟨fun f _ => ?_, fun f _ _ => rfl, fun f g _ _ hf => absurd rfl hf.1, fun q hq => ?_⟩
    · show 0 = (opens (Sys.zero mem).proc + 0) f
      rw [hopens]
      rfl
    · rw [show ({ Sys.zero mem with vm := vm } : Sys).file = (Sys.zero mem).file from rfl, hpipe] at hq
      exact absurd hq (Finset.notMem_empty q)
  · cases hf

/-! ## What the kernel takes -/

theorem bootAlloc_spec : ∀ {n : Nat} {vm : Vm} {B : Multiset Nat}, Good c { s with vm := vm } B →
    n ≤ vm.freelist.length →
    wp (bootAlloc n) E (fun ps vm' => Good c { s with vm := vm' } (↑ps + B) ∧ vm'.oom = vm.oom ∧
      vm'.freelist.length + n = vm.freelist.length ∧ ∀ q, q ∉ vm.freelist → vm'.mem q = vm.mem q) vm := by
  intro n
  induction n with
  | zero =>
    intro vm B h _
    refine ⟨?_, rfl, rfl, fun _ _ => rfl⟩
    rw [coe_nil, zero_add]
    exact h
  | succ n ih =>
    intro vm B h hlen
    unfold bootAlloc
    cases hf : vm.freelist with
    | nil =>
      rw [hf] at hlen
      exact absurd hlen (Nat.not_succ_le_zero n)
    | cons q rest =>
      obtain ⟨hpg, h1⟩ := Held.take h hf
      rw [hf, List.length_cons] at hlen
      rw [wp_bind, wp_kalloc_cons hf, if_neg hpg.pos]
      refine wp_call (ih h1 (Nat.le_of_succ_le_succ hlen)) ?_
      rintro ps vm' ⟨h2, hoom, hleft, hmem⟩
      refine ⟨?_, hoom, ?_, fun p hp => ?_⟩
      · rw [← cons_coe, ← singleton_add, add_assoc, add_left_comm]
        exact h2
      · rw [List.length_cons, ← Nat.add_assoc, hleft]
        rfl
      · rw [List.mem_cons, not_or] at hp
        exact (hmem p hp.2).trans (Vm.take_mem_of_ne hp.1)

end

/-! ## The first process -/

section
variable {s : Vm} {r tf : Nat}

/-- **`uvmfirst`**, with enough pages for the tables on the way. -/
theorem uvmfirst_spec (h : Space c s r tf 0) (ho : Own c s (s.space c r 0))
    (hlen : 3 ≤ s.freelist.length) (hsrc : src.length < PGSIZE) :
    wp (uvmfirst r src) E (fun _ s' => Became c s s' r tf 0 PGSIZE ∧ s'.oom = s.oom ∧
      s.freelist.length ≤ s'.freelist.length + 3) s := by
  have hp1 : pages PGSIZE = 1 := by decide
  have hg : Growing c s r 0 0 vShadow (s.user c r 0) :=
    Growing.start ho h.wf fun u h1 h2 => h.gap u h1 h2
  unfold uvmfirst
  rw [if_neg (Nat.not_le_of_lt hsrc)]
  cases hf : s.freelist with
  | nil =>
    rw [hf] at hlen
    exact absurd hlen (by decide)
  | cons q rest =>
    have hq : IsPage c q := ho.free_isPage (hf ▸ List.mem_cons_self)
    rw [wp_bind, wp_kalloc_cons hf, if_neg hq.pos, wp_bind, wp_memset, wp_bind, ← hf]
    refine wp_mapNew (k := 0) (fun _ => PTE_W ||| PTE_R ||| PTE_X ||| PTE_U) (fun _ => Bytes.fill 0) hg
      (Nat.le_refl 0) (by decide) (by decide) (by decide) hf (fun s₂ _ _ _ hfew => ?_) fun s₂ hfill hl => ?_
    · omega
    · -- the page is in the new space, and the code goes there
      obtain ⟨hb, -⟩ := Filled.became (X := 0) h (by rw [hp1]; exact hfill)
        (by rw [add_zero]; exact ho) (Nat.zero_le _) (by rw [hp1]; decide) fun u _ => ⟨by decide, by decide⟩
      have hmem : q ∈ s₂.user c r PGSIZE := by
        have : PTE2PA (s₂.leaf r 0) ∈ s₂.user c r PGSIZE := mem_user_of_lt (by decide)
        rwa [hl, PTE2PA_mkPte (by decide) (hq.lt.trans (by decide)) hq.1] at this
      have hw : Wrote s₂ (s₂.put q ((s₂.mem q).blit 0 src)) (s₂.user c r PGSIZE) := wrote_put hmem
      rw [wp_modify]
      exact ⟨hb.trans (hw.became hb.space (hb.own' ho)), hfill.oom, hfill.len⟩

end

structure Booted (c : Board) (s : Sys) (B : Multiset Nat) : Prop where
  good : Good c s B
  oom : s.vm.oom = false
  state : (s.proc 0).state = .runnable
  sz : (s.proc 0).sz = PGSIZE
  others : ∀ j, j ≠ 0 → (s.proc j).state = .unused
  shadow : c.shadowStack = true → s.vm.shadowPage (s.proc 0).pagetable ≠ 0

section
variable {s : Sys}

theorem userinit_spec (h : Good c s B) (hslot : s.freeSlot = some 0)
    (hlen : 8 ≤ s.vm.freelist.length) (hsrc : src.length < PGSIZE) (hoom : s.vm.oom = false)
    (hothers : ∀ j, j ≠ 0 → (s.proc j).state = .unused) :
    wp (userinit c src) E (fun _ s' => Booted c s' B ∧
      s.vm.freelist.length ≤ s'.vm.freelist.length + 8) s := by
  unfold userinit
  refine wp_call (allocproc_spec h.own_free fun j hj => h.mem.slots j (freeSlot_some hj).1) ?_
  intro res s₁ hres
  cases hres with
  | noSlot slot => rw [slot] at hslot; cases hslot
  | noPages slot few => exact absurd few (by omega)
  | @ok i tf pt slot enough left step proc good bad =>
    obtain rfl : 0 = i := by rw [slot] at hslot; cases hslot; rfl
    obtain ⟨hoom1, hsh⟩ := good fun hh => by omega
    have hnp : 0 < NPROC := by decide
    have hgone : ¬ (s₁.proc 0).gone := by
      rw [proc]
      rintro (hh | hh) <;> cases hh
    have hl1 : (s₁.proc 0).state ≠ .unused := fun hh => hgone (.inl hh)
    have h1 : Good c s₁ B := Held.step h hnp step (by rw [proc]) fun hh => absurd hh hgone
    have hsz0 : (s₁.proc 0).sz = 0 := by
      rw [proc]
      exact ((h.mem.slots 0 hnp).unused (freeSlot_some slot).2).2.2
    have hpt : (s₁.proc 0).pagetable = pt := by rw [proc]
    obtain ⟨s₂, hs₂⟩ : ∃ s₂, s₂ = { s₁ with initproc := 0 } := ⟨_, rfl⟩
    have h2 : Good c s₂ B := by
      rw [hs₂]
      exact ⟨⟨⟨h1.mem.slots, h1.mem.total⟩, h1.kernel.files⟩, h1.bounded, h1.closed⟩
    have hp2 : s₂.proc = s₁.proc := by rw [hs₂]
    have hv2 : s₂.vm = s₁.vm := by rw [hs₂]
    dsimp only
    rw [wp_bind, wp_modify, ← hs₂, wp_bind, wp_get, wp_bind]
    obtain ⟨-, -, hsp⟩ := (h2.mem.slots 0 hnp).space (by rw [hp2]; exact hl1)
    have ho := h2.mem.space_own' hnp (by rw [hp2]; exact hl1)
    have hsz2 : (s₂.proc 0).sz = 0 := by rw [hp2]; exact hsz0
    rw [hsz2] at hsp ho
    refine (OnSlot.refl s₂ 0).wp_onVm (uvmfirst_spec hsp ho (by rw [hv2]; omega) hsrc) ?_
    rintro _ s₃ vm₃ h3 ⟨hb, hoom3, hleft3⟩
    rw [wp_bind]
    refine h3.wp_setProc (f := fun p => { p with sz := PGSIZE }) ?_
    intro s₄ h4
    have hstep4 : SlotStep c s₂ s₄ 0 := by
      refine Became.slotStep ?_ (h2.mem.slots 0 hnp) ?_ h4 ?_ rfl rfl
      · rw [hsz2]
        exact hb
      · rw [hp2]; exact hl1
      · show (s₂.proc 0).state ≠ .unused
        rw [hp2]; exact hl1
    have hlive4 : ¬ (s₄.proc 0).gone := by
      rw [h4.proc]
      show ¬ (s₂.proc 0).gone
      rw [hp2]; exact hgone
    have h4' : Good c s₄ B := Held.step h2 hnp hstep4 (by rw [h4.proc]) fun hh => absurd hh hlive4
    have htf : (s₂.proc 0).trapframe = (s₄.proc 0).trapframe := by rw [h4.proc]
    -- the two registers
    rw [wp_bind, htf]
    refine (OnSlot.refl s₄ 0).wp_onVm (R := fun _ vm' => Wrote s₄.vm vm' {(s₄.proc 0).trapframe})
      (wp_storeTf fun _ hw => hw) ?_
    intro _ s₅ vm₅ h5 hw5
    rw [wp_bind]
    refine h5.wp_onVm (R := fun _ vm' => Wrote s₄.vm vm' {(s₄.proc 0).trapframe})
      (wp_storeTf fun _ hw => hw5.trans hw) ?_
    intro _ s₆ vm₆ h6 hw6
    have hl4 : (s₄.proc 0).state ≠ .unused := fun hh => hlive4 (.inl hh)
    have hstep6 : SlotStep c s₄ s₆ 0 := hw6.slotStep h4'.mem hnp hl4 h6
    have h6' : Good c s₆ B := Held.step h4' hnp hstep6 (by rw [h6.proc]) fun hh => by
      rw [h6.proc] at hh
      exact absurd hh hlive4
    refine (OnSlot.refl s₆ 0).wp_setProc (f := fun p => { p with
      name := safestrcpy "initcode".toUTF8.toList, state := .runnable }) ?_
    intro s₇ h7
    have hsame : SameMemory (s₆.proc 0) { s₆.proc 0 with
        name := safestrcpy "initcode".toUTF8.toList, state := .runnable } := by
      refine ⟨⟨fun hh => (by cases hh), fun hh => ?_⟩, rfl, rfl, rfl⟩
      rw [h6.proc] at hh
      exact absurd hh hl4
    have hshadow : vm₆.shadowPage pt = s₁.vm.shadowPage pt := by
      have hsp4 := ((h4'.mem.slots 0 hnp).space hl4).2.2
      have hkeep : ∀ q ∈ s₄.vm.nodes (s₄.proc 0).pagetable, vm₆.mem q = s₄.vm.mem q := fun q hq =>
        hw6.frame q fun hq' => (h4'.mem.space_own hnp hl4).disjoint
          (subset_add_left hq) (subset_add_left hq')
      have h46 : vm₆.shadowPage (s₄.proc 0).pagetable = s₄.vm.shadowPage (s₄.proc 0).pagetable :=
        congrArg PTE2PA (Vm.leafAt_congr hkeep)
      have hpt4 : (s₄.proc 0).pagetable = pt := by
        rw [h4.proc]
        show (s₂.proc 0).pagetable = pt
        rw [hp2, hpt]
      have hb' := hb.shadowPage
      rw [hp2, hpt, hv2] at hb'
      rw [hpt4, h4.vm] at h46
      rw [h46, hb']
    have hleft : s.vm.freelist.length ≤ s₇.vm.freelist.length + 8 := by
      rw [h7.vm, h6.vm, hw6.free, h4.vm]
      rw [hv2] at hleft3
      omega
    refine ⟨⟨Held.step h6' hnp (hsame.slotStep (h6'.mem.slots 0 hnp) h7) (by rw [h7.proc]) ?_,
      ?_, ?_, ?_, ?_, ?_⟩, hleft⟩
    · rw [h7.proc]
      rintro (hh | hh) <;> cases hh
    · rw [h7.vm, h6.vm, hw6.oom, h4.vm, hoom3, hv2, hoom1, hoom]
    · rw [h7.proc]
    · rw [h7.proc]
      show (s₆.proc 0).sz = PGSIZE
      rw [h6.proc, h4.proc]
    · intro j hj
      rw [h7.others j hj, h6.others j hj, h4.others j hj, hp2, step.others j hj]
      exact hothers j hj
    · intro hc
      have hpt7 : (s₇.proc 0).pagetable = pt := by
        rw [h7.proc]
        show (s₆.proc 0).pagetable = pt
        rw [h6.proc, h4.proc]
        show (s₂.proc 0).pagetable = pt
        rw [hp2, hpt]
      rw [h7.vm, h6.vm, hpt7, hshadow]
      exact (hsh hc).1.pos

/-- **Booting** ends in a state that satisfies the invariant. -/
theorem boot_spec (hram : n + 8 ≤ (ramPages c).card) (hsrc : initcode.length < PGSIZE) :
    wp (boot c n initcode) E (fun ps s' => Booted c s' ↑ps ∧
      (ramPages c).card ≤ s'.vm.freelist.length + (n + 8)) (Sys.zero mem) := by
  unfold boot
  rw [wp_bind, wp_onVm]
  refine wp_mono (kinit_ramPages rfl) ?_
  rintro _ vm₁ ⟨hoom1, hfree1⟩
  have h1 : Good c { Sys.zero mem with vm := vm₁ } 0 := good_zero hfree1
  have hlen : vm₁.freelist.length = (ramPages c).card := by
    rw [← coe_card, hfree1]
    rfl
  rw [wp_bind, wp_onVm]
  refine wp_mono (bootAlloc_spec h1 (by rw [hlen]; omega)) ?_
  rintro ps vm₂ ⟨h2, hoom2, hlen2, -⟩
  rw [add_zero] at h2
  have hlen8 : 8 ≤ vm₂.freelist.length := by
    dsimp only at hlen2
    omega
  refine wp_call (userinit_spec h2 rfl hlen8 hsrc (hoom2.trans hoom1) fun _ _ => rfl) ?_
  rintro _ s' ⟨hb, hleft⟩
  refine ⟨hb, ?_⟩
  dsimp only at hlen2 hleft
  omega

theorem boot_runs (mem : Nat → Page) (hram : n + 8 ≤ (ramPages c).card)
    (hsrc : initcode.length < PGSIZE) :
    ∃ ps s, boot c n initcode (Sys.zero mem) = .ok (ps, s) ∧ Booted c s ↑ps ∧
      (ramPages c).card ≤ s.vm.freelist.length + (n + 8) :=
  run_of_wp (boot_spec hram hsrc)

theorem Booted.drain {k : Nat} (h : Booted c s B) (hk : k ≤ s.vm.freelist.length) :
    ∃ s' B', Booted c s' B' ∧ s'.vm.freelist.length = k := by
  have hnp : 0 < NPROC := by decide
  have hl : (s.proc 0).state ≠ .unused := by rw [h.state]; exact nofun
  obtain ⟨htf, hpt, -⟩ := (h.good.mem.slots 0 hnp).space hl
  obtain ⟨ps, vm, -, h', hoom, hlen, hmem⟩ := run_of_wp
    (bootAlloc_spec (s := s) h.good (Nat.sub_le s.vm.freelist.length k))
  have hshp : vm.shadowPage (s.proc 0).pagetable = s.vm.shadowPage (s.proc 0).pagetable := by
    refine congrArg PTE2PA (Vm.leafAt_congr fun q hq => hmem q ?_)
    refine (h.good.mem.own_slot hnp).left.not_free ?_
    rw [owned_live htf hpt]
    exact subset_add_right (subset_add_left hq)
  refine ⟨{ s with vm := vm }, ↑ps + B, ⟨h', hoom.trans h.oom, h.state, h.sz, h.others, ?_⟩, ?_⟩
  · intro hc
    show vm.shadowPage (s.proc 0).pagetable ≠ 0
    rw [hshp]
    exact h.shadow hc
  · show vm.freelist.length = k
    omega

end

end ZeptOS.Mem
