import ZeptOS.Mem.Proc
import ZeptOS.Mem.Uvm

/-!
# Address spaces

The page table of a process: user pages from 0 to the size, nothing up to the special
pages, and these at the top. `Space` says so, and `Vm.space` is what such a table owns:
its nodes, its user pages and its shadow-stack page. The trapframe is mapped but not
owned: during `exec` two tables map it.

`proc_pagetable` is specified by how many pages are free. With the hardware shadow stack
one more page is taken, and the source does not look whether it got it: with exactly
three free pages the table comes back with physical page 0 mapped at `SHADOW_STACK`.
-/

namespace ZeptOS.Mem

open Lib Lib.Prog Multiset

variable {s s' : Vm} {r v sz tf : Nat} {c : Board} {E : Panic → Prop}

abbrev vTrampoline : Nat := 2 ^ 26 - 1
abbrev vTrapframe : Nat := 2 ^ 26 - 2
abbrev vShadow : Nat := 2 ^ 26 - 3

theorem TRAMPOLINE_eq : TRAMPOLINE = vTrampoline * PGSIZE := by decide
theorem TRAPFRAME_eq : TRAPFRAME = vTrapframe * PGSIZE := by decide
theorem SHADOW_STACK_eq : SHADOW_STACK = vShadow * PGSIZE := by decide

theorem special_of_ge {v : Nat} (h : vShadow ≤ v) (hv : v < 2 ^ 26) :
    v = vShadow ∨ v = vTrapframe ∨ v = vTrampoline := by
  have h1 : vTrapframe = vShadow + 1 := by decide
  have h2 : vTrampoline = vShadow + 2 := by decide
  have h3 : 2 ^ 26 = vShadow + 3 := by decide
  omega

def Vm.shadowPage (s : Vm) (r : Nat) : Nat := PTE2PA (s.leaf r vShadow)

structure Space (c : Board) (s : Vm) (r tf sz : Nat) : Prop where
  wf : Wf s r
  low : ∀ v, v < pages sz → isValid (s.leaf r v)
  gap : ∀ v, pages sz ≤ v → v < vShadow → ¬ isValid (s.leaf r v)
  shadow : if c.shadowStack then
    ∃ ss, ss % PGSIZE = 0 ∧ ss < 2 ^ 56 ∧ s.leaf r vShadow = mkPte ss PTE_W
    else ¬ isValid (s.leaf r vShadow)
  trapframe : s.leaf r vTrapframe = mkPte tf (PTE_R ||| PTE_W)
  trampoline : s.leaf r vTrampoline = mkPte c.trampoline (PTE_R ||| PTE_X)
  size : pages sz ≤ vShadow

/-- The shadow-stack page a table owns: none if page 0 is mapped for want of one. -/
def Vm.shadowOf (c : Board) (s : Vm) (r : Nat) : Multiset Nat :=
  if c.shadowStack = true ∧ s.shadowPage r ≠ 0 then {s.shadowPage r} else 0

def Vm.user (c : Board) (s : Vm) (r sz : Nat) : Multiset Nat :=
  s.targets r 0 (pages sz) + s.shadowOf c r

def Vm.space (c : Board) (s : Vm) (r sz : Nat) : Multiset Nat := s.nodes r + s.user c r sz

theorem user_congr (hl : ∀ u, u < 512 ^ 3 → s'.leaf r u = s.leaf r u) (hsz : pages sz ≤ vShadow) :
    s'.user c r sz = s.user c r sz := by
  have hsh : s'.shadowPage r = s.shadowPage r := by
    unfold Vm.shadowPage
    rw [hl _ (by decide)]
  have ht : s'.targets r 0 (pages sz) = s.targets r 0 (pages sz) := by
    refine targets_congr fun k hk => hl _ ?_
    have : vShadow < 512 ^ 3 := by decide
    omega
  unfold Vm.user Vm.shadowOf
  rw [ht, hsh]

theorem Space.congr (h : Space c s r tf sz) (hm : ∀ q ∈ s.nodes r, s'.mem q = s.mem q) :
    Space c s' r tf sz ∧ s'.space c r sz = s.space c r sz := by
  have hl : ∀ v, s'.leaf r v = s.leaf r v := fun v => Vm.leafAt_congr hm
  refine ⟨⟨h.wf.congr hm, ?_, ?_, ?_, ?_, ?_, h.size⟩, ?_⟩
  · intro v; rw [hl]; exact h.low v
  · intro v; rw [hl]; exact h.gap v
  · rw [hl]; exact h.shadow
  · rw [hl]; exact h.trapframe
  · rw [hl]; exact h.trampoline
  · unfold Vm.space
    rw [show s'.nodes r = s.nodes r from Vm.nodesAt_congr hm, user_congr (fun u _ => hl u) h.size]

theorem mem_user {q : Nat} : q ∈ s.user c r sz ↔ (∃ u, u < pages sz ∧ PTE2PA (s.leaf r u) = q) ∨
      (c.shadowStack = true ∧ s.shadowPage r ≠ 0 ∧ q = s.shadowPage r) := by
  unfold Vm.user Vm.shadowOf
  rw [mem_add, mem_targets]
  refine or_congr ?_ ?_
  · constructor
    · rintro ⟨u, -, h2, h3⟩
      exact ⟨u, by omega, h3⟩
    · rintro ⟨u, h2, h3⟩
      exact ⟨u, Nat.zero_le _, by omega, h3⟩
  · split
    · rename_i h
      rw [mem_singleton]
      exact ⟨fun he => ⟨h.1, h.2, he⟩, fun he => he.2.2⟩
    · rename_i h
      constructor
      · intro hq
        simp at hq
      · exact fun he => absurd ⟨he.1, he.2.1⟩ h

/-! ## `proc_freepagetable` -/

theorem unmap_one {doFree : Bool} (hv : v < 2 ^ 26)
    (ho : Own c s (s.nodes r + freed doFree {PTE2PA (s.leaf r v)})) (hval : isValid (s.leaf r v))
    (hleaf : isLeaf (s.leaf r v)) : wp (uvmunmap c r (v * PGSIZE) 1 doFree) E (fun _ s' =>
      Gave s s' r (freed doFree {PTE2PA (s.leaf r v)}) ∧
      ∀ u, u < 512 ^ 3 → s'.leaf r u = if u = v then 0 else s.leaf r u) s := by
  have ht : s.targets r v 1 = {PTE2PA (s.leaf r v)} := by
    rw [show (1 : Nat) = 0 + 1 from rfl, targets_succ, targets_zero, Nat.add_zero]
    rfl
  rw [← ht] at ho ⊢
  refine wp_mono (uvmunmap_spec (by omega) ho fun u h1 h2 => ?_) ?_
  · rw [show u = v by omega]
    exact ⟨hval, hleaf⟩
  · rintro _ s' ⟨hg, hl⟩
    refine ⟨hg, fun u hu => ?_⟩
    rw [hl u hu]
    by_cases huv : u = v
    · rw [if_pos (by omega), if_pos huv]
    · rw [if_neg (by omega), if_neg huv]

theorem uvmfree_spec (hwf : Wf s r) (hsz : pages sz ≤ 2 ^ 26)
    (ho : Own c s (s.nodes r + s.targets r 0 (pages sz)))
    (hlow : ∀ u, u < pages sz → isValid (s.leaf r u))
    (hhigh : ∀ u, pages sz ≤ u → u < 512 ^ 3 → ¬ isValid (s.leaf r u)) :
    wp (uvmfree c r sz) E (fun _ s' => Freed s s' (s.nodes r + s.targets r 0 (pages sz))) s := by
  have hcont : ∀ s₁ : Vm, Gave s s₁ r (s.targets r 0 (pages sz)) →
      (∀ u, u < 512 ^ 3 → s₁.leaf r u = if u < pages sz then 0 else s.leaf r u) →
      wp (freewalk c r) E (fun _ s' => Freed s s' (s.nodes r + s.targets r 0 (pages sz))) s₁ := by
    intro s₁ hg hl
    refine wp_mono (freewalk_spec (c := c) ?_ ?_ ?_) ?_
    · have := hg.own (X := 0) (c := c) (by rw [add_zero]; exact ho)
      rwa [add_zero] at this
    · refine hwf.change hg.inner fun u hu => ?_
      rw [hl u hu]
      split
      · exact .inr (.inl rfl)
      · exact .inl rfl
    · intro u hu
      rw [hl u hu]
      split
      · exact not_isValid_zero
      · exact hhigh u (by omega) hu
    · rintro _ s' hfr
      rw [hg.nodes] at hfr
      refine ⟨?_, ?_, hfr.oom.trans hg.oom⟩
      · rw [hfr.free, hg.free, add_assoc]
      · intro q hq
        rw [hfr.frame q fun hm => hq (subset_add_left hm),
          hg.frame q (fun hm => hq (subset_add_left hm))
            fun hm => hq (subset_add_right hm)]
  unfold uvmfree
  by_cases hpos : sz > 0
  · rw [if_pos hpos]
    have hspec := @uvmunmap_spec c s (pages sz) r 0 true E (by omega) ho fun u _ h2 => by
        have hu : u < pages sz := by omega
        exact ⟨hlow u hu, (hwf.leaf u (Nat.lt_of_lt_of_le (hu.trans_le hsz) (by decide))
          (hlow u hu)).1⟩
    rw [Nat.zero_mul] at hspec
    rw [PGROUNDUP_of_pages hsz, Nat.mul_div_cancel _ (by decide)]
    refine wp_call hspec ?_
    rintro _ s₁ ⟨hg, hl⟩
    refine hcont s₁ hg fun u hu => ?_
    rw [hl u hu, Nat.zero_add]
    by_cases huk : u < pages sz
    · rw [if_pos ⟨Nat.zero_le _, huk⟩, if_pos huk]
    · rw [if_neg fun h => huk h.2, if_neg huk]
  · have h0 : pages sz = 0 := by
      rw [show sz = 0 by omega]
      rfl
    rw [if_neg hpos]
    refine hcont s ?_ fun u _ => ?_
    · rw [h0, targets_zero]
      exact Gave.refl s r
    · rw [h0, if_neg (Nat.not_lt_zero u)]

theorem Space.trampoline_valid (h : Space c s r tf sz) :
    isValid (s.leaf r vTrampoline) ∧ isLeaf (s.leaf r vTrampoline) := by
  rw [h.trampoline]
  exact ⟨isValid_mkPte (by decide), (isLeaf_mkPte (by decide)).mpr (by decide)⟩

theorem Space.trapframe_valid (h : Space c s r tf sz) :
    isValid (s.leaf r vTrapframe) ∧ isLeaf (s.leaf r vTrapframe) := by
  rw [h.trapframe]
  exact ⟨isValid_mkPte (by decide), (isLeaf_mkPte (by decide)).mpr (by decide)⟩

theorem Space.shadow_valid (h : Space c s r tf sz) (hc : c.shadowStack = true) :
    isValid (s.leaf r vShadow) ∧ isLeaf (s.leaf r vShadow) := by
  have hs := h.shadow
  rw [if_pos hc] at hs
  obtain ⟨ss, -, -, hs⟩ := hs
  rw [hs]
  exact ⟨isValid_mkPte (by decide), (isLeaf_mkPte (by decide)).mpr (by decide)⟩

theorem wp_unmap_specials {f : K Unit} {Q : Unit → Vm → Prop} (h : Space c s r tf sz)
    (hn : Own c s (s.nodes r))
    (hf : ∀ s', Gave s s' r 0 → Wf s' r →
      (∀ u, u < 512 ^ 3 →
        s'.leaf r u = if u = vTrapframe ∨ u = vTrampoline then 0 else s.leaf r u) →
      wp f E Q s') :
    wp (do
      uvmunmap c r TRAMPOLINE 1 false
      uvmunmap c r TRAPFRAME 1 false
      f) E Q s := by
  rw [TRAMPOLINE_eq, TRAPFRAME_eq]
  refine wp_call (unmap_one (c := c) (by decide) (by rw [freed_false, add_zero]; exact hn)
    h.trampoline_valid.1 h.trampoline_valid.2) ?_
  rintro _ s₁ ⟨hg1, hl1⟩
  rw [freed_false] at hg1
  have htf : s₁.leaf r vTrapframe = s.leaf r vTrapframe := by
    rw [hl1 _ (by decide), if_neg (by decide)]
  have hn1 : Own c s₁ (s₁.nodes r) := by
    have := hg1.own (X := 0) (c := c) (by rw [add_zero, add_zero]; exact hn)
    rwa [add_zero] at this
  refine wp_call (unmap_one (c := c) (by decide) (by rw [freed_false, add_zero]; exact hn1)
    (by rw [htf]; exact h.trapframe_valid.1) (by rw [htf]; exact h.trapframe_valid.2)) ?_
  rintro _ s₂ ⟨hg2, hl2⟩
  rw [freed_false] at hg2
  have hg := hg1.trans hg2
  rw [add_zero] at hg
  have hl : ∀ u, u < 512 ^ 3 →
      s₂.leaf r u = if u = vTrapframe ∨ u = vTrampoline then 0 else s.leaf r u := by
    intro u hu
    rw [hl2 u hu, hl1 u hu]
    by_cases h1 : u = vTrapframe
    · rw [if_pos h1, if_pos (.inl h1)]
    · by_cases h2 : u = vTrampoline
      · rw [if_neg h1, if_pos h2, if_pos (.inr h2)]
      · rw [if_neg h1, if_neg h2, if_neg fun h => h.elim h1 h2]
  refine hf s₂ hg (h.wf.change hg.inner fun u hu => ?_) hl
  rw [hl u hu]
  split
  · exact .inr (.inl rfl)
  · exact .inl rfl

/-- **`proc_freepagetable`**: every page the table owns is free, if its shadow-stack page
    is one. -/
theorem procFreepagetable_spec (h : Space c s r tf sz) (ho : Own c s (s.space c r sz))
    (hsh : c.shadowStack = true → s.shadowPage r ≠ 0) :
    wp (procFreepagetable c r sz) E (fun _ s' => Freed s s' (s.space c r sz)) s := by
  have hn : Own c s (s.nodes r) := ho.left
  have hsz26 : pages sz ≤ 2 ^ 26 := h.size.trans (by decide)
  unfold procFreepagetable
  refine wp_unmap_specials h hn ?_
  intro s₂ hg2 hwf2 hl2
  have hlow2 : ∀ u, u ≤ vShadow → s₂.leaf r u = s.leaf r u := by
    intro u hu
    have h1 : vShadow < vTrapframe := by decide
    have h2 : vTrapframe < vTrampoline := by decide
    have h3 : vTrampoline < 512 ^ 3 := by decide
    rw [hl2 u (by omega), if_neg (by omega)]
  -- what is left to free, with the shadow-stack page gone or never there
  have hcont : ∀ (s₃ : Vm) (back : Multiset Nat), back = s.shadowOf c r → Gave s₂ s₃ r back →
      Wf s₃ r → (∀ u, u < 512 ^ 3 → u ≠ vShadow → s₃.leaf r u = s₂.leaf r u) →
      ¬ isValid (s₃.leaf r vShadow) →
      wp (uvmfree c r sz) E (fun _ s' => Freed s s' (s.space c r sz)) s₃ := by
    intro s₃ back hback hg3 hwf3 hl3 hinv
    have hleaf : ∀ u, u < pages sz → s₃.leaf r u = s.leaf r u := by
      intro u hu
      have h1 : vShadow < 512 ^ 3 := by decide
      have h2 := h.size
      rw [hl3 u (by omega) (by omega), hlow2 u (by omega)]
    have ht : s₃.targets r 0 (pages sz) = s.targets r 0 (pages sz) :=
      targets_congr fun k hk => by rw [Nat.zero_add]; exact hleaf k hk
    have hg := hg2.trans hg3
    rw [zero_add, hback] at hg
    refine wp_mono (uvmfree_spec (c := c) hwf3 hsz26 ?_ ?_ ?_) ?_
    · rw [ht]
      refine hg.own ?_
      unfold Vm.space Vm.user at ho
      rwa [add_assoc]
    · intro u hu
      rw [hleaf u hu]
      exact h.low u hu
    · intro u hu1 hu2
      by_cases hus : u = vShadow
      · rw [hus]
        exact hinv
      · rw [hl3 u hu2 hus, hl2 u hu2]
        split
        · exact not_isValid_zero
        · rename_i hne
          by_cases hlt : u < vShadow
          · exact h.gap u hu1 hlt
          · intro hv
            have := special_of_ge (Nat.le_of_not_lt hlt) (h.wf.leaf u hu2 hv).2
            omega
    · intro _ s' hfr
      rw [hg.nodes, ht] at hfr
      have hsp : s.space c r sz = s.nodes r + s.targets r 0 (pages sz) + s.shadowOf c r := by
        unfold Vm.space Vm.user
        rw [add_assoc]
      rw [hsp]
      refine ⟨?_, ?_, hfr.oom.trans hg.oom⟩
      · rw [hfr.free, hg.free]
        abel
      · intro q hq
        have h1 : q ∉ s.nodes r + s.targets r 0 (pages sz) := fun hm =>
          hq (subset_add_left hm)
        rw [hfr.frame q h1, hg.frame q (fun hm => h1 (subset_add_left hm))
          fun hm => hq (subset_add_right hm)]
  by_cases hc : c.shadowStack = true
  · have hpage : s₂.leaf r vShadow = s.leaf r vShadow := hlow2 _ le_rfl
    have hof : s.shadowOf c r = {PTE2PA (s₂.leaf r vShadow)} := by
      rw [hpage]
      exact if_pos ⟨hc, hsh hc⟩
    rw [if_pos hc, SHADOW_STACK_eq]
    have ho2 : Own c s₂ (s₂.nodes r + s.shadowOf c r) := by
      refine hg2.own ?_
      rw [add_zero]
      refine ho.mono (add_le_add_left ?_ _)
      unfold Vm.space Vm.user
      rw [← add_assoc, add_right_comm]
      exact le_add_right _ _
    refine wp_call (@unmap_one s₂ r vShadow c E true (by decide)
      (by rw [freed_true, ← hof]; exact ho2) (by rw [hpage]; exact (h.shadow_valid hc).1)
      (by rw [hpage]; exact (h.shadow_valid hc).2)) ?_
    rintro _ s₃ ⟨hg3, hl3⟩
    rw [freed_true] at hg3
    refine hcont s₃ _ hof.symm hg3 ?_ ?_ ?_
    · refine hwf2.change hg3.inner fun u hu => ?_
      rw [hl3 u hu]
      split
      · exact .inr (.inl rfl)
      · exact .inl rfl
    · intro u hu hne
      rw [hl3 u hu, if_neg hne]
    · rw [hl3 _ (by decide), if_pos rfl]
      exact not_isValid_zero
  · rw [if_neg hc]
    refine hcont s₂ 0 ?_ (Gave.refl s₂ r) hwf2 (fun _ _ _ => rfl) ?_
    · exact (if_neg fun hh => hc hh.1).symm
    · rw [hlow2 _ le_rfl]
      have := h.shadow
      rwa [if_neg hc] at this

theorem procFreepagetable_panics (h : Space c s r tf sz) (hn : Own c s (s.nodes r))
    (hc : c.shadowStack = true) (h0 : s.shadowPage r = 0) :
    wp (procFreepagetable c r sz) (fun e => e = .kfree) (fun _ _ => False) s := by
  unfold procFreepagetable
  refine wp_unmap_specials h hn ?_
  intro s₂ hg2 hwf2 hl2
  have hpage : s₂.leaf r vShadow = s.leaf r vShadow := by
    rw [hl2 _ (by decide), if_neg (by decide)]
  obtain ⟨hval, hleaf⟩ := h.shadow_valid hc
  rw [← hpage] at hval hleaf
  obtain ⟨q, i, hslot, hpte⟩ := slot_of_valid hval
  have hpa : PTE2PA (s₂.leaf r vShadow) = 0 := by
    rw [hpage]
    exact h0
  rw [if_pos hc, SHADOW_STACK_eq, wp_bind]
  unfold uvmunmap
  rw [if_neg (by simp), show (1 : Nat) = 0 + 1 from rfl]
  unfold unmapLoop
  rw [if_pos (by decide), wp_bind, wp_walk_read (mul_lt_MAXVA (by decide)), vpn_mul, hslot]
  simp only [wp_bind, wp_loadPte]
  rw [hpte, if_neg (by simpa using hval), if_neg (flags_ne_of_isLeaf hleaf), if_pos trivial, wp_bind, hpa]
  unfold kfree
  rw [if_pos (.inr (.inl c.end_pos))]
  rfl

/-! ## `proc_pagetable` -/

theorem missing_special (hval : isValid (s.leaf r vTrampoline)) (hv : v = vTrapframe ∨ v = vShadow) :
    sv39.missing s.pte 2 r v = 0 := by
  obtain ⟨q, i, hslot, -⟩ := slot_of_valid hval
  have hsib : vTrampoline / sv39.fan = v / sv39.fan := by
    rcases hv with rfl | rfl <;> decide
  rw [Radix.missing_eq_zero, ← Radix.slot_sibling hsib, hslot]
  rfl

theorem Space.of_specials {w : Nat} (hwf : Wf s r)
    (hw : if c.shadowStack then ∃ ss, ss % PGSIZE = 0 ∧ ss < 2 ^ 56 ∧ w = mkPte ss PTE_W
      else ¬ isValid w) (hl : ∀ u, u < 512 ^ 3 → s.leaf r u = if u = vShadow then w else
      if u = vTrapframe then mkPte tf (PTE_R ||| PTE_W) else
      if u = vTrampoline then mkPte c.trampoline (PTE_R ||| PTE_X) else 0) :
    Space c s r tf 0 := by
  refine ⟨hwf, ?_, ?_, ?_, ?_, ?_, by decide⟩
  · intro v hv
    exact absurd hv (by rw [show pages 0 = 0 from rfl]; exact Nat.not_lt_zero v)
  · intro v _ hv
    have h1 : vShadow < vTrapframe := by decide
    have h2 : vTrapframe < vTrampoline := by decide
    have h3 : vTrampoline < 512 ^ 3 := by decide
    rw [hl v (by omega), if_neg (by omega), if_neg (by omega), if_neg (by omega)]
    exact not_isValid_zero
  · rw [hl _ (by decide), if_pos rfl]
    exact hw
  · rw [hl _ (by decide), if_neg (by decide), if_pos rfl]
  · rw [hl _ (by decide), if_neg (by decide), if_neg (by decide), if_pos rfl]

/-- What `proc_pagetable` leaves behind when it returns a table. -/
structure NewTable (c : Board) (s s' : Vm) (r tf : Nat) : Prop where
  space : Space c s' r tf 0
  bal : s'.space c r 0 + ↑s'.freelist = (↑s.freelist : Multiset Nat)
  frame : ∀ q, q ∉ s.freelist → s'.mem q = s.mem q
  left : s.freelist.length ≤ s'.freelist.length + 4
  /-- The table is good unless exactly three pages were free. -/
  good : ¬ (c.shadowStack = true ∧ s.freelist.length = 3) →
    s'.oom = s.oom ∧ (c.shadowStack = true →
      IsPage c (s'.shadowPage r) ∧ s'.mem (s'.shadowPage r) = Bytes.fill 5)
  bad : c.shadowStack = true → s.freelist.length = 3 →
    s'.oom = true ∧ s'.freelist = [] ∧ s'.shadowPage r = 0

/-- What `proc_pagetable` does to memory when it returns 0. -/
structure NoTable (s s' : Vm) : Prop where
  free : (↑s'.freelist : Multiset Nat) = ↑s.freelist
  frame : ∀ q, q ∉ s.freelist → s'.mem q = s.mem q
  oom : s'.oom = true

structure Specials (c : Board) (s s' : Vm) (r tf : Nat) : Prop where
  wf : Wf s' r
  nodes : s'.nodes r + ↑s'.freelist = (↑s.freelist : Multiset Nat)
  len : s'.freelist.length + 3 = s.freelist.length
  frame : ∀ q, q ∉ s.freelist → s'.mem q = s.mem q
  oom : s'.oom = s.oom
  leaf : ∀ u, u < 512 ^ 3 → s'.leaf r u =
    if u = vTrapframe then mkPte tf (PTE_R ||| PTE_W) else
    if u = vTrampoline then mkPte c.trampoline (PTE_R ||| PTE_X) else 0

theorem Specials.own (h : Specials c s s' r tf) (ho : Own c s 0) : Own c s' (s'.nodes r) := by
  refine ho.of_eq ?_
  rw [h.nodes, zero_add]

theorem Specials.map_shadow {s₁ s₂ : Vm} {ss : Nat} {Q : Int → Vm → Prop} (h : Specials c s s₁ r tf)
    (hc : c.shadowStack = true) (ho : Own c s₂ (s₂.nodes r))
    (hm : ∀ q ∈ s₁.nodes r, s₂.mem q = s₁.mem q) (hss : ss % PGSIZE = 0) (hss' : ss < 2 ^ 56)
    (hQ : ∀ s', Took s₂ s' r [] → s'.oom = s₂.oom → Space c s' r tf 0 →
      s'.leaf r vShadow = mkPte ss PTE_W → Q 0 s') :
    wp (mappages r SHADOW_STACK 0x1000 ss PTE_W) E Q s₂ := by
  have hl : ∀ v, s₂.leaf r v = s₁.leaf r v := fun v => Vm.leafAt_congr hm
  have hval : isValid (s₂.leaf r vTrampoline) := by
    rw [hl, h.leaf _ (by decide), if_neg (by decide), if_pos rfl]
    exact isValid_mkPte (by decide)
  have hfree : s₂.leaf r vShadow = 0 := by
    rw [hl, h.leaf _ (by decide), if_neg (by decide), if_neg (by decide)]
  rw [SHADOW_STACK_eq]
  refine mappage_spec ho (by decide) (hss'.trans (by decide)) (by decide)
    (by rw [hfree]; exact not_isValid_zero) ?_ ?_
  · intro s' new _ _ _ hlen _
    rw [missing_special hval (.inr rfl)] at hlen
    exact absurd hlen (Nat.not_lt_zero _)
  · intro s' new ht hoom hlen hl'
    rw [missing_special hval (.inr rfl)] at hlen
    obtain rfl := List.length_eq_zero_iff.mp hlen
    have hwf : Wf s' r := by
      refine (h.wf.congr hm).change ht.inner fun u hu => ?_
      rw [hl' u hu]
      by_cases hus : u = vShadow
      · rw [if_pos hus]
        refine .inr (.inr ⟨isValid_mkPte (by decide), (isLeaf_mkPte (by decide)).mpr (by decide), ?_⟩)
        rw [hus]
        decide
      · rw [if_neg hus]
        exact .inl rfl
    refine hQ s' ht hoom (Space.of_specials (w := mkPte ss PTE_W) hwf ?_ ?_) ?_
    · rw [if_pos hc]
      exact ⟨ss, hss, hss', rfl⟩
    · intro u hu
      rw [hl' u hu, hl, h.leaf u hu]
    · rw [hl' _ (by decide), if_pos rfl]

theorem fresh_table {a : Nat} {rest : List Nat} (ho : Own c s 0) (hf : s.freelist = a :: rest)
    (hz : s'.mem a = Bytes.fill 0) (hf' : s'.freelist = rest) :
    Wf s' a ∧ s'.nodes a = {a} ∧ Own c s' (s'.nodes a) ∧ (∀ v, s'.leaf a v = 0) ∧
      ∀ v, sv39.missing s'.pte 2 a v = 2 := by
  have hn : s'.nodes a = {a} := Radix.nodes_of_empty fun i _ => Vm.child_of_zero hz
  refine ⟨wf_of_zero hz, hn, ?_, fun v => Vm.leafAt_of_zero hz, fun v => ?_⟩
  · refine ho.of_eq ?_
    rw [hn, hf, hf', zero_add]
    rfl
  · exact Radix.missing_of_empty (fun i _ => Vm.child_of_zero hz) fan_pos v

theorem wp_specials {f : Nat → K Nat} {Q : Nat → Vm → Prop} (ho : Own c s 0) (htf : IsPage c tf)
    (hfail : ∀ s', s.freelist.length < 3 → NoTable s s' → Q 0 s')
    (hok : ∀ r s', r ≠ 0 → Specials c s s' r tf → wp (f r) E Q s') :
    wp (do
      let pagetable ← uvmcreate
      if pagetable = 0 then pure 0
      else do
        let r ← mappages pagetable TRAMPOLINE PGSIZE c.trampoline (PTE_R ||| PTE_X)
        if r < 0 then do
          uvmfree c pagetable 0
          pure 0
        else do
          let r ← mappages pagetable TRAPFRAME PGSIZE tf (PTE_R ||| PTE_W)
          if r < 0 then do
            uvmunmap c pagetable TRAMPOLINE 1 false
            uvmfree c pagetable 0
            pure 0
          else f pagetable) E Q s := by
  unfold uvmcreate
  simp only [wp_bind]
  cases hf : s.freelist with
  | nil =>
    rw [wp_kalloc_nil hf]
    exact hfail _ (by rw [hf]; decide) ⟨rfl, fun _ _ => rfl, rfl⟩
  | cons a rest =>
    have ha : IsPage c a := ho.free_isPage (hf ▸ List.mem_cons_self)
    rw [wp_kalloc_cons hf, if_neg ha.pos]
    simp only [wp_bind, wp_memset, wp_pure]
    rw [if_neg ha.pos]
    obtain ⟨hwf1, hn1, ho1, hl1, hmiss⟩ :=
      @fresh_table s ((s.take a rest).put a (Bytes.fill 0)) c a rest ho hf Vm.put_mem_self rfl
    have hframe1 : ∀ q, q ≠ a → ((s.take a rest).put a (Bytes.fill 0)).mem q = s.mem q := by
      intro q hq
      rw [Vm.put_mem_of_ne hq, Vm.take_mem_of_ne hq]
    generalize hs1 : (s.take a rest).put a (Bytes.fill 0) = s₁ at *
    have hf1 : s₁.freelist = rest := by rw [← hs1]; rfl
    have hoom1 : s₁.oom = s.oom := by rw [← hs1]; rfl
    -- every page of the new table was free
    have hframe : ∀ {s' : Vm} {new : List Nat}, Took s₁ s' a new →
        ∀ q, q ∉ s.freelist → s'.mem q = s.mem q := by
      intro s' new ht q hq
      rw [hf, List.mem_cons, not_or] at hq
      rw [ht.frame q (by rw [hn1, mem_singleton]; exact hq.1) fun hm =>
        hq.2 (by rw [← hf1, ht.free]; exact List.mem_append_left _ hm), hframe1 q hq.1]
    have hbal : ∀ {s' : Vm} {new : List Nat}, Took s₁ s' a new →
        s'.nodes a + ↑s'.freelist = (↑s.freelist : Multiset Nat) := by
      intro s' new ht
      rw [ht.nodes, hn1, hf, ← hf1, ht.free, ← cons_coe, ← coe_add,
        ← singleton_add, add_assoc]
    have htr : c.trampoline < 2 ^ 62 := Nat.lt_of_lt_of_le c.trampoline_lt
      (c.kernelEnd_le.trans (by decide))
    rw [wp_bind, TRAMPOLINE_eq]
    refine mappage_spec ho1 (by decide) htr (by decide) (by rw [hl1]; exact not_isValid_zero) ?_ ?_
    · intro s₂ new ht hnil hoom hlen hl
      rw [hmiss] at hlen
      rw [if_pos (by decide), wp_bind]
      have hlen' : rest.length < 2 := by
        have := ht.len
        rw [hnil, hf1] at this
        simp only [List.length_nil, Nat.zero_add] at this
        omega
      have hwf2 : Wf s₂ a := hwf1.change ht.inner fun u hu => .inl (hl u hu)
      have ho2 : Own c s₂ (s₂.nodes a) := by
        have := ht.own (X := 0) (c := c) (by rw [add_zero]; exact ho1)
        rwa [add_zero] at this
      refine wp_mono (@uvmfree_spec s₂ a 0 c E hwf2 (by decide) ?_ ?_ ?_) ?_
      · rw [show pages 0 = 0 from rfl, targets_zero, add_zero]
        exact ho2
      · intro u hu
        exact absurd hu (Nat.not_lt_zero u)
      · intro u _ hu
        rw [hl u hu, hl1]
        exact not_isValid_zero
      · intro _ s₃ hfr
        rw [show pages 0 = 0 from rfl, targets_zero, add_zero] at hfr
        refine hfail s₃ (by rw [hf]; simp only [List.length_cons]; omega) ⟨?_, ?_, ?_⟩
        · rw [hfr.free]
          exact hbal ht
        · intro q hq
          rw [hfr.frame q ?_, hframe ht q hq]
          intro hm
          have := mem_add.mpr (.inl hm : q ∈ s₂.nodes a ∨ q ∈ (↑s₂.freelist : Multiset Nat))
          rw [hbal ht] at this
          exact hq this
        · rw [hfr.oom]
          exact hoom
    · intro s₂ new ht hoom hlen hl
      rw [hmiss] at hlen
      rw [if_neg (by decide), wp_bind, TRAPFRAME_eq]
      have ho2 : Own c s₂ (s₂.nodes a) := by
        have := ht.own (X := 0) (c := c) (by rw [add_zero]; exact ho1)
        rwa [add_zero] at this
      have hval : isValid (s₂.leaf a vTrampoline) := by
        rw [hl _ (by decide), if_pos rfl]
        exact isValid_mkPte (by decide)
      refine mappage_spec ho2 (by decide) (htf.lt.trans (by decide)) (by decide) ?_ ?_ ?_
      · rw [hl _ (by decide), if_neg (by decide), hl1]
        exact not_isValid_zero
      · intro s₃ new' _ _ _ hlen' _
        rw [missing_special hval (.inl rfl)] at hlen'
        exact absurd hlen' (Nat.not_lt_zero _)
      · intro s₃ new' ht' hoom' hlen' hl'
        rw [missing_special hval (.inl rfl)] at hlen'
        rw [if_neg (by decide)]
        have ht13 := ht.trans ht'
        refine hok a s₃ ha.pos ⟨?_, hbal ht13, ?_, hframe ht13, ?_, ?_⟩
        · refine hwf1.change ht13.inner fun u hu => ?_
          rw [hl' u hu, hl u hu]
          by_cases h1 : u = vTrapframe
          · rw [if_pos h1]
            refine .inr (.inr ⟨isValid_mkPte (by decide), (isLeaf_mkPte (by decide)).mpr (by decide), ?_⟩)
            rw [h1]
            decide
          · by_cases h2 : u = vTrampoline
            · rw [if_neg h1, if_pos h2]
              refine .inr (.inr ⟨isValid_mkPte (by decide),
                (isLeaf_mkPte (by decide)).mpr (by decide), ?_⟩)
              rw [h2]
              decide
            · rw [if_neg h1, if_neg h2]
              exact .inl rfl
        · have := ht13.len
          rw [List.length_append, hlen, hlen', hf1] at this
          rw [hf, List.length_cons]
          omega
        · rw [hoom', hoom, hoom1]
        · intro u hu
          rw [hl' u hu, hl u hu, hl1]

/-- **`proc_pagetable`**, by the number of free pages. -/
theorem procPagetable_spec (ho : Own c s 0) (htf : IsPage c tf) :
    wp (procPagetable c tf) E (fun r s' => (s.freelist.length < 3 ∧ r = 0 ∧ NoTable s s') ∨
      (3 ≤ s.freelist.length ∧ r ≠ 0 ∧ NewTable c s s' r tf)) s := by
  unfold procPagetable
  refine wp_specials (f := fun r => if c.shadowStack then _ else _) ho htf ?_ ?_
  · intro s' hlen h
    exact .inl ⟨hlen, rfl, h⟩
  · intro r s₁ hr h
    have hlen : 3 ≤ s.freelist.length := by
      have := h.len
      omega
    have ho1 := h.own ho
    have ht0 : ∀ s' : Vm, s'.targets r 0 (pages 0) = 0 := fun s' => by
      rw [show pages 0 = 0 from rfl, targets_zero]
    by_cases hc : c.shadowStack = true
    · rw [if_pos hc, wp_bind]
      cases hf : s₁.freelist with
      | nil =>
        -- three pages were free: physical page 0 becomes the shadow stack
        rw [wp_kalloc_nil hf, wp_bind]
        have hlen3 : s.freelist.length = 3 := by
          rw [← h.len, hf]
          rfl
        have hnodes : ({ s₁ with oom := true } : Vm).nodes r = s₁.nodes r := rfl
        refine h.map_shadow hc (ho1.of_eq (by rw [hnodes])) (fun _ _ => rfl) rfl (by decide) ?_
        intro s' ht hoom hsp hleaf
        rw [if_neg (by decide), wp_pure]
        have hfree' : s'.freelist = [] := by
          have := ht.free
          simp only [hf, List.nil_append] at this
          exact this.symm
        have hsh : s'.shadowPage r = 0 := by
          unfold Vm.shadowPage
          rw [hleaf]
          decide
        refine .inr ⟨hlen, hr, hsp, ?_, ?_, by omega, ?_, fun _ _ => ⟨hoom, hfree', hsh⟩⟩
        · unfold Vm.space Vm.user Vm.shadowOf
          rw [ht0, if_neg fun hh => hh.2 hsh, ht.nodes, hnodes, hfree', ← h.nodes, hf]
          simp
        · intro q hq
          rw [ht.frame q ?_ List.not_mem_nil]
          · exact h.frame q hq
          · rw [hnodes]
            intro hm
            have := mem_add.mpr (.inl hm : q ∈ s₁.nodes r ∨ q ∈ (↑s₁.freelist : Multiset Nat))
            rw [h.nodes] at this
            exact hq this
        · exact fun hn => absurd ⟨hc, hlen3⟩ hn
      | cons b rest =>
        rw [wp_kalloc_cons hf, wp_bind]
        have hb : IsPage c b := ho1.free_isPage (hf ▸ List.mem_cons_self)
        have hbn : ∀ q ∈ s₁.nodes r, q ≠ b := by
          rintro q hq rfl
          exact ho1.not_free hq (hf ▸ List.mem_cons_self)
        have hm : ∀ q ∈ s₁.nodes r, (s₁.take b rest).mem q = s₁.mem q := fun q hq =>
          Vm.take_mem_of_ne (hbn q hq)
        have hnodes : (s₁.take b rest).nodes r = s₁.nodes r := Vm.nodesAt_congr hm
        have ho2 : Own c (s₁.take b rest) ((s₁.take b rest).nodes r) := by
          refine ho1.mono ?_
          rw [hnodes, hf]
          exact add_le_add_right (le_cons_self _ _) _
        have hne3 : s.freelist.length ≠ 3 := by
          rw [← h.len, hf, List.length_cons]
          omega
        refine h.map_shadow hc ho2 hm hb.1 hb.lt ?_
        intro s' ht hoom hsp hleaf
        rw [if_neg (by decide), wp_pure]
        have hfree' : s'.freelist = rest := ht.free.symm
        have hsh : s'.shadowPage r = b := by
          unfold Vm.shadowPage
          rw [hleaf]
          exact PTE2PA_mkPte (by decide) (hb.lt.trans (by decide)) hb.1
        have hof : s'.shadowOf c r = {b} := by
          unfold Vm.shadowOf
          rw [hsh, if_pos ⟨hc, hb.pos⟩]
        have hleft : s.freelist.length ≤ s'.freelist.length + 4 := by
          rw [← h.len, hf, hfree', List.length_cons]
        refine .inr ⟨hlen, hr, hsp, ?_, ?_, hleft, fun _ => ⟨hoom.trans h.oom, fun _ => ⟨?_, ?_⟩⟩,
          fun _ h3 => absurd h3 hne3⟩
        · unfold Vm.space Vm.user
          rw [ht0, hof, ht.nodes, hnodes, hfree', ← h.nodes, hf, ← cons_coe,
            ← singleton_add, zero_add, coe_nil, add_zero, add_assoc]
        · intro q hq
          have hq' : q ∉ s₁.nodes r + (↑s₁.freelist : Multiset Nat) := by
            rw [h.nodes]
            exact hq
          rw [mem_add, not_or] at hq'
          rw [ht.frame q (by rw [hnodes]; exact hq'.1) List.not_mem_nil, Vm.take_mem_of_ne ?_,
            h.frame q hq]
          rintro rfl
          exact hq'.2 (hf ▸ List.mem_cons_self)
        · rw [hsh]
          exact hb
        · rw [hsh, ht.frame b ?_ List.not_mem_nil]
          · exact Function.update_self ..
          · rw [hnodes]
            exact fun hm => hbn b hm rfl
    · rw [if_neg hc, wp_pure]
      have hof : s₁.shadowOf c r = 0 := if_neg fun hh => hc hh.1
      refine .inr ⟨hlen, hr, ?_, ?_, h.frame, (by have := h.len; omega),
        fun _ => ⟨h.oom, fun hh => absurd hh hc⟩, fun hh => absurd hh hc⟩
      · refine Space.of_specials (w := 0) h.wf ?_ ?_
        · rw [if_neg hc]
          exact not_isValid_zero
        · intro u hu
          rw [h.leaf u hu]
          by_cases hus : u = vShadow
          · rw [if_pos hus, hus, if_neg (by decide), if_neg (by decide)]
          · rw [if_neg hus]
      · unfold Vm.space Vm.user
        rw [ht0, hof, add_zero, add_zero, h.nodes]

end ZeptOS.Mem
