import ZeptOS.Mem.Space

/-!
# What the system calls do to an address space

`uvmalloc`, `uvmdealloc`, `uvmcopy`, `copyout` and the loading half of `exec`, each as a
change of a `Space`: of its size, of the pages it owns, and of nothing outside it. Here
the bound on physical memory is used: there are fewer pages than virtual pages below
`SHADOW_STACK`, so a process runs out of memory before it runs into its special pages.
-/

namespace ZeptOS.Mem

open Lib Lib.Prog Multiset

variable {c : Board} {s s' s'' : Vm} {U X : Multiset Nat} {q r u sz tf sz' newsz : Nat}
  {E : Panic → Prop}

/-! ## Physical memory is smaller than user memory -/

theorem Own.card_lt {A : Multiset Nat} (h : Own c s A) : card A + s.freelist.length < vShadow := by
  have hsub : ((A + ↑s.freelist).toFinset.image fun q => q / PGSIZE) ⊆
      Finset.Ico (KERNBASE / PGSIZE) (MAXVA / PGSIZE) := by
    intro k hk
    obtain ⟨q, hq, rfl⟩ := Finset.mem_image.mp hk
    obtain ⟨-, hlo, hhi⟩ := h.page q (mem_toFinset.mp hq)
    have h1 := c.kernbase_le
    have h2 := c.trampoline_lt
    have h3 := c.ramEnd_le
    rw [Finset.mem_Ico]
    refine ⟨Nat.div_le_div_right (by omega), ?_⟩
    rw [Nat.div_lt_iff_lt_mul (by decide)]
    exact hhi.trans_le (h3.trans (by decide))
  have hinj : Set.InjOn (fun q => q / PGSIZE) ((A + ↑s.freelist).toFinset : Set Nat) := by
    intro p hp q hq hpq
    have hp' := (h.page p (mem_toFinset.mp hp)).1
    have hq' := (h.page q (mem_toFinset.mp hq)).1
    rw [← Nat.div_add_mod p PGSIZE, ← Nat.div_add_mod q PGSIZE, hp', hq']
    exact congrArg (fun k => PGSIZE * k + 0) hpq
  have hcard := Finset.card_le_card hsub
  rw [Finset.card_image_of_injOn hinj, Nat.card_Ico,
    toFinset_card_of_nodup h.nodup, card_add, coe_card] at hcard
  exact hcard.trans_lt (by decide)

section
variable {U' : Multiset Nat}

theorem targets_add {v n m : Nat} :
    s.targets r v (n + m) = s.targets r v n + s.targets r (v + n) m := by
  induction m with
  | zero => rw [targets_zero, Nat.add_zero, add_zero]
  | succ m ih => rw [← Nat.add_assoc, targets_succ, ih, targets_succ, add_cons, Nat.add_assoc]

theorem card_user : card (s.user c r sz) = pages sz + card (s.shadowOf c r) := by
  unfold Vm.user
  rw [card_add, card_targets]

theorem Own.pages_lt (h : Own c s (s.space c r sz)) : pages sz + s.freelist.length < vShadow := by
  have := h.card_lt
  unfold Vm.space at this
  rw [card_add, card_user] at this
  omega

theorem Upd.add (h : Upd s s' r U U') (Y : Multiset Nat) : Upd s s' r (U + Y) (U' + Y) where
  bal := by
    rw [← add_assoc, ← add_assoc, add_right_comm, h.bal, add_right_comm]
  frame q hq := h.frame q fun hm => hq (by
    rcases mem_add.mp hm with hm | hm
    · rw [← add_assoc]
      exact subset_add_left (subset_add_left hm)
    · exact subset_add_right hm)
  inner := h.inner
  grow := h.grow

theorem Space.same (h : Space c s r tf sz) (hu : Upd s s' r 0 0)
    (hl : ∀ u, u < 512 ^ 3 → s'.leaf r u = s.leaf r u) :
    Space c s' r tf sz ∧ Upd s s' r (s.user c r sz) (s'.user c r sz) := by
  have hlt : vTrampoline < 512 ^ 3 := by decide
  refine ⟨⟨h.wf.change hu.inner fun u hu' => .inl (hl u hu'), ?_, ?_, ?_, ?_, ?_, h.size⟩, ?_⟩
  · intro v hv
    rw [hl v (Nat.lt_trans (hv.trans_le h.size) (by decide))]
    exact h.low v hv
  · intro v hv hv'
    rw [hl v (hv'.trans (by decide))]
    exact h.gap v hv hv'
  · rw [hl _ (by decide)]
    exact h.shadow
  · rw [hl _ (by decide)]
    exact h.trapframe
  · rw [hl _ (by decide)]
    exact h.trampoline
  · rw [user_congr hl h.size]
    have := hu.add (s.user c r sz)
    rwa [zero_add] at this

theorem Space.resize (h : Space c s r tf sz) (hin : s.innerAt 2 r → s'.innerAt 2 r)
    (hsz : pages sz' ≤ vShadow)
    (hlow : ∀ u, u < pages sz' → isValid (s'.leaf r u) ∧ isLeaf (s'.leaf r u))
    (hgap : ∀ u, pages sz' ≤ u → u < vShadow → s'.leaf r u = 0)
    (hhigh : ∀ u, vShadow ≤ u → u < 512 ^ 3 → s'.leaf r u = s.leaf r u) : Space c s' r tf sz' := by
  refine ⟨?_, fun v hv => (hlow v hv).1, ?_, ?_, ?_, ?_, hsz⟩
  · refine h.wf.change hin fun u hu => ?_
    by_cases h1 : u < pages sz'
    · exact .inr (.inr ⟨(hlow u h1).1, (hlow u h1).2,
        Nat.lt_of_lt_of_le (h1.trans_le hsz) (by decide)⟩)
    · by_cases h2 : u < vShadow
      · exact .inr (.inl (hgap u (by omega) h2))
      · exact .inl (hhigh u (by omega) hu)
  · intro v hv hv'
    rw [hgap v hv hv']
    exact not_isValid_zero
  · rw [hhigh _ le_rfl (by decide)]
    exact h.shadow
  · rw [hhigh _ (by decide) (by decide)]
    exact h.trapframe
  · rw [hhigh _ (by decide) (by decide)]
    exact h.trampoline

theorem shadowOf_congr (hl : s'.leaf r vShadow = s.leaf r vShadow) :
    s'.shadowOf c r = s.shadowOf c r := by
  unfold Vm.shadowOf Vm.shadowPage
  rw [hl]

theorem Space.zero_above (h : Space c s r tf sz) (h1 : pages sz ≤ u) (h2 : u < vShadow) :
    s.leaf r u = 0 :=
  h.wf.zero u (h2.trans (by decide)) (h.gap u h1 h2)

theorem Space.low_leaf (h : Space c s r tf sz) (hu : u < pages sz) :
    isValid (s.leaf r u) ∧ isLeaf (s.leaf r u) :=
  ⟨h.low u hu, (h.wf.leaf u (Nat.lt_trans (hu.trans_le h.size) (by decide)) (h.low u hu)).1⟩

end

/-! ## A change of an address space -/

/-- The table at `r` has become one of another size, and nothing else has changed but the
    free list. -/
structure Became (c : Board) (s s' : Vm) (r tf sz sz' : Nat) : Prop where
  space : Space c s' r tf sz'
  upd : Upd s s' r (s.user c r sz) (s'.user c r sz')
  shadow : s'.leaf r vShadow = s.leaf r vShadow

section
variable {n : Nat} {perm : Nat → Nat} {data : Nat → Page}

theorem Filled.became (h : Space c s r tf sz)
    (hf : Filled c s s' r (pages sz) (pages sz) (pages sz') perm data) (ho : Own c s (s.nodes r + (s.user c r sz + X)))
    (hle : pages sz ≤ pages sz') (hsz : pages sz' ≤ vShadow)
    (hperm : ∀ u, u < pages sz' → perm u < 1024 ∧ isLeaf (perm u)) :
    Became c s s' r tf sz sz' ∧ ∀ q ∈ s.user c r sz, s'.mem q = s.mem q := by
  have hlt : vShadow < 512 ^ 3 := by decide
  have hu := hf.upd_start hle
  have hold : ∀ u, u < 512 ^ 3 → ¬ (pages sz ≤ u ∧ u < pages sz') → s'.leaf r u = s.leaf r u := by
    intro u hu hne
    have := hf.leaf u hu
    rwa [if_neg hne] at this
  refine ⟨⟨h.resize hu.inner hsz (fun u hu' => ?_) (fun u h1 h2 => ?_) (fun u h1 h2 => ?_), ?_,
    hold _ hlt (by omega)⟩, fun q hq => ?_⟩
  · by_cases h1 : pages sz ≤ u
    · have hnew := hf.leaf u (by omega)
      rw [if_pos ⟨h1, hu'⟩] at hnew
      obtain ⟨pa, -, he, -⟩ := hnew
      obtain ⟨hp, hl⟩ := hperm u hu'
      rw [he]
      exact ⟨isValid_mkPte hp, (isLeaf_mkPte hp).mpr hl⟩
    · rw [hold u (by omega) fun hh => h1 hh.1]
      exact h.low_leaf (by omega)
  · rw [hold u (by omega) (by omega)]
    exact h.zero_above (by omega) h2
  · exact hold u h2 (by omega)
  · have huser : s'.user c r sz' = s'.targets r (pages sz) (pages sz' - pages sz) + s.user c r sz := by
      unfold Vm.user
      rw [shadowOf_congr (hold _ hlt (by omega)), show pages sz' = pages sz + (pages sz' - pages sz) by omega,
        targets_add, Nat.zero_add, show pages sz + (pages sz' - pages sz) - pages sz =
          pages sz' - pages sz by omega,
        targets_congr (s := s) (r := r) (v := 0) fun k hk => hold _ (by omega) (by omega)]
      abel
    have := hu.add (s.user c r sz)
    rwa [zero_add, ← huser] at this
  · refine hu.mem_of_own (X := s.user c r sz + X) (c := c) ?_ (subset_add_left hq)
    rwa [add_zero]

theorem RolledBack.became {k : Nat} (hr : RolledBack s s' r k k n) (h : Space c s r tf sz) :
    Became c s s' r tf sz sz := by
  obtain ⟨hsp, hupd⟩ := h.same hr.upd_start hr.leaf_start
  exact ⟨hsp, hupd, hr.leaf_start _ (by decide)⟩

end

/-! ## `uvmalloc` and `uvmdealloc` -/

inductive Grew (c : Board) (s s' : Vm) (r tf sz newsz perm : Nat) : Nat → Prop where
  | ok (space : Space c s' r tf (max sz newsz))
      (upd : Upd s s' r (s.user c r sz) (s'.user c r (max sz newsz)))
      (oom : s'.oom = s.oom)
      (new : ∀ u, pages sz ≤ u → u < pages newsz →
        ∃ pa, IsPage c pa ∧ s'.leaf r u = mkPte pa perm ∧ s'.mem pa = Bytes.fill 0)
      (old : ∀ u, u < 512 ^ 3 → ¬ (pages sz ≤ u ∧ u < pages newsz) → s'.leaf r u = s.leaf r u)
      (kept : ∀ q ∈ s.user c r sz, s'.mem q = s.mem q)
      (took : s.freelist.length ≤ s'.freelist.length + 3 * (pages newsz - pages sz)) :
      Grew c s s' r tf sz newsz perm (max sz newsz)
  | fail (space : Space c s' r tf sz) (upd : Upd s s' r (s.user c r sz) (s'.user c r sz))
      (oom : s'.oom = true) (old : ∀ u, u < 512 ^ 3 → s'.leaf r u = s.leaf r u) (le : sz ≤ newsz)
      (few : s.freelist.length < 3 * (pages newsz - pages sz)) :
      Grew c s s' r tf sz newsz perm 0

section
variable {xperm : Nat}

theorem Space.grow (h : Space c s r tf sz) (ho : Own c s (s.space c r sz)) (hx : xperm < 1024) :
    wp (uvmalloc c r sz newsz xperm) E
      (fun res s' => Grew c s s' r tf sz newsz (PTE_R ||| PTE_U ||| xperm) res) s := by
  have hlen := ho.pages_lt
  refine wp_mono (uvmalloc_spec hx (by decide) hlen ho h.wf fun u h1 h2 => h.gap u h1 h2) ?_
  rintro res s' (⟨hlt, rfl, rfl⟩ | ⟨hle, ⟨rfl, hf⟩ | ⟨rfl, hr⟩⟩)
  · have hmax : max res newsz = res := Nat.max_eq_left (Nat.le_of_lt hlt)
    have hp := pages_mono (Nat.le_of_lt hlt)
    have hgrew : Grew c s' s' r tf res newsz (PTE_R ||| PTE_U ||| xperm) (max res newsz) :=
      .ok (by rw [hmax]; exact h) (by rw [hmax]; exact Upd.refl _ _ _) rfl
        (fun u h1 h2 => by omega) (fun _ _ _ => rfl) (fun _ _ => rfl) (Nat.le_add_right _ _)
    rwa [hmax] at hgrew
  · have hmax : max sz res = res := Nat.max_eq_right hle
    have hp := pages_mono hle
    have hu := hf.upd_start hp
    -- the new pages were free, and there are not enough to reach the special pages
    have hsz' : pages res ≤ vShadow := by
      have hc := congrArg card hu.bal
      have hg := card_le_card hu.grow
      simp only [card_add, card_targets, coe_card, card_zero] at hc
      omega
    have hlt : vShadow < 512 ^ 3 := by decide
    obtain ⟨hb, hkept⟩ := hf.became (X := 0) h (by rw [add_zero]; exact ho) hp hsz' fun u _ =>
      ⟨uvm_perm_lt hx, uvm_perm_leaf _⟩
    have hgrew : Grew c s s' r tf sz res (PTE_R ||| PTE_U ||| xperm) (max sz res) := by
      refine .ok (by rw [hmax]; exact hb.space) (by rw [hmax]; exact hb.upd) hf.oom
        (fun u h1 h2 => ?_) (fun u hu hne => ?_) hkept hf.len
      · have := hf.leaf u (by omega)
        rwa [if_pos ⟨h1, h2⟩] at this
      · have := hf.leaf u hu
        rwa [if_neg hne] at this
    rwa [hmax] at hgrew
  · obtain ⟨hsp, hupd, -⟩ := hr.became h
    exact .fail hsp hupd hr.oom hr.leaf_start hle hr.few

theorem Space.shrink (h : Space c s r tf sz) (ho : Own c s (s.space c r sz)) :
    wp (uvmdealloc c r sz newsz) E (fun res s' => res = min sz newsz ∧ s'.oom = s.oom ∧
      Space c s' r tf res ∧ Upd s s' r (s.user c r sz) (s'.user c r res) ∧
      ∀ u, u < 512 ^ 3 → ¬ (pages newsz ≤ u ∧ u < pages sz) → s'.leaf r u = s.leaf r u) s := by
  have hlt : vShadow < 512 ^ 3 := by decide
  have hsz := h.size
  have hsplit : s.user c r sz = s.targets r 0 (pages (min sz newsz)) + s.shadowOf c r +
      s.targets r (pages newsz) (pages sz - pages newsz) := by
    unfold Vm.user
    by_cases hle : sz ≤ newsz
    · have hp := pages_mono hle
      rw [Nat.min_eq_left hle, show pages sz - pages newsz = 0 by omega, targets_zero, add_zero]
    · have hp := pages_mono (Nat.le_of_not_le hle)
      rw [Nat.min_eq_right (Nat.le_of_not_le hle), add_right_comm]
      refine congrArg (· + s.shadowOf c r) ?_
      rw [show pages sz = pages newsz + (pages sz - pages newsz) by omega, targets_add, Nat.zero_add,
        show pages newsz + (pages sz - pages newsz) - pages newsz = pages sz - pages newsz by omega]
  have hmin : pages (min sz newsz) ≤ pages sz := pages_mono (Nat.min_le_left _ _)
  have hmin' : pages (min sz newsz) = min (pages sz) (pages newsz) := by
    rcases Nat.le_total sz newsz with hle | hle
    · rw [Nat.min_eq_left hle, Nat.min_eq_left (pages_mono hle)]
    · rw [Nat.min_eq_right hle, Nat.min_eq_right (pages_mono hle)]
  refine wp_mono (uvmdealloc_spec (c := c) (hsz.trans (by decide)) ?_ fun u h1 h2 =>
    h.low_leaf h2) ?_
  · refine ho.mono (add_le_add_left ?_ _)
    unfold Vm.space
    rw [hsplit]
    exact add_le_add_right (le_add_left _ _) _
  · rintro res s' ⟨rfl, hg, hl⟩
    have hold : ∀ u, u < 512 ^ 3 → ¬ (pages newsz ≤ u ∧ u < pages sz) → s'.leaf r u = s.leaf r u := by
      intro u hu hne
      rw [hl u hu, if_neg hne]
    refine ⟨rfl, hg.oom, ?_, ?_, hold⟩
    · refine h.resize hg.inner (by omega) ?_ ?_ ?_
      · intro u hu
        rw [hold u (by omega) (by omega)]
        exact h.low_leaf (by omega)
      · intro u h1 h2
        rw [hl u (by omega)]
        split
        · rfl
        · exact h.zero_above (by omega) h2
      · intro u h1 h2
        exact hold u h2 (by omega)
    · have huser : s'.user c r (min sz newsz) =
          s.targets r 0 (pages (min sz newsz)) + s.shadowOf c r := by
        unfold Vm.user
        rw [shadowOf_congr (hold _ hlt (by omega)),
          targets_congr (s := s) (r := r) (v := 0) fun k hk => hold _ (by omega) (by omega)]
      rw [hsplit, huser]
      exact hg.upd _

end

section
variable {sz'' : Nat}

theorem Became.refl (h : Space c s r tf sz) : Became c s s r tf sz sz := ⟨h, Upd.refl _ _ _, rfl⟩

theorem Became.trans (h : Became c s s' r tf sz sz') (h' : Became c s' s'' r tf sz' sz'') :
    Became c s s'' r tf sz sz'' :=
  ⟨h'.space, h.upd.trans h'.upd, h'.shadow.trans h.shadow⟩

theorem Became.own (h : Became c s s' r tf sz sz') (ho : Own c s (s.space c r sz + X)) :
    Own c s' (s'.space c r sz' + X) := h.upd.own ho

theorem Became.own' (h : Became c s s' r tf sz sz') (ho : Own c s (s.space c r sz)) :
    Own c s' (s'.space c r sz') := by
  have := h.own (X := 0) (by rw [add_zero]; exact ho)
  rwa [add_zero] at this

theorem Became.bal (h : Became c s s' r tf sz sz') :
    s'.space c r sz' + ↑s'.freelist = s.space c r sz + (↑s.freelist : Multiset Nat) := h.upd.bal

theorem Became.shadowPage (h : Became c s s' r tf sz sz') : s'.shadowPage r = s.shadowPage r := by
  unfold Vm.shadowPage
  rw [h.shadow]

theorem Became.pages_le (h : Became c s s' r tf sz sz') :
    pages sz' + s'.freelist.length ≤ pages sz + s.freelist.length := by
  have hc := congrArg card h.upd.bal
  have hg := card_le_card h.upd.grow
  rw [card_add, card_add, card_add, card_add, card_user, card_user,
    shadowOf_congr h.shadow, coe_card, coe_card] at hc
  omega

theorem Became.resize (h : Became c s s' r tf sz sz') (hp : pages sz'' = pages sz') :
    Became c s s' r tf sz sz'' := by
  refine ⟨⟨h.space.wf, ?_, ?_, h.space.shadow, h.space.trapframe, h.space.trampoline, ?_⟩, ?_, h.shadow⟩
  · rw [hp]; exact h.space.low
  · rw [hp]; exact h.space.gap
  · rw [hp]; exact h.space.size
  · have hu : s'.user c r sz'' = s'.user c r sz' := by
      unfold Vm.user
      rw [hp]
    rw [hu]
    exact h.upd

theorem Grew.became {perm res : Nat} (h : Grew c s s' r tf sz newsz perm res) :
    Became c s s' r tf sz (if res = 0 then sz else res) := by
  cases h with
  | ok space upd oom new old kept took =>
    have hvs : ¬ (pages sz ≤ vShadow ∧ vShadow < pages newsz) := by
      intro hh
      have := space.size
      have := pages_mono (Nat.le_max_right sz newsz)
      omega
    have hb : Became c s s' r tf sz (max sz newsz) := ⟨space, upd, old _ (by decide) hvs⟩
    by_cases h0 : max sz newsz = 0
    · rw [if_pos h0]
      rw [show max sz newsz = sz by omega] at hb
      exact hb
    · rw [if_neg h0]
      exact hb
  | fail space upd oom old le few =>
    rw [if_pos rfl]
    exact ⟨space, upd, old _ (by decide)⟩

end

/-! ## Writing to user memory -/

structure Wrote (s s' : Vm) (U : Multiset Nat) : Prop where
  free : s'.freelist = s.freelist
  oom : s'.oom = s.oom
  frame : ∀ q, q ∉ U → s'.mem q = s.mem q

section
variable {v : Nat}

theorem Wrote.refl (s : Vm) (U : Multiset Nat) : Wrote s s U := ⟨rfl, rfl, fun _ _ => rfl⟩

theorem Wrote.trans (h : Wrote s s' U) (h' : Wrote s' s'' U) : Wrote s s'' U :=
  ⟨h'.free.trans h.free, h'.oom.trans h.oom, fun q hq => (h'.frame q hq).trans (h.frame q hq)⟩

theorem wrote_put {pg : Page} (hq : q ∈ U) : Wrote s (s.put q pg) U := by
  refine ⟨rfl, rfl, fun p hp => Vm.put_mem_of_ne ?_⟩
  rintro rfl
  exact hp hq

theorem Wrote.nodes (h : Wrote s s' (s.user c r sz)) (ho : Own c s (s.space c r sz))
    (hq : q ∈ s.nodes r) : s'.mem q = s.mem q := h.frame q (ho.disjoint hq)

theorem Wrote.became (h : Wrote s s' (s.user c r sz)) (hs : Space c s r tf sz)
    (ho : Own c s (s.space c r sz)) : Became c s s' r tf sz sz := by
  have hn : ∀ q ∈ s.nodes r, s'.mem q = s.mem q := fun _ hq => h.nodes ho hq
  have hl : ∀ u, s'.leaf r u = s.leaf r u := fun u => Vm.leafAt_congr hn
  refine ⟨(hs.congr hn).1, ?_, hl _⟩
  rw [user_congr (fun u _ => hl u) hs.size]
  exact upd_write h.free h.frame hn

theorem Wrote.leaf (h : Wrote s s' (s.user c r sz)) (ho : Own c s (s.space c r sz)) (u : Nat) :
    s'.leaf r u = s.leaf r u := Vm.leafAt_congr fun _ hq => h.nodes ho hq

theorem Wrote.user (h : Wrote s s' (s.user c r sz)) (hs : Space c s r tf sz)
    (ho : Own c s (s.space c r sz)) : s'.user c r sz = s.user c r sz :=
  user_congr (fun u _ => h.leaf ho u) hs.size

theorem Wrote.andThen {α : Type} {x : K α} (h : Wrote s s' (s.user c r sz)) (hs : Space c s r tf sz)
    (ho : Own c s (s.space c r sz)) (hx : Space c s' r tf sz → Own c s' (s'.space c r sz) →
      wp x E (fun _ s'' => Wrote s' s'' (s'.user c r sz)) s') :
    wp x E (fun _ s'' => Wrote s s'' (s.user c r sz)) s' := by
  have hb := h.became hs ho
  refine wp_mono (hx hb.space (hb.own' ho)) fun _ s'' h' => ?_
  rw [h.user hs ho] at h'
  exact h.trans h'

theorem mkPte_and_U {pa perm : Nat} (hperm : perm < 1024) :
    mkPte pa perm &&& PTE_U = (perm ||| PTE_V) &&& PTE_U := by
  rw [← flags_and_U, PTE_FLAGS_mkPte hperm]

theorem Space.user_page (h : Space c s r tf sz) (hv : v < 2 ^ 26) (hval : isValid (s.leaf r v))
    (hU : s.leaf r v &&& PTE_U ≠ 0) : v < pages sz := by
  by_contra hge
  by_cases hlt : v < vShadow
  · exact h.gap v (by omega) hlt hval
  · rcases special_of_ge (Nat.le_of_not_lt hlt) hv with rfl | rfl | rfl
    · have hs := h.shadow
      by_cases hc : c.shadowStack = true
      · rw [if_pos hc] at hs
        obtain ⟨ss, -, -, hs⟩ := hs
        rw [hs, mkPte_and_U (by decide)] at hU
        exact hU (by decide)
      · rw [if_neg hc] at hs
        exact hs hval
    · rw [h.trapframe, mkPte_and_U (by decide)] at hU
      exact hU (by decide)
    · rw [h.trampoline, mkPte_and_U (by decide)] at hU
      exact hU (by decide)

theorem mem_user_of_lt (hv : v < pages sz) : PTE2PA (s.leaf r v) ∈ s.user c r sz :=
  mem_user.mpr (.inl ⟨v, hv, rfl⟩)

theorem vpn_lt {va : Nat} (h : va < MAXVA) : vpn va < 2 ^ 26 := by
  unfold vpn
  rw [Nat.div_lt_iff_lt_mul (by decide)]
  exact h.trans_le (by decide)

theorem copyoutLoop_spec : ∀ {n : Nat} {s : Vm} {dstva : Nat} {src : List UInt8},
    Space c s r tf sz → Own c s (s.space c r sz) →
    wp (copyoutLoop r n dstva src) E (fun _ s' => Wrote s s' (s.user c r sz)) s := by
  intro n
  induction n with
  | zero => intro s dstva src _ _; exact Wrote.refl _ _
  | succ n ih =>
    intro s dstva src h ho
    unfold copyoutLoop
    by_cases hlen : src.length > 0
    · rw [if_pos hlen]
      by_cases hva : PGROUNDDOWN dstva ≥ MAXVA
      · rw [if_pos hva]
        exact Wrote.refl _ _
      · rw [if_neg hva, wp_bind, wp_walk_read (Nat.lt_of_not_le hva)]
        cases hs : sv39.slot s.pte 2 r (vpn (PGROUNDDOWN dstva)) with
        | none => exact Wrote.refl _ _
        | some x =>
          obtain ⟨q, i⟩ := x
          have hpte : s.pte q i = s.leaf r (vpn (PGROUNDDOWN dstva)) := (Vm.leafAt_of_slot hs).symm
          simp only [wp_bind, wp_loadPte]
          rw [hpte]
          split
          · exact Wrote.refl _ _
          · rename_i hok
            rw [not_or, not_or, Decidable.not_not] at hok
            have hv := h.user_page (vpn_lt (Nat.lt_of_not_le hva)) hok.1 hok.2.1
            rw [wp_bind, wp_modify]
            exact (wrote_put (mem_user_of_lt hv)).andThen h ho ih
    · rw [if_neg hlen]
      exact Wrote.refl _ _

/-- **`copyout`** writes user pages only. -/
theorem copyout_spec {dstva : Nat} {src : List UInt8} (h : Space c s r tf sz)
    (ho : Own c s (s.space c r sz)) :
    wp (copyout r dstva src) E (fun _ s' => Wrote s s' (s.user c r sz)) s :=
  copyoutLoop_spec h ho

end

/-! ## `uvmcopy` -/

section
variable {old new tfo tfn : Nat}

/-- The child has its own copy of each of the parent's user pages. -/
def CopyOf (c : Board) (s s' : Vm) (old new sz : Nat) : Prop :=
  ∀ u, u < pages sz → ∃ pa, IsPage c pa ∧ s'.leaf new u = mkPte pa (PTE_FLAGS (s.leaf old u)) ∧
    s'.mem pa = s.mem (PTE2PA (s.leaf old u))

theorem Space.copy (ho : Space c s old tfo sz) (hn : Space c s new tfn 0)
    (how : Own c s (s.space c new 0 + X)) (hX : ∀ q ∈ s.space c old sz, q ∈ X) :
    wp (uvmcopy c old new sz) E (fun res s' =>
      (res = 0 ∧ s'.oom = s.oom ∧ Became c s s' new tfn 0 sz ∧ CopyOf c s s' old new sz ∧
        ∀ q ∈ s.user c new 0, s'.mem q = s.mem q) ∨
      (res = -1 ∧ s'.oom = true ∧ Became c s s' new tfn 0 0 ∧ s.freelist.length < 3 * pages sz)) s := by
  have hsz := ho.size
  have hlt : vShadow < 512 ^ 3 := by decide
  have how' : Own c s (s.nodes new + (s.user c new 0 + X)) := by
    unfold Vm.space at how
    rwa [add_assoc] at how
  refine wp_mono (uvmcopy_spec (hsz.trans (by decide)) how' ho.wf hn.wf ?_ ?_ ?_) ?_
  · intro q hq
    exact subset_add_right (hX q (subset_add_left hq))
  · intro u hu
    refine ⟨ho.low u hu, subset_add_right (hX _ ?_)⟩
    exact subset_add_right (mem_user_of_lt hu)
  · intro u hu
    exact hn.gap u (Nat.zero_le _) (hu.trans_le hsz)
  · rintro res s' (⟨rfl, hf⟩ | ⟨rfl, hr⟩)
    · obtain ⟨hb, hkept⟩ := Filled.became hn hf how' (Nat.zero_le _) hsz fun u hu =>
        ⟨PTE_FLAGS_lt _, (isLeaf_flags _).mpr (ho.low_leaf hu).2⟩
      refine .inl ⟨rfl, hf.oom, hb, fun u hu => ?_, hkept⟩
      have := hf.leaf u (by omega)
      rwa [if_pos ⟨Nat.zero_le u, hu⟩] at this
    · exact .inr ⟨rfl, hr.oom, hr.became hn, hr.few⟩

theorem CopyOf.before {s₀ : Vm} (h : CopyOf c s s' old new sz)
    (hm : ∀ q ∈ s₀.space c old sz, s.mem q = s₀.mem q) : CopyOf c s₀ s' old new sz := by
  intro u hu
  have hl : s.leaf old u = s₀.leaf old u :=
    Vm.leafAt_congr fun q hq => hm q (subset_add_left hq)
  obtain ⟨pa, hpa, he, hmem⟩ := h u hu
  rw [hl] at he hmem
  exact ⟨pa, hpa, he, hmem.trans (hm _ (subset_add_right (mem_user_of_lt hu)))⟩

theorem CopyOf.after (h : CopyOf c s s' old new sz)
    (hm : ∀ q ∈ s'.space c new sz, s''.mem q = s'.mem q) : CopyOf c s s'' old new sz := by
  intro u hu
  have hl : s''.leaf new u = s'.leaf new u :=
    Vm.leafAt_congr fun q hq => hm q (subset_add_left hq)
  obtain ⟨pa, hpa, he, hmem⟩ := h u hu
  have hmem' := mem_user_of_lt (c := c) (s := s') (r := new) hu
  rw [he, PTE2PA_mkPte (PTE_FLAGS_lt _) (hpa.lt.trans (by decide)) hpa.1] at hmem'
  refine ⟨pa, hpa, hl.trans he, (hm pa (subset_add_right hmem')).trans hmem⟩

end

end ZeptOS.Mem
