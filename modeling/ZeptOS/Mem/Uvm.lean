import Mathlib.Algebra.BigOperators.Intervals
import ZeptOS.Mem.Map

/-!
# Growing, shrinking, copying and freeing user memory

The functions of `vm.c` that allocate. Their specifications are balances: what a table
owns (its nodes and the user pages `U` it is responsible for) together with the free
list is the same collection of pages before and after, whichever way the function ends.
`Upd` is that statement. It composes, so that a loop's balance is its rounds' balances
put end to end, and the error paths, which undo by calling other functions, come out of
the other functions' specifications.
-/

namespace ZeptOS.Mem

open Lib Lib.Prog Multiset

variable {s : Vm} {l n p q r u sz newsz oldsz xperm : Nat} {X : Multiset Nat} {c : Board}
  {rest : List Nat} {rec fill : Nat → K Unit} {Q : Unit → Vm → Prop} {data : Nat → Page} {α : Type}

/-! ## Balances -/

/-- The table at `r`, with the user pages `U` before and `U'` after, has only moved
    pages to and from the free list. -/
structure Upd (s s' : Vm) (r : Nat) (U U' : Multiset Nat) : Prop where
  bal : s'.nodes r + U' + ↑s'.freelist = s.nodes r + U + ↑s.freelist
  frame : ∀ q, q ∉ s.nodes r + U + ↑s.freelist → s'.mem q = s.mem q
  inner : s.innerAt 2 r → s'.innerAt 2 r
  grow : s.nodes r ≤ s'.nodes r

section
variable {s' s'' : Vm} {U U' U'' : Multiset Nat}

theorem Upd.refl (s : Vm) (r : Nat) (U : Multiset Nat) : Upd s s r U U :=
  ⟨rfl, fun _ _ => rfl, id, le_refl _⟩

theorem Upd.trans (h : Upd s s' r U U') (h' : Upd s' s'' r U' U'') : Upd s s'' r U U'' where
  bal := h'.bal.trans h.bal
  frame q hq := by rw [h'.frame q (by rw [h.bal]; exact hq), h.frame q hq]
  inner hi := h'.inner (h.inner hi)
  grow := le_trans h.grow h'.grow

theorem Upd.own (h : Upd s s' r U U') (ho : Own c s (s.nodes r + U + X)) :
    Own c s' (s'.nodes r + U' + X) := by
  refine ho.of_eq ?_
  rw [add_right_comm, h.bal, add_right_comm]

theorem Upd.mem_of_own (h : Upd s s' r U U') (ho : Own c s (s.nodes r + U + X)) (hq : q ∈ X) :
    s'.mem q = s.mem q := by
  refine h.frame q fun hm => ?_
  rcases mem_add.mp hm with hm | hm
  · exact ho.disjoint hm hq
  · exact ho.not_free (subset_add_right hq) (mem_coe.mp hm)

theorem Took.upd {new : List Nat} (h : Took s s' r new) (U : Multiset Nat) : Upd s s' r U U where
  bal := by
    rw [h.nodes, h.free, ← coe_add]
    abel
  frame q hq := by
    refine h.frame q (fun hm => hq ?_) fun hm => hq ?_
    · exact subset_add_left (subset_add_left hm)
    · rw [h.free]
      exact subset_add_right (mem_coe.mpr (List.mem_append_left _ hm))
  inner := h.inner
  grow := by
    rw [h.nodes]
    exact le_add_right _ _

theorem Gave.upd {back : Multiset Nat} (h : Gave s s' r back) (U : Multiset Nat) :
    Upd s s' r (U + back) U where
  bal := by
    rw [h.nodes, h.free]
    abel
  frame q hq := by
    refine h.frame q (fun hm => hq ?_) fun hm => hq ?_
    · exact subset_add_left (subset_add_left hm)
    · exact subset_add_left (subset_add_right (subset_add_right hm))
  inner := h.inner
  grow := le_of_eq h.nodes.symm

theorem upd_write (hf : s'.freelist = s.freelist) (hm : ∀ q, q ∉ U → s'.mem q = s.mem q)
    (hn : ∀ q ∈ s.nodes r, s'.mem q = s.mem q) : Upd s s' r U U where
  bal := by rw [hf, show s'.nodes r = s.nodes r from Vm.nodesAt_congr hn]
  frame q hq := hm q fun hu =>
    hq (subset_add_left (subset_add_right hu))
  inner := Vm.innerAt_congr hn
  grow := le_of_eq (Vm.nodesAt_congr hn).symm

theorem upd_take (ho : Own c s (s.nodes r + U)) (hf : s.freelist = p :: rest)
    (hf' : s'.freelist = rest) (hm : ∀ q, q ≠ p → s'.mem q = s.mem q) :
    s'.nodes r = s.nodes r ∧ (∀ v, s'.leaf r v = s.leaf r v) ∧ Upd s s' r U (U + {p}) := by
  have hp : p ∉ s.nodes r + U := fun hp => ho.not_free hp (hf ▸ List.mem_cons_self)
  have hagree : ∀ q ∈ s.nodes r, s'.mem q = s.mem q := by
    intro q hq
    refine hm q ?_
    rintro rfl
    exact hp (subset_add_left hq)
  have hnodes : s'.nodes r = s.nodes r := Vm.nodesAt_congr hagree
  refine ⟨hnodes, fun v => Vm.leafAt_congr hagree, ?_, ?_, Vm.innerAt_congr hagree,
    le_of_eq hnodes.symm⟩
  · rw [hnodes, hf, hf', ← cons_coe, ← singleton_add]
    abel
  · intro q hq
    refine hm q ?_
    rintro rfl
    refine hq (subset_add_right ?_)
    rw [hf]
    exact mem_coe.mpr List.mem_cons_self

theorem upd_give (ho : Own c s (s.nodes r + (U + {p}))) :
    (s.give p).nodes r = s.nodes r ∧ (∀ v, (s.give p).leaf r v = s.leaf r v) ∧
      Upd s (s.give p) r (U + {p}) U := by
  have hp : p ∉ s.nodes r := fun hp => ho.disjoint hp
    (subset_add_right (mem_singleton_self p))
  have hagree : ∀ q ∈ s.nodes r, (s.give p).mem q = s.mem q := by
    intro q hq
    refine Vm.give_mem_of_ne ?_
    rintro rfl
    exact hp hq
  have hnodes : (s.give p).nodes r = s.nodes r := Vm.nodesAt_congr hagree
  refine ⟨hnodes, fun v => Vm.leafAt_congr hagree, ?_, ?_, Vm.innerAt_congr hagree,
    le_of_eq hnodes.symm⟩
  · rw [hnodes, Vm.give_freelist, ← cons_coe, ← singleton_add]
    abel
  · intro q hq
    refine Vm.give_mem_of_ne ?_
    rintro rfl
    refine hq (subset_add_left (subset_add_right ?_))
    exact subset_add_right (mem_singleton_self _)

end

/-! ## `freewalk` -/

structure Freed (s s' : Vm) (A : Multiset Nat) : Prop where
  free : (↑s'.freelist : Multiset Nat) = A + ↑s.freelist
  frame : ∀ q, q ∉ A → s'.mem q = s.mem q
  oom : s'.oom = s.oom

def Vm.underFrom (s : Vm) (l p i : Nat) : Multiset Nat :=
  ∑ j ∈ Finset.Ico i 512, sv39.under s.pte l (s.pte p j)

variable {E : Panic → Prop}

theorem underFrom_step {i : Nat} (hi : i < 512) :
    s.underFrom l p i = sv39.under s.pte l (s.pte p i) + s.underFrom l p (i + 1) :=
  Finset.sum_eq_sum_Ico_succ_bot hi _

theorem mem_underFrom {i : Nat} :
    q ∈ s.underFrom l p i ↔ ∃ j, i ≤ j ∧ j < 512 ∧ q ∈ sv39.under s.pte l (s.pte p j) := by
  unfold Vm.underFrom
  rw [mem_sum]
  simp only [Finset.mem_Ico, and_assoc]

/-- An entry is a pointer to an empty table, or not valid. -/
def Vm.Empty (s : Vm) (l : Nat) (w : Nat) : Prop :=
  isValid w → ¬ isLeaf w ∧ s.innerAt l (PTE2PA w) ∧ ∀ v, ¬ isValid (s.leafAt l (PTE2PA w) v)

theorem freeLoop_spec
    (hrec : ∀ q s, Own c s (s.nodesAt l q) → s.innerAt l q → (∀ v, ¬ isValid (s.leafAt l q v)) →
      wp (rec q) E (fun _ s' => Freed s s' (s.nodesAt l q)) s) :
    ∀ {n : Nat} {s : Vm}, n ≤ 512 → Own c s ({p} + s.underFrom l p (512 - n)) →
      (∀ j, 512 - n ≤ j → j < 512 → s.Empty l (s.pte p j)) → wp (freeLoop rec p n) E (fun _ s' =>
        (↑s'.freelist : Multiset Nat) = s.underFrom l p (512 - n) + ↑s.freelist ∧
        (∀ q, q ≠ p → q ∉ s.underFrom l p (512 - n) → s'.mem q = s.mem q) ∧ s'.oom = s.oom) s := by
  intro n
  induction n with
  | zero =>
    intro s _ _ _
    refine ⟨?_, fun _ _ _ => rfl, rfl⟩
    rw [Nat.sub_zero, Vm.underFrom, Finset.Ico_self, Finset.sum_empty, zero_add]
  | succ n ih =>
    intro s hn ho hem
    obtain ⟨i, hi⟩ : ∃ i, i = 512 - (n + 1) := ⟨_, rfl⟩
    have hi512 : i < 512 := by omega
    have hnext : 512 - n = i + 1 := by omega
    rw [← hi] at ho hem ⊢
    unfold freeLoop
    rw [← hi, wp_bind, wp_loadPte]
    rw [hnext] at ih
    have hstep := underFrom_step (s := s) (l := l) (p := p) hi512
    have hp : p ∉ s.underFrom l p i := fun hm => ho.disjoint (mem_singleton_self p) hm
    by_cases hv : isValid (s.pte p i)
    · obtain ⟨hnl, hin, hleaf⟩ := hem i le_rfl hi512 hv
      have hunder : sv39.under s.pte l (s.pte p i) = s.nodesAt l (PTE2PA (s.pte p i)) :=
        Radix.under_of_child (child_of_valid hv)
      rw [hunder] at hstep
      rw [if_pos ⟨hv, hnl⟩]
      have hchild : Own c s (s.nodesAt l (PTE2PA (s.pte p i))) := by
        refine ho.mono (add_le_add_left ?_ _)
        rw [hstep]
        exact (le_add_right _ _).trans (le_add_left _ _)
      refine wp_call (hrec _ s hchild hin hleaf) ?_
      rintro _ s₁ hfr
      rw [wp_bind, wp_storePte]
      -- everything under the later entries is as before
      have hrest : ∀ q, q ∉ s.nodesAt l (PTE2PA (s.pte p i)) → q ≠ p →
          (s₁.setPte p i 0).mem q = s.mem q := by
        intro q hq hqp
        rw [Vm.setPte_mem_of_ne hqp, hfr.frame q hq]
      have hp1 : p ∉ s.nodesAt l (PTE2PA (s.pte p i)) := by
        intro hm
        rw [hstep] at hp
        exact hp (subset_add_left hm)
      have hpte : ∀ j, j ≠ i → (s₁.setPte p i 0).pte p j = s.pte p j := by
        intro j hj
        rw [Vm.pte_setPte_of_ne fun h => hj h.2]
        exact Vm.pte_congr (hfr.frame p hp1)
      have hlater : ∀ j, i < j → j < 512 → ∀ q ∈ sv39.under s.pte l (s.pte p j),
          (s₁.setPte p i 0).mem q = s.mem q := by
        intro j hj hj512 q hq
        have hmem : q ∈ s.underFrom l p (i + 1) := mem_underFrom.mpr ⟨j, hj, hj512, hq⟩
        refine hrest q (fun hm => ?_) ?_
        · have hd := (nodup_add.mp (nodup_add.mp ho.nodup).1).2.1
          rw [hstep] at hd
          exact disjoint_left.mp (nodup_add.mp hd).2.2 hm hmem
        · rintro rfl
          rw [hstep] at hp
          exact hp (subset_add_right hmem)
      have hsame : (s₁.setPte p i 0).underFrom l p (i + 1) = s.underFrom l p (i + 1) := by
        refine Finset.sum_congr rfl fun j hj => ?_
        obtain ⟨hj1, hj2⟩ := Finset.mem_Ico.mp hj
        rw [hpte j (by omega)]
        cases hc : sv39.child (s.pte p j) with
        | none => rw [Radix.under_of_none hc, Radix.under_of_none hc]
        | some d =>
          rw [Radix.under_of_child hc, Radix.under_of_child hc]
          exact Vm.nodesAt_congr fun q hq =>
            hlater j (by omega) hj2 q (Radix.mem_under.mpr ⟨d, hc, hq⟩)
      refine wp_mono (ih (s := s₁.setPte p i 0) (by omega) ?_ ?_) ?_
      · rw [hsame]
        refine ho.of_eq ?_
        rw [Vm.setPte_freelist, hfr.free, hstep]
        abel
      · intro j hj hj512
        rw [hpte j (by omega)]
        intro hvj
        obtain ⟨h1, h2, h3⟩ := hem j (by omega) hj512 hvj
        have hagree : ∀ q ∈ s.nodesAt l (PTE2PA (s.pte p j)), (s₁.setPte p i 0).mem q = s.mem q := by
          intro q hq
          exact hlater j (by omega) hj512 q (Radix.mem_under.mpr ⟨_, child_of_valid hvj, hq⟩)
        refine ⟨h1, Vm.innerAt_congr hagree h2, fun v => ?_⟩
        rw [Vm.leafAt_congr hagree]
        exact h3 v
      · rintro _ s' ⟨h1, h2, h3⟩
        rw [hsame] at h1 h2
        refine ⟨?_, ?_, h3.trans hfr.oom⟩
        · rw [h1, Vm.setPte_freelist, hfr.free, hstep]
          abel
        · intro q hqp hq
          rw [hstep] at hq
          rw [h2 q hqp fun hm => hq (subset_add_right hm)]
          exact hrest q (fun hm => hq (subset_add_left hm)) hqp
    · have hunder : sv39.under s.pte l (s.pte p i) = 0 := Radix.under_of_none (child_of_invalid hv)
      rw [hunder, zero_add] at hstep
      rw [if_neg fun h => hv h.1, if_neg hv]
      rw [hstep] at ho ⊢
      exact ih (by omega) ho fun j hj => hem j (by omega)

theorem wp_freeLoop_skip (hinv : ∀ j, j < 512 → ¬ isValid (s.pte p j)) :
    ∀ {n : Nat}, n ≤ 512 → wp (freeLoop rec p n) E Q s = Q () s := by
  intro n
  induction n with
  | zero => intro _; rfl
  | succ n ih =>
    intro hn
    have hv := hinv (512 - (n + 1)) (by omega)
    unfold freeLoop
    rw [wp_bind, wp_loadPte, if_neg fun h => hv h.1, if_neg hv]
    exact ih (by omega)

theorem leafAt_under {j d : Nat} (hj : j < 512) (hc : sv39.child (s.pte p j) = some d) (v : Nat) :
    s.leafAt l d v = s.leafAt (l + 1) p (j * 512 ^ (l + 1) + v % 512 ^ (l + 1)) := by
  have hlt : v % 512 ^ (l + 1) < 512 ^ (l + 1) := Nat.mod_lt _ (Nat.pow_pos (by decide))
  have hd : sv39.digit (l + 1) (j * 512 ^ (l + 1) + v % 512 ^ (l + 1)) = j := by
    show (j * 512 ^ (l + 1) + v % 512 ^ (l + 1)) / 512 ^ (l + 1) % 512 = j
    rw [Nat.mul_comm, Nat.mul_add_div (Nat.pow_pos (by decide)), Nat.div_eq_of_lt hlt, Nat.add_zero,
      Nat.mod_eq_of_lt hj]
  rw [Vm.leafAt_of_child (c := d) (by rw [hd]; exact hc)]
  unfold Vm.leafAt
  have hmod : v % 512 ^ (l + 1) = (j * 512 ^ (l + 1) + v % 512 ^ (l + 1)) % 512 ^ (l + 1) := by
    rw [Nat.mul_comm, Nat.mul_add_mod, Nat.mod_mod]
  rw [Radix.slot_mod (F := sv39) hmod]

theorem freewalkTo_spec : ∀ {l p : Nat} {s : Vm},
    Own c s (s.nodesAt l p) → s.innerAt l p → (∀ v, ¬ isValid (s.leafAt l p v)) →
      wp (freewalkTo c (l + 1) p) E (fun _ s' => Freed s s' (s.nodesAt l p)) s := by
  intro l
  induction l with
  | zero =>
    intro p s ho _ hleaf
    have hnodes : s.nodesAt 0 p = {p} := Radix.nodes_zero
    have hinv : ∀ j, j < 512 → ¬ isValid (s.pte p j) := by
      intro j hj
      have hslot : sv39.slot s.pte 0 p j = some (p, j) := by
        rw [Radix.slot, show j % sv39.fan = j from Nat.mod_eq_of_lt hj]
      rw [← Vm.leafAt_of_slot hslot]
      exact hleaf j
    rw [hnodes] at ho ⊢
    unfold freewalkTo
    rw [wp_bind, wp_freeLoop_skip hinv le_rfl,
      wp_kfree (ho.isPage (mem_singleton_self p))]
    refine ⟨?_, fun q hq => Vm.give_mem_of_ne fun he => hq (mem_singleton.mpr he), rfl⟩
    rw [Vm.give_freelist, ← cons_coe, ← singleton_add]
  | succ l ih =>
    intro p s ho hin hleaf
    have hnodes : s.nodesAt (l + 1) p = {p} + s.underFrom l p 0 := by
      unfold Vm.nodesAt Vm.underFrom
      rw [Radix.nodes_succ, singleton_add, ← Finset.range_eq_Ico]
      rfl
    rw [hnodes] at ho ⊢
    unfold freewalkTo
    refine wp_call (freeLoop_spec (c := c) (l := l) (p := p) (n := 512)
      (fun q s hq hi hl => ih hq hi hl) le_rfl ho ?_) ?_
    · intro j _ hj hv
      obtain ⟨hok, hchild⟩ := hin j hj
      refine ⟨hok hv, hchild _ (child_of_valid hv), fun v => ?_⟩
      rw [leafAt_under hj (child_of_valid hv)]
      exact hleaf _
    · rintro _ s' ⟨h1, h2, h3⟩
      rw [wp_kfree (ho.isPage (subset_add_left (mem_singleton_self p)))]
      refine ⟨?_, fun q hq => ?_, h3⟩
      · rw [Vm.give_freelist, ← cons_coe, h1, ← singleton_add, Nat.sub_self,
          add_assoc]
      · have hqp : q ≠ p := fun he =>
          hq (subset_add_left (mem_singleton.mpr he))
        rw [Vm.give_mem_of_ne hqp]
        exact h2 q hqp fun hm => hq (subset_add_right hm)

/-- **`freewalk`** of a table without mappings: all its pages are free. -/
theorem freewalk_spec (ho : Own c s (s.nodes r)) (hwf : Wf s r)
    (hl : ∀ v, v < 512 ^ 3 → ¬ isValid (s.leaf r v)) :
    wp (freewalk c r) E (fun _ s' => Freed s s' (s.nodes r)) s := by
  refine freewalkTo_spec ho hwf.inner fun v => ?_
  have hmod : s.leafAt 2 r v = s.leafAt 2 r (v % 512 ^ 3) := by
    have hmod : v % sv39.fan ^ (2 + 1) = v % 512 ^ 3 % sv39.fan ^ (2 + 1) := (Nat.mod_mod _ _).symm
    unfold Vm.leafAt
    rw [Radix.slot_mod hmod]
  rw [hmod]
  exact hl _ (Nat.mod_lt _ (by decide))

/-! ## `uvmdealloc` -/

theorem pages_mono {a b : Nat} (h : a ≤ b) : pages a ≤ pages b :=
  Nat.div_le_div_right (Nat.add_le_add_right h _)

theorem pages_mul (k : Nat) : pages (k * PGSIZE) = k := by
  unfold pages
  simp only [PGSIZE]
  omega

theorem mul_lt_iff {k : Nat} : k * PGSIZE < n ↔ k < pages n := by
  unfold pages
  simp only [PGSIZE]
  omega

theorem le_pages_mul (n : Nat) : n ≤ pages n * PGSIZE := by
  unfold pages
  simp only [PGSIZE]
  omega

theorem PGROUNDUP_of_pages (h : pages sz ≤ 2 ^ 26) : PGROUNDUP sz = pages sz * PGSIZE := by
  refine PGROUNDUP_eq ?_
  have := le_pages_mul sz
  simp only [PGSIZE] at this ⊢
  omega

/-- **`uvmdealloc`**, whichever of the sizes is the larger. -/
theorem uvmdealloc_spec (hold : pages oldsz ≤ 2 ^ 26)
    (ho : Own c s (s.nodes r + s.targets r (pages newsz) (pages oldsz - pages newsz)))
    (hmap : ∀ u, pages newsz ≤ u → u < pages oldsz → isValid (s.leaf r u) ∧ isLeaf (s.leaf r u)) :
    wp (uvmdealloc c r oldsz newsz) E (fun res s' => res = min oldsz newsz ∧
      Gave s s' r (s.targets r (pages newsz) (pages oldsz - pages newsz)) ∧ ∀ u, u < 512 ^ 3 →
        s'.leaf r u = if pages newsz ≤ u ∧ u < pages oldsz then 0 else s.leaf r u) s := by
  unfold uvmdealloc
  by_cases hge : newsz ≥ oldsz
  · have hpg := pages_mono hge
    rw [if_pos hge, wp_pure, show pages oldsz - pages newsz = 0 by omega, targets_zero]
    exact ⟨(Nat.min_eq_left hge).symm, Gave.refl s r, fun u _ => by rw [if_neg (by omega)]⟩
  · have hlt : newsz < oldsz := Nat.lt_of_not_le hge
    have hpg := pages_mono (Nat.le_of_lt hlt)
    have hr1 : PGROUNDUP newsz = pages newsz * PGSIZE := PGROUNDUP_of_pages (by omega)
    have hr2 : PGROUNDUP oldsz = pages oldsz * PGSIZE := PGROUNDUP_of_pages hold
    have hmin : newsz = min oldsz newsz := (Nat.min_eq_right (Nat.le_of_lt hlt)).symm
    rw [if_neg hge]
    by_cases heq : pages newsz = pages oldsz
    · rw [hr1, hr2, heq, if_neg (Nat.lt_irrefl _), Nat.sub_self, targets_zero]
      exact ⟨hmin, Gave.refl s r, fun u _ => by rw [if_neg (by omega)]⟩
    · have hn : throughInt ((pages oldsz * PGSIZE - pages newsz * PGSIZE) / PGSIZE) =
          pages oldsz - pages newsz := by
        rw [← Nat.sub_mul, Nat.mul_div_cancel _ (by decide)]
        unfold throughInt
        rw [Nat.mod_eq_of_lt (by omega), if_pos (by omega)]
      rw [hr1, hr2, if_pos (Nat.mul_lt_mul_of_pos_right (by omega) (by decide)), hn]
      refine wp_call (@uvmunmap_spec c s _ r _ true E (by omega) ho fun u h1 h2 =>
        hmap u h1 (by omega)) ?_
      rintro _ s' ⟨hg, hl⟩
      refine ⟨hmin, hg, fun u hu => ?_⟩
      rw [hl u hu, show pages newsz + (pages oldsz - pages newsz) = pages oldsz by omega]

/-! ## Mapping fresh pages

`uvmalloc` and `uvmcopy` go round the same way: a page is taken and filled, mapped at the next
place, and if there is no page for that, all that the loop has mapped is unmapped.
-/

/-- The pages of `r` from `v0` to `k` are mapped and those from there to `B` are not, with `X` in use
    elsewhere. -/
structure Growing (c : Board) (s : Vm) (r v0 k B : Nat) (X : Multiset Nat) : Prop where
  own : Own c s (s.nodes r + s.targets r v0 (k - v0) + X)
  wf : Wf s r
  mapped : ∀ u, v0 ≤ u → u < k → isValid (s.leaf r u)
  unmapped : ∀ u, k ≤ u → u < B → ¬ isValid (s.leaf r u)

/-- The pages from `k` to `n` are mapped too, with these permissions and contents. -/
structure Filled (c : Board) (s s' : Vm) (r v0 k n : Nat) (perm : Nat → Nat) (data : Nat → Page) :
    Prop where
  oom : s'.oom = s.oom
  upd : Upd s s' r (s.targets r v0 (k - v0)) (s'.targets r v0 (max k n - v0))
  leaf : ∀ u, u < 512 ^ 3 → if k ≤ u ∧ u < n then
    ∃ pa, IsPage c pa ∧ s'.leaf r u = mkPte pa (perm u) ∧ s'.mem pa = data u
    else s'.leaf r u = s.leaf r u
  keep : ∀ q ∈ s.targets r v0 (k - v0), s'.mem q = s.mem q
  len : s.freelist.length ≤ s'.freelist.length + 3 * (n - k)

/-- There were too few pages for that, and those from `v0` on are not mapped any more. -/
structure RolledBack (s s' : Vm) (r v0 k n : Nat) : Prop where
  oom : s'.oom = true
  upd : Upd s s' r (s.targets r v0 (k - v0)) 0
  leaf : ∀ u, u < 512 ^ 3 → s'.leaf r u = if v0 ≤ u ∧ u < k then 0 else s.leaf r u
  few : s.freelist.length < 3 * (n - k)

def Ended {α : Type} (c : Board) (s s' : Vm) (r v0 k n : Nat) (perm : Nat → Nat) (data : Nat → Page)
    (good bad res : α) : Prop :=
  (res = good ∧ Filled c s s' r v0 k n perm data) ∨ (res = bad ∧ RolledBack s s' r v0 k n)

section
variable {s' s'' : Vm} {v0 k B : Nat} {perm : Nat → Nat}

theorem Growing.start (ho : Own c s (s.nodes r + X)) (hwf : Wf s r)
    (hun : ∀ u, k ≤ u → u < B → ¬ isValid (s.leaf r u)) : Growing c s r k k B X where
  own := by
    rw [Nat.sub_self, targets_zero, add_zero]
    exact ho
  wf := hwf
  mapped u h1 h2 := absurd h2 (Nat.not_lt.mpr h1)
  unmapped := hun

theorem Filled.upd_start (h : Filled c s s' r k k n perm data) (hkn : k ≤ n) :
    Upd s s' r 0 (s'.targets r k (n - k)) := by
  have := h.upd
  rwa [Nat.sub_self, targets_zero, Nat.max_eq_right hkn] at this

theorem RolledBack.upd_start (h : RolledBack s s' r k k n) : Upd s s' r 0 0 := by
  have := h.upd
  rwa [Nat.sub_self, targets_zero] at this

theorem RolledBack.leaf_start (h : RolledBack s s' r k k n) (u : Nat) (hu : u < 512 ^ 3) :
    s'.leaf r u = s.leaf r u := by
  rw [h.leaf u hu, if_neg (by omega)]

theorem Filled.refl (hkn : n ≤ k) : Filled c s s r v0 k n perm data where
  oom := rfl
  upd := by
    rw [Nat.max_eq_left hkn]
    exact Upd.refl s r _
  leaf u _ := by rw [if_neg (by omega)]
  keep _ _ := rfl
  len := Nat.le_add_right _ _

section Next
variable (h : Filled c s s' r v0 k (k + 1) perm data)
include h

theorem Filled.others (hu : u < 512 ^ 3) (huk : u ≠ k) : s'.leaf r u = s.leaf r u := by
  have := h.leaf u hu
  rwa [if_neg (by omega)] at this

theorem Filled.page (hk : k < 512 ^ 3) :
    ∃ pa, IsPage c pa ∧ s'.leaf r k = mkPte pa (perm k) ∧ s'.mem pa = data k := by
  have := h.leaf k hk
  rwa [if_pos ⟨Nat.le_refl k, Nat.lt_succ_self k⟩] at this

theorem Filled.upd_next : Upd s s' r (s.targets r v0 (k - v0)) (s'.targets r v0 (k + 1 - v0)) := by
  have := h.upd
  rwa [Nat.max_eq_right (Nat.le_succ k)] at this

theorem Filled.shrinks (hk : v0 ≤ k) : s'.freelist.length + 1 ≤ s.freelist.length := by
  have hcard := congrArg card h.upd_next.bal
  have hgrow := card_le_card h.upd_next.grow
  simp only [card_add, coe_card, card_targets] at hcard
  omega

theorem Growing.next (hg : Growing c s r v0 k B X) (hk : k < 2 ^ 26) (hB : B ≤ 2 ^ 26)
    (hperm : perm k < 1024) (hleaf : isLeaf (perm k)) : Growing c s' r v0 (k + 1) B X := by
  obtain ⟨pa, -, hlk, -⟩ := h.page (by omega)
  refine ⟨h.upd_next.own hg.own, hg.wf.change h.upd.inner fun u hu => ?_, fun u h1 h2 => ?_,
    fun u h1 h2 => ?_⟩
  · by_cases huk : u = k
    · rw [huk, hlk]
      exact .inr (.inr ⟨isValid_mkPte hperm, (isLeaf_mkPte hperm).mpr hleaf, hk⟩)
    · exact .inl (h.others hu huk)
  · by_cases huk : u = k
    · rw [huk, hlk]
      exact isValid_mkPte hperm
    · rw [h.others (by omega) huk]
      exact hg.mapped u h1 (by omega)
  · rw [h.others (by omega) (by omega)]
    exact hg.unmapped u (by omega) h2

theorem Filled.trans (h' : Filled c s' s'' r v0 (k + 1) n perm data) (hk : v0 ≤ k)
    (hk27 : k < 512 ^ 3) (hkn : k < n) (hperm : perm k < 1024) :
    Filled c s s'' r v0 k n perm data := by
  have hmem {u : Nat} (h1 : v0 ≤ u) (h2 : u < k + 1) :
      PTE2PA (s'.leaf r u) ∈ s'.targets r v0 (k + 1 - v0) := mem_targets.mpr ⟨u, h1, by omega, rfl⟩
  have hlen := h.len
  have hlen' := h'.len
  refine ⟨h'.oom.trans h.oom, ?_, fun u hu => ?_, fun q hq => ?_, by omega⟩
  · rw [show max k n = max (k + 1) n by omega]
    exact h.upd_next.trans h'.upd
  · have hu' := h'.leaf u hu
    by_cases huk : u = k
    · subst huk
      obtain ⟨pa, hpg, he, hz⟩ := h.page hu
      rw [if_neg (by omega)] at hu'
      refine (if_pos ⟨Nat.le_refl u, hkn⟩).mpr ⟨pa, hpg, hu'.trans he, ?_⟩
      have hpa := hmem hk (Nat.lt_succ_self u)
      rw [he, PTE2PA_mkPte hperm (by have := hpg.lt; omega) hpg.1] at hpa
      exact (h'.keep pa hpa).trans hz
    · by_cases hin : k ≤ u ∧ u < n
      · rw [if_pos (by omega)] at hu'
        rwa [if_pos hin]
      · rw [if_neg (by omega)] at hu'
        rw [if_neg hin, hu', h.others hu huk]
  · refine (h'.keep q ?_).trans (h.keep q hq)
    obtain ⟨u, hu1, hu2, rfl⟩ := mem_targets.mp hq
    rw [← h.others (by omega) (by omega)]
    exact hmem hu1 (by omega)

theorem Filled.rolledBack (h' : RolledBack s' s'' r v0 (k + 1) n) (hk : v0 ≤ k) (hkn : k < n)
    (hun : s.leaf r k = 0) : RolledBack s s'' r v0 k n := by
  have hlen := h.len
  have hfew := h'.few
  refine ⟨h'.oom, h.upd_next.trans h'.upd, fun u hu => ?_, by omega⟩
  rw [h'.leaf u hu]
  by_cases huk : u = k
  · subst huk
    rw [if_pos (by omega), if_neg (by omega), hun]
  · rw [h.others hu huk]
    exact if_congr (by omega) rfl rfl

end Next

theorem targets_leaf {pa perm : Nat} (hperm : perm < 1024) (hpg : IsPage c pa)
    (hl : s'.leaf r (u + n) = mkPte pa perm)
    (hsame : ∀ v, u ≤ v → v < u + n → s'.leaf r v = s.leaf r v) :
    s'.targets r u (n + 1) = s.targets r u n + {pa} := by
  rw [targets_succ, hl, PTE2PA_mkPte hperm (by have := hpg.lt; omega) hpg.1,
    show s'.targets r u n = s.targets r u n from
      targets_congr fun j hj => hsame _ (by omega) (by omega),
    ← singleton_add, add_comm]

/-- A state in which the mappings are the same, but no page was left. -/
structure Short (s s' : Vm) (r v0 k : Nat) : Prop where
  oom : s'.oom = true
  upd : Upd s s' r (s.targets r v0 (k - v0)) (s.targets r v0 (k - v0))
  leaf : ∀ u, u < 512 ^ 3 → s'.leaf r u = s.leaf r u
  few : s.freelist.length < 3

section Short
variable (h : Short s s' r v0 k)
include h

theorem Short.targets (hk : k ≤ 512 ^ 3) : s'.targets r v0 (k - v0) = s.targets r v0 (k - v0) :=
  targets_congr fun j hj => h.leaf _ (by omega)

theorem Growing.short (hg : Growing c s r v0 k B X) (hk : k ≤ 512 ^ 3) (hB : B ≤ 2 ^ 26) :
    Growing c s' r v0 k B X where
  own := by
    rw [h.targets hk]
    exact h.upd.own hg.own
  wf := hg.wf.change h.upd.inner fun u hu => .inl (h.leaf u hu)
  mapped u h1 h2 := by
    rw [h.leaf u (by omega)]
    exact hg.mapped u h1 h2
  unmapped u h1 h2 := by
    rw [h.leaf u (by omega)]
    exact hg.unmapped u h1 h2

theorem Short.rolledBack (hk : k ≤ 512 ^ 3) (hkn : k < n)
    (hgave : Gave s' s'' r (s'.targets r v0 (k - v0)))
    (hl : ∀ u, u < 512 ^ 3 → s''.leaf r u = if v0 ≤ u ∧ u < k then 0 else s'.leaf r u) :
    RolledBack s s'' r v0 k n where
  oom := hgave.oom.trans h.oom
  upd := by
    have hu := hgave.upd 0
    rw [zero_add, h.targets hk] at hu
    exact h.upd.trans hu
  leaf u hu := by rw [hl u hu, h.leaf u hu]
  few := by
    have := h.few
    omega

end Short

/-- A page that has been taken and filled is mapped, unless there is none left for the tables. -/
theorem wp_mapNew (perm : Nat → Nat) (data : Nat → Page) {Q : Int → Vm → Prop}
    (hg : Growing c s r v0 k B X) (hk : v0 ≤ k) (hkB : k < B) (hB : B ≤ 2 ^ 26)
    (hperm : perm k < 1024) (hf : s.freelist = p :: rest)
    (hfail : ∀ s', Upd s s' r (s.targets r v0 (k - v0)) (s.targets r v0 (k - v0) + {p}) →
      (∀ u, u < 512 ^ 3 → s'.leaf r u = s.leaf r u) → s'.oom = true → s.freelist.length < 3 → Q (-1) s')
    (hcont : ∀ s', Filled c s s' r v0 k (k + 1) perm data → s'.leaf r k = mkPte p (perm k) → Q 0 s') :
    wp (mappages r (k * PGSIZE) PGSIZE p (perm k)) E Q ((s.take p rest).put p (data k)) := by
  have hpg : IsPage c p := hg.own.free_isPage (hf ▸ List.mem_cons_self)
  have hne {q : Nat} (hq : q ∈ s.targets r v0 (k - v0)) : q ≠ p := by
    rintro rfl
    exact hg.own.left.not_free (q := q) (by simp [hq]) (by simp [hf])
  generalize hs₁ : (s.take p rest).put p (data k) = s₁
  have hmem {q : Nat} (hq : q ≠ p) : s₁.mem q = s.mem q := by
    rw [← hs₁, Vm.put_mem_of_ne hq, Vm.take_mem_of_ne hq]
  have hfree : s₁.freelist = rest := by
    rw [← hs₁]
    rfl
  have hoom : s₁.oom = s.oom := by
    rw [← hs₁]
    rfl
  obtain ⟨-, hl1, hu1⟩ := upd_take hg.own.left hf hfree fun q => hmem
  have ho1 := hu1.own hg.own
  have hmiss : sv39.missing s₁.pte 2 r k ≤ 2 := Radix.missing_le
  refine mappage_spec ho1.left.left (by omega) (by have := hpg.lt; omega) hperm ?_ ?_ ?_
  · rw [hl1]
    exact hg.unmapped k le_rfl hkB
  · -- no page for the tables on the way
    intro s₂ new ht hnil hoom₂ hshort hl
    refine hfail s₂ (hu1.trans (ht.upd _)) (fun u hu => by rw [hl u hu, hl1]) hoom₂ ?_
    have hlen := ht.len
    rw [hnil, hfree, List.length_nil] at hlen
    rw [hf, List.length_cons]
    omega
  · intro s₂ new ht hoom₂ htook hl
    have hlk : s₂.leaf r k = mkPte p (perm k) := by rw [hl k (by omega), if_pos rfl]
    have hlo {u : Nat} (hu : u < 512 ^ 3) (huk : u ≠ k) : s₂.leaf r u = s.leaf r u := by
      rw [hl u hu, if_neg huk, hl1]
    have hkept {q : Nat} (hq : q ∈ s.targets r v0 (k - v0) + {p}) : s₂.mem q = s₁.mem q :=
      ht.mem_of_own ho1.left hq
    refine hcont s₂ ⟨hoom₂.trans hoom, ?_, fun u hu => ?_, fun q hq => ?_, ?_⟩ hlk
    · have htg : s₂.targets r v0 (k + 1 - v0) = s.targets r v0 (k - v0) + {p} := by
        rw [show k + 1 - v0 = k - v0 + 1 by omega]
        refine targets_leaf hperm hpg ?_ fun v h1 h2 => hlo (by omega) (by omega)
        rw [show v0 + (k - v0) = k by omega]
        exact hlk
      rw [Nat.max_eq_right (Nat.le_succ k), htg]
      exact hu1.trans (ht.upd _)
    · by_cases huk : u = k
      · subst huk
        refine (if_pos ⟨Nat.le_refl u, Nat.lt_succ_self u⟩).mpr ⟨p, hpg, hlk, ?_⟩
        rw [hkept (by simp), ← hs₁, Vm.put_mem_self]
      · rw [if_neg (by omega)]
        exact hlo hu huk
    · rw [hkept (by simp [hq]), hmem (hne hq)]
    · have hlen := ht.len
      rw [hfree] at hlen
      rw [hf, List.length_cons]
      omega

/-- **A page is taken, filled and mapped**, or `fail` is run with the mappings as they were. -/
theorem wp_newPage (perm : Nat → Nat) (data : Nat → Page) {fail cont : K α} {Q : α → Vm → Prop}
    (hg : Growing c s r v0 k B X) (hk : v0 ≤ k) (hkB : k < B) (hB : B ≤ 2 ^ 26)
    (hperm : perm k < 1024) (hfill : ∀ p rest, s.freelist = p :: rest → ∀ R : Unit → Vm → Prop,
      wp (fill p) E R (s.take p rest) = R () ((s.take p rest).put p (data k)))
    (hfail : ∀ s', Short s s' r v0 k → wp fail E Q s')
    (hcont : ∀ s', Filled c s s' r v0 k (k + 1) perm data → wp cont E Q s') :
    wp (do
      let mem ← kalloc
      if mem = 0 then fail
      else do
        fill mem
        let res ← mappages r (k * PGSIZE) PGSIZE mem (perm k)
        if res ≠ 0 then do
          kfree c mem
          fail
        else cont) E Q s := by
  cases hf : s.freelist with
  | nil =>
    rw [wp_bind, wp_kalloc_nil hf, if_pos rfl]
    refine hfail _ ⟨rfl, ?_, fun u _ => Vm.leafAt_congr fun _ _ => rfl, by simp [hf]⟩
    exact upd_write rfl (fun _ _ => rfl) fun _ _ => rfl
  | cons p rest =>
    have hpg : IsPage c p := hg.own.free_isPage (hf ▸ List.mem_cons_self)
    rw [wp_bind, wp_kalloc_cons hf, if_neg hpg.pos, wp_bind, hfill p rest hf, wp_bind]
    refine wp_mapNew perm data hg hk hkB hB hperm hf (fun s₂ hu hl hoom hfew => ?_) fun s' h _ => ?_
    · -- the page is given back
      rw [if_pos (by decide), wp_bind, wp_kfree hpg]
      obtain ⟨-, hl3, hu3⟩ := upd_give (hu.own hg.own).left
      exact hfail _ ⟨hoom, hu.trans hu3, fun u hu => by rw [hl3, hl u hu], hfew⟩
    · rw [if_neg (by decide)]
      exact hcont s' h

/-- **One round of such a loop**, from what the next rounds do. -/
theorem wp_round (perm : Nat → Nat) (data : Nat → Page) {fail cont : K α} {good bad : α}
    (hg : Growing c s r v0 k B X) (hk : v0 ≤ k) (hkB : k < B) (hB : B ≤ 2 ^ 26) (hkn : k < n)
    (hperm : perm k < 1024) (hleaf : isLeaf (perm k))
    (hfill : ∀ p rest, s.freelist = p :: rest → ∀ R : Unit → Vm → Prop,
      wp (fill p) E R (s.take p rest) = R () ((s.take p rest).put p (data k)))
    (hfail : ∀ s', Growing c s' r v0 k B X → wp fail E (fun res s'' => res = bad ∧
      Gave s' s'' r (s'.targets r v0 (k - v0)) ∧
      ∀ u, u < 512 ^ 3 → s''.leaf r u = if v0 ≤ u ∧ u < k then 0 else s'.leaf r u) s')
    (hcont : ∀ s', Filled c s s' r v0 k (k + 1) perm data → Growing c s' r v0 (k + 1) B X →
      wp cont E (fun res s'' => Ended c s' s'' r v0 (k + 1) n perm data good bad res) s') :
    wp (do
      let mem ← kalloc
      if mem = 0 then fail
      else do
        fill mem
        let res ← mappages r (k * PGSIZE) PGSIZE mem (perm k)
        if res ≠ 0 then do
          kfree c mem
          fail
        else cont) E (fun res s'' => Ended c s s'' r v0 k n perm data good bad res) s := by
  refine wp_newPage perm data hg hk hkB hB hperm hfill (fun s' h => ?_) fun s' h => ?_
  · refine wp_mono (hfail s' (Growing.short h hg (by omega) hB)) ?_
    rintro res s'' ⟨hres, hgave, hl⟩
    exact .inr ⟨hres, h.rolledBack (by omega) hkn hgave hl⟩
  · refine wp_mono (hcont s' h (Growing.next h hg (by omega) hB hperm hleaf)) ?_
    rintro res s'' (⟨hres, h'⟩ | ⟨hres, h'⟩)
    · exact .inl ⟨hres, h.trans h' hk (by omega) hkn hperm⟩
    · exact .inr ⟨hres, h.rolledBack h' hk hkn
        (hg.wf.zero k (by omega) (hg.unmapped k le_rfl hkB))⟩

end

/-! ## `uvmalloc` -/

theorem uvm_perm_lt (h : xperm < 1024) : PTE_R ||| PTE_U ||| xperm < 1024 :=
  Nat.or_lt_two_pow (n := 10) (by decide) h

theorem uvm_perm_leaf (xperm : Nat) : isLeaf (PTE_R ||| PTE_U ||| xperm) := by
  unfold isLeaf
  rw [Nat.and_or_distrib_right, show (PTE_R ||| PTE_U) &&& (PTE_R ||| PTE_W ||| PTE_X) = 2 by decide]
  intro h
  have := Nat.left_le_or (n := 2) (m := xperm &&& (PTE_R ||| PTE_W ||| PTE_X))
  omega

theorem allocLoop_spec {v0 B : Nat} (hx : xperm < 1024) (hB : B ≤ 2 ^ 26) : ∀ {n k : Nat} {s : Vm},
    v0 ≤ k → pages newsz ≤ k + n → k + s.freelist.length < B → Growing c s r v0 k B X →
    wp (allocLoop c r (v0 * PGSIZE) newsz xperm n (k * PGSIZE)) E (fun res s' =>
      Ended c s s' r v0 k (pages newsz) (fun _ => PTE_R ||| PTE_U ||| xperm) (fun _ => Bytes.fill 0)
        newsz 0 res) s := by
  intro n
  induction n with
  | zero =>
    intro k s _ hn _ _
    exact .inl ⟨rfl, Filled.refl hn⟩
  | succ n ih =>
    intro k s hk hn hlen hg
    unfold allocLoop
    by_cases hlt : k * PGSIZE < newsz
    · rw [if_pos hlt]
      refine wp_round (fun _ => PTE_R ||| PTE_U ||| xperm) (fun _ => Bytes.fill 0) hg hk (by omega) hB
        (mul_lt_iff.mp hlt) (uvm_perm_lt hx) (uvm_perm_leaf xperm) (fun p rest _ R => wp_memset)
        (fun s' hg' => ?_) fun s' h hg' => ?_
      · have hspec := @uvmdealloc_spec s' r (v0 * PGSIZE) (k * PGSIZE) c E
        rw [pages_mul, pages_mul] at hspec
        refine wp_call (hspec (by omega) hg'.own.left fun u h1 h2 => ?_) ?_
        · exact ⟨hg'.mapped u h1 h2, (hg'.wf.leaf u (by omega) (hg'.mapped u h1 h2)).1⟩
        · rintro _ s'' ⟨-, hgave⟩
          exact ⟨rfl, hgave⟩
      · have := h.shrinks hk
        rw [add64_page (by omega)]
        exact ih (by omega) (by omega) (by omega) hg'
    · rw [if_neg hlt]
      exact .inl ⟨rfl, Filled.refl (Nat.le_of_not_lt fun h => hlt (mul_lt_iff.mpr h))⟩

/-- **`uvmalloc`** over an unmapped range, with fewer free pages than the range has. -/
theorem uvmalloc_spec {B : Nat} (hx : xperm < 1024) (hB : B ≤ 2 ^ 26)
    (hlen : pages oldsz + s.freelist.length < B) (ho : Own c s (s.nodes r + X)) (hwf : Wf s r)
    (hun : ∀ u, pages oldsz ≤ u → u < B → ¬ isValid (s.leaf r u)) :
    wp (uvmalloc c r oldsz newsz xperm) E (fun res s' =>
      (newsz < oldsz ∧ res = oldsz ∧ s' = s) ∨ (oldsz ≤ newsz ∧
        Ended c s s' r (pages oldsz) (pages oldsz) (pages newsz) (fun _ => PTE_R ||| PTE_U ||| xperm)
          (fun _ => Bytes.fill 0) newsz 0 res)) s := by
  unfold uvmalloc
  by_cases hlt : newsz < oldsz
  · rw [if_pos hlt]
    exact .inl ⟨hlt, rfl, rfl⟩
  · rw [if_neg hlt, @PGROUNDUP_of_pages oldsz (by omega)]
    refine wp_mono (allocLoop_spec (X := X) hx hB le_rfl (Nat.le_add_left _ _) hlen
      (Growing.start ho hwf hun)) ?_
    exact fun res s' h => .inr ⟨Nat.le_of_not_lt hlt, h⟩

/-! ## `uvmcopy` -/

theorem wp_memmove {dst src : Nat} :
    wp (memmove dst src) E Q s = Q () (s.put dst (s.mem src)) := rfl

/-- The loop of `uvmcopy`, from a table with the words `w`, that are bound to pages with contents
    `data`. -/
theorem copyLoop_spec {old new : Nat} {w : Nat → Nat} (hsz : pages sz ≤ 2 ^ 26)
    (hw : ∀ u, u < pages sz → isValid (w u) ∧ isLeaf (w u) ∧ PTE2PA (w u) ∈ X) :
    ∀ {n k : Nat} {s : Vm}, pages sz ≤ k + n → Growing c s new 0 k (pages sz) X →
    (∀ q ∈ s.nodes old, q ∈ X) →
    (∀ u, u < pages sz → s.leaf old u = w u ∧ s.mem (PTE2PA (w u)) = data u) →
    wp (copyLoop c old new sz n (k * PGSIZE)) E (fun res s' =>
      Ended c s s' new 0 k (pages sz) (fun u => PTE_FLAGS (w u)) data 0 (-1) res) s := by
  intro n
  induction n with
  | zero =>
    intro k s hn _ _ _
    exact .inl ⟨rfl, Filled.refl hn⟩
  | succ n ih =>
    intro k s hn hg hX hold
    unfold copyLoop
    by_cases hlt : k * PGSIZE < sz
    · have hkn : k < pages sz := mul_lt_iff.mp hlt
      obtain ⟨hval, hleaf, hpaX⟩ := hw k hkn
      obtain ⟨hwk, hdata⟩ := hold k hkn
      rw [← hwk] at hval
      obtain ⟨q, i, hslot, hpte⟩ := slot_of_valid hval
      have hperm := PTE_FLAGS_lt (w k)
      rw [if_pos hlt, wp_bind, wp_walk_read (mul_lt_MAXVA (by omega)), vpn_mul, hslot]
      dsimp only
      rw [wp_bind, wp_loadPte, hpte, if_neg (by simpa using hval), hwk]
      refine wp_round (fun u => PTE_FLAGS (w u)) data hg (Nat.zero_le k) hkn hsz hkn hperm
        ((isLeaf_flags _).mpr hleaf) (fun p rest hf R => ?_) (fun s' hg' => ?_) fun s' h hg' => ?_
      · have hne : PTE2PA (w k) ≠ p := by
          rintro rfl
          exact hg.own.not_free (q := PTE2PA (w k)) (by simp [hpaX]) (by simp [hf])
        rw [wp_memmove, Vm.take_mem_of_ne hne, hdata]
      · have hspec := @uvmunmap_spec c s' k new 0 true E (by omega) hg'.own.left fun u h1 h2 =>
          ⟨hg'.mapped u h1 (by omega), (hg'.wf.leaf u (by omega) (hg'.mapped u h1 (by omega))).1⟩
        rw [Nat.zero_mul, Nat.zero_add] at hspec
        rw [Nat.mul_div_cancel _ (by decide)]
        refine wp_call hspec ?_
        rintro _ s'' hgave
        exact ⟨rfl, hgave⟩
      · -- the pages in use elsewhere are as they were
        have hkeep {q : Nat} (hq : q ∈ X) : s'.mem q = s.mem q := h.upd_next.mem_of_own hg.own hq
        rw [add64_page (by omega)]
        refine ih (by omega) hg' ?_ fun u hu => ?_
        · rw [show s'.nodes old = s.nodes old from Vm.nodesAt_congr fun q hq => hkeep (hX q hq)]
          exact hX
        · rw [hkeep (hw u hu).2.2, show s'.leaf old u = s.leaf old u from
            Vm.leafAt_congr fun q hq => hkeep (hX q hq)]
          exact hold u hu
    · rw [if_neg hlt]
      exact .inl ⟨rfl, Filled.refl (Nat.le_of_not_lt fun h => hlt (mul_lt_iff.mpr h))⟩

/-- **`uvmcopy`** into a table with nothing mapped below the size. -/
theorem uvmcopy_spec {old new : Nat} (hsz : pages sz ≤ 2 ^ 26) (ho : Own c s (s.nodes new + X))
    (hwo : Wf s old) (hwn : Wf s new) (hX : ∀ q ∈ s.nodes old, q ∈ X)
    (hold : ∀ u, u < pages sz → isValid (s.leaf old u) ∧ PTE2PA (s.leaf old u) ∈ X)
    (hun : ∀ u, u < pages sz → ¬ isValid (s.leaf new u)) :
    wp (uvmcopy c old new sz) E (fun res s' =>
      Ended c s s' new 0 0 (pages sz) (fun u => PTE_FLAGS (s.leaf old u))
        (fun u => s.mem (PTE2PA (s.leaf old u))) 0 (-1) res) s := by
  have hspec := @copyLoop_spec sz X c (fun u => s.mem (PTE2PA (s.leaf old u))) E old new (s.leaf old)
    hsz (fun u hu => ⟨(hold u hu).1, (hwo.leaf u (by omega) (hold u hu).1).1, (hold u hu).2⟩)
    (pages sz) 0 s (by omega) (Growing.start ho hwn fun u _ h => hun u h) hX fun u _ => ⟨rfl, rfl⟩
  rw [Nat.zero_mul] at hspec
  exact hspec

end ZeptOS.Mem
